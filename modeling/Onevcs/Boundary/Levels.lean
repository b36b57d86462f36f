import Mathlib.Data.List.Basic
import Mathlib.Data.List.Infix
import Mathlib.Data.List.Pairwise
import Mathlib.Logic.Function.Basic

/-!
# Reading the levels above a checkout

`LevelReader` of `boundary/scope.rs`, which reads the declarations of the directories
above a checkout, each directory once, with the plain upward `walk` it stands for.

A directory is the list of its path's components, the deepest first; the filesystem
root is the empty list. Reading a declaration file is another crate's. `Privateterms`
takes the two functions of it that the reader calls, and `Privateterms.Documented`
what is relied on of them.
-/

namespace Onevcs.Boundary

/-- A directory: its components, deepest first. -/
abbrev Dir (ν : Type) := List ν

inductive LevelKind
  | repository
  | directory
  | fallback
  deriving DecidableEq

/-- A level: the declaration a directory holds. -/
structure Level (ν δ : Type) where
  kind : LevelKind
  dir : Dir ν
  declaration : δ
  deriving DecidableEq

/-- What a directory holds. -/
inductive Holding (δ : Type)
  | nothing
  | declares (declaration : δ)
  | refused
  deriving DecidableEq

def Holding.isRefused {δ : Type} : Holding δ → Bool
  | .refused => true
  | _ => false

abbrev Tree (ν δ : Type) := Dir ν → Holding δ

/-- The directories from `start` up to and including `stop`, nearest first. -/
def between {ν : Type} [DecidableEq ν] (start stop : Dir ν) : List (Dir ν) :=
  if start = stop then [start]
  else
    match start with
    | [] => [[]]
    | _ :: up => start :: between up stop

/-- The functions of the declarations crate the reader calls, over one tree. -/
structure Privateterms (ν δ ε : Type) where
  readDirLevel : Dir ν → LevelKind → Except ε (Option (Level ν δ))
  discoverLevels : Dir ν → Dir ν → Except ε (List (Level ν δ))

/-- The declaration of a directory, as a level with its kind left out. -/
def declared {ν δ : Type} (tree : Tree ν δ) (dir : Dir ν) : Option (Dir ν × δ) :=
  match tree dir with
  | .declares declaration => some (dir, declaration)
  | _ => none

/-- What the reader relies on: a directory's level is what the tree holds there, and a
discovery between two directories of one path finds the levels of the directories from
the one up to the other, nearest first. Either is refused where a directory it reads is. -/
structure Privateterms.Documented {ν δ ε : Type} [DecidableEq ν] (crate : Privateterms ν δ ε)
    (tree : Tree ν δ) : Prop where
  read_nothing : ∀ dir kind, tree dir = .nothing → crate.readDirLevel dir kind = .ok none
  read_declares : ∀ dir kind declaration, tree dir = .declares declaration →
    crate.readDirLevel dir kind = .ok (some ⟨kind, dir, declaration⟩)
  read_refused : ∀ dir kind, tree dir = .refused → ∃ e, crate.readDirLevel dir kind = .error e
  discover_found : ∀ start stop, stop <:+ start →
    (∀ dir ∈ between start stop, tree dir ≠ .refused) →
      ∃ found, crate.discoverLevels start stop = .ok found ∧
        found.map (fun level => (level.dir, level.declaration)) =
          (between start stop).filterMap (declared tree)
  discover_refused : ∀ start stop, stop <:+ start →
    (∃ dir ∈ between start stop, tree dir = .refused) →
      ∃ e, crate.discoverLevels start stop = .error e

section Definitions

variable {ν δ ε : Type} [DecidableEq ν]

/-- `LevelReader`: a directory it has read is cached with the level it held, if any. -/
structure LevelReader (ν δ : Type) where
  home : Option (Dir ν)
  cache : Dir ν → Option (Option (Level ν δ))
  read : Nat

/-- `LevelReader::new`, under a home directory. -/
def LevelReader.new (home : Option (Dir ν)) : LevelReader ν δ where
  home := home
  cache _ := none
  read := 0

/-- The loop of `walk`, from one ancestor up. -/
def walkFrom (inside : Bool) (home : Option (Dir ν)) : Dir ν → List (Dir ν)
  | [] => if inside then [[]] else []
  | component :: up =>
    if inside && home == some (component :: up) then [component :: up]
    else (component :: up) :: walkFrom inside home up

/-- `walk`: the directories above a checkout its levels are found in, nearest first. -/
def walk (checkout : Dir ν) (home : Option (Dir ν)) : List (Dir ν) :=
  if home = some checkout then []
  else
    match checkout with
    | [] => []
    | _ :: up => walkFrom (home.any fun home => home.isSuffixOf checkout) home up

namespace LevelReader

/-- Cache what was found of each directory, counting those that hold a level. -/
def remember (found : List (Level ν δ)) (reader : LevelReader ν δ) :
    List (Dir ν) → LevelReader ν δ
  | [] => reader
  | dir :: rest =>
    let level := (found.find? fun level => level.dir = dir).map fun level =>
      { level with kind := .directory }
    remember found
      { reader with
        cache := Function.update reader.cache dir (some level)
        read := if level.isSome then reader.read + 1 else reader.read } rest

def level (crate : Privateterms ν δ ε) (reader : LevelReader ν δ) (dir : Dir ν)
    (kind : LevelKind) : Except ε (Option (Level ν δ)) × LevelReader ν δ :=
  match reader.cache dir with
  | some cached => (.ok (cached.map fun level => { level with kind := kind }), reader)
  | none =>
    match crate.readDirLevel dir kind with
    | .error e => (.error e, reader)
    | .ok level =>
      (.ok level,
        { reader with
          cache := Function.update reader.cache dir (some level)
          read := if level.isSome then reader.read + 1 else reader.read })

/-- `LevelReader::fallback`, where `root` is `$ONEVCS_HOME`. -/
def fallback (crate : Privateterms ν δ ε) (root : Dir ν) (reader : LevelReader ν δ) :
    Except ε (Option (Level ν δ)) × LevelReader ν δ :=
  reader.level crate root .fallback

/-- How many of the walked directories come before the nearest one already read. -/
def unread (reader : LevelReader ν δ) (walked : List (Dir ν)) : Nat :=
  walked.findIdx fun dir => (reader.cache dir).isSome

/-- The levels the cache holds of the walked directories, as directory levels. -/
def answer (reader : LevelReader ν δ) (walked : List (Dir ν)) : List (Level ν δ) :=
  walked.filterMap fun dir =>
    (reader.cache dir).join.map fun level => { level with kind := .directory }

def ancestors (crate : Privateterms ν δ ε) (reader : LevelReader ν δ) (checkout : Dir ν) :
    Except ε (List (Level ν δ)) × LevelReader ν δ :=
  let walked := walk checkout reader.home
  match walked.take (reader.unread walked) with
  | [] => (.ok (reader.answer walked), reader)
  | start :: rest =>
    match crate.discoverLevels start ((start :: rest).getLast (List.cons_ne_nil _ _)) with
    | .error e => (.error e, reader)
    | .ok found =>
      let reader := reader.remember found (start :: rest)
      (.ok (reader.answer walked), reader)

end LevelReader

inductive Call (ν : Type)
  | level (dir : Dir ν) (kind : LevelKind)
  | fallback
  | ancestors (checkout : Dir ν)

/-- The reader after a call, which may have been refused. -/
def Call.run (crate : Privateterms ν δ ε) (root : Dir ν) (reader : LevelReader ν δ) :
    Call ν → LevelReader ν δ
  | .level dir kind => (reader.level crate dir kind).2
  | .fallback => (reader.fallback crate root).2
  | .ancestors checkout => (reader.ancestors crate checkout).2

/-- A new reader after any calls, in order. -/
def afterCalls (crate : Privateterms ν δ ε) (root : Dir ν) (home : Option (Dir ν))
    (calls : List (Call ν)) : LevelReader ν δ :=
  calls.foldl (Call.run crate root) (.new home)

/-- The plain upward walk: the declared levels of every directory above the checkout,
nearest first, refused where one of them is. -/
def plainLevels (tree : Tree ν δ) (checkout : Dir ν) (home : Option (Dir ν)) :
    Option (List (Level ν δ)) :=
  if (walk checkout home).any fun dir => (tree dir).isRefused then none
  else
    some ((walk checkout home).filterMap fun dir =>
      (declared tree dir).map fun found => ⟨.directory, found.1, found.2⟩)

end Definitions

end Onevcs.Boundary
