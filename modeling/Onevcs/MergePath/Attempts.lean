import Mathlib.Data.List.AList
import Mathlib.Data.List.Sort
import Mathlib.Logic.Function.Basic
import Onevcs.Foundations.Digits
import Onevcs.Foundations.Retention
import Onevcs.Foundations.Transition
import Onevcs.GitReads.Spelling
import Onevcs.Store.Normalize

/-!
# The preserved logs of a merge path

`merge_path.rs`'s `preserve_log`, and `attempt_number`, `highest` and `prune` under it: any number
of calls that keep a log each in one branch's directory, their steps taken in any order, among
files that are somebody else's.

A call reads the highest number there is, claims the first free one from the next on by creating
its file where none is, writes it, lists the directory, and removes the oldest of what it listed
but ten. A step that asks the file system carries how it was answered.

What a call writes is its contents with the secrets taken out; which those are is a parameter.
-/

namespace Onevcs.MergePath

open Foundations
open Onevcs.Store (stripPrefix)
open Onevcs.GitReads (stripSuffix)

def preservedLogAttempts : ℕ := 10

/-- The name of the log of one attempt. -/
def attemptName (number : ℕ) : Text := "gate-".toList ++ padded 4 number ++ ".log".toList

def attemptNumber (name : Text) : Option ℕ := do
  let rest ← stripPrefix "gate-".toList name
  let digits ← stripSuffix ".log".toList rest
  if digits.length ≠ 4 ∨ digits.all Char.isDigit = false then none
  else (parseUnsigned 32 digits).filter fun number => 0 < number

/-- What stands under one name. -/
inductive Entry
  | file (contents : Text)
  | directory
  -- a symbolic link, or whatever else is neither
  | other

def Entry.isFile : Entry → Bool
  | .file _ => true
  | .directory | .other => false

/-- A directory: what stands under each of its names. -/
abbrev Directory := AList fun _ : Text => Entry

namespace Directory

def highest (directory : Directory) : ℕ :=
  ((directory.entries.filterMap fun entry => attemptNumber entry.fst).max?).getD 0

/-- The logs that `prune` lists, oldest first. -/
def logs (directory : Directory) : List Text :=
  ((directory.entries.filter fun entry =>
    (attemptNumber entry.fst).isSome && entry.snd.isFile).map Sigma.fst).insertionSort (· ≤ ·)

/-- The logs that `prune` removes, oldest first. -/
def doomed (directory : Directory) : List Text :=
  directory.logs.take (directory.logs.length - preservedLogAttempts)

/-- The attempts whose logs are there. -/
def numbers (directory : Directory) : Finset ℕ :=
  (directory.logs.filterMap attemptNumber).toFinset

end Directory

/-! ## The calls -/

/-- Where a call of `preserve_log` stands. -/
inductive Phase
  | idle
  -- about to read the highest number
  | called (contents : Text)
  -- about to create the file of a number
  | trying (contents : Text) (next : ℕ)
  -- the number is claimed, and its file is about to be written
  | claimed (contents : Text) (number : ℕ)
  -- about to list the directory
  | written (contents : Text) (number : ℕ)
  -- about to remove what is left of the logs it listed
  | pruning (contents : Text) (number : ℕ) (doomed : List Text)
  | returned (contents : Text) (number : ℕ)
  | failed
  deriving DecidableEq

/-- A step of one call, with how the file system answers it. -/
inductive Act
  | call (contents : Text)
  | read (listed : Bool)
  | create (writable : Bool)
  | write (ok : Bool)
  | list (listed : Bool)
  | remove (ok : Bool)
  | finish

/-- A step of a call, or of somebody else on a file of theirs. -/
inductive Label (κ : Type)
  | act (call : κ) (act : Act)
  | place (name : Text) (entry : Entry)
  | clear (name : Text)

/-- The directory and the calls, with the number each has claimed, the last first. -/
structure World (κ : Type) where
  directory : Directory
  phase : κ → Phase
  claims : List (κ × ℕ)

section Steps

variable {κ : Type} [DecidableEq κ] (redact : Text → Text)

namespace World

def goto (s : World κ) (call : κ) (phase : Phase) : World κ :=
  { s with phase := Function.update s.phase call phase }

@[simp] theorem goto_phase_self (s : World κ) (call : κ) (phase : Phase) :
    (s.goto call phase).phase call = phase :=
  Function.update_self ..

theorem goto_phase_of_ne {s : World κ} {call other : κ} {phase : Phase} (h : other ≠ call) :
    (s.goto call phase).phase other = s.phase other :=
  Function.update_of_ne h ..

/-- `create_new`, at one number. -/
def create (s : World κ) (call : κ) (contents : Text) (next : ℕ) (writable : Bool) : World κ :=
  if next < 10000 then
    match s.directory.lookup (attemptName next) with
    | some _ => s.goto call (.trying contents (next + 1))
    | none =>
      if writable then
        { s with
          directory := s.directory.insert (attemptName next) (.file [])
          claims := (call, next) :: s.claims }.goto call (.claimed contents next)
      else s.goto call .failed
  else s.goto call .failed

/-- `fs::write`: what is not there is created, and what a link leads to is written instead. -/
def write (s : World κ) (call : κ) (contents : Text) (number : ℕ) : Option (World κ) :=
  match s.directory.lookup (attemptName number) with
  | some .directory => none
  | some .other => some (s.goto call (.written contents number))
  | some (.file _) | none =>
    some ({ s with
      directory := s.directory.insert (attemptName number) (.file (redact contents)) }.goto call
        (.written contents number))

/-- `remove_file`. -/
def unlink (s : World κ) (name : Text) : Option (World κ) :=
  match s.directory.lookup name with
  | some .directory | none => none
  | some .other | some (.file _) => some { s with directory := s.directory.erase name }

def act (s : World κ) (call : κ) : Act → Option (World κ)
  | .call contents =>
    match s.phase call with
    | .idle => some (s.goto call (.called contents))
    | _ => none
  | .read listed =>
    match s.phase call with
    | .called contents =>
      some (s.goto call (.trying contents ((if listed then s.directory.highest else 0) + 1)))
    | _ => none
  | .create writable =>
    match s.phase call with
    | .trying contents next => some (s.create call contents next writable)
    | _ => none
  | .write ok =>
    match s.phase call with
    | .claimed contents number =>
      if ok then s.write redact call contents number else some (s.goto call .failed)
    | _ => none
  | .list listed =>
    match s.phase call with
    | .written contents number =>
      some (s.goto call (.pruning contents number (if listed then s.directory.doomed else [])))
    | _ => none
  | .remove ok =>
    match s.phase call with
    | .pruning contents number (name :: rest) =>
      if ok then (s.unlink name).map fun next => next.goto call (.pruning contents number rest)
      else some (s.goto call (.pruning contents number rest))
    | _ => none
  | .finish =>
    match s.phase call with
    | .pruning contents number [] => some (s.goto call (.returned contents number))
    | _ => none

/-- One step. Nobody else touches a log that a call wrote. -/
def step (s : World κ) : Label κ → Option (World κ)
  | .act call act => s.act redact call act
  | .place name entry =>
    match s.directory.lookup name with
    | none => some { s with directory := s.directory.insert name entry }
    | some _ => none
  | .clear name =>
    match s.directory.lookup name with
    | some entry =>
      if entry.isFile && (attemptNumber name).isSome then none
      else some { s with directory := s.directory.erase name }
    | none => none

end World

/-- Any number of calls on one branch's directory, which starts empty. -/
def preserving (κ : Type) [DecidableEq κ] : System (World κ) (Label κ) where
  Initial s := s.directory = ∅ ∧ s.claims = [] ∧ ∀ call, s.phase call = .idle
  step := World.step redact

end Steps

end Onevcs.MergePath
