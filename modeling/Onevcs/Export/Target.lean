import Mathlib.Data.List.Basic
import Mathlib.Logic.Function.Basic
import Onevcs.Foundations.PathTree
import Onevcs.Foundations.Lines

/-!
# Writing an export

`export.rs`'s `collect`, which lists the files of a source directory, and `write_target`, with
`build_tree`, `Node` and `place` under it: the exported files as one tree, put into the tree of the
destination's base at the target directory, as one commit that a new branch is cut at.

git's objects are given by what they hold, and a directory whose tree object cannot be read as one
that is lost. Which names libgit2 lets into a tree, and what the destination answers at each step
that asks it, are parameters; the files that its LFS store takes are written as their pointers.
-/

namespace Onevcs.Export

open Foundations (Text PathEntry PathLevel)

/-- What git has under a name besides a directory that can be read. -/
inductive Item (β : Type)
  | file (executable : Bool) (contents : β)
  | link (target : β)
  | submodule
  -- an entry of an unknown kind
  | unknown
  -- a directory whose tree cannot be read
  | lost
  deriving DecidableEq

abbrev Tree (β : Type) := PathLevel Text (Item β)

/-- `File`: a file of the exported directory, by the names on its path. -/
structure File (β : Type) where
  path : List Text
  contents : β
  executable : Bool
  named : path ≠ []

/-- What git has under the path of a file. -/
def File.item {β : Type} (file : File β) : Item β := .file file.executable file.contents

section Collecting

variable {β : Type}

mutual

/-- `collect`, of one entry of a directory. -/
def collectEntry (above : List Text) (name : Text) :
    PathEntry Text (Item β) → Except Text (List (File β))
  | .leaf (.file executable contents) => .ok [⟨above ++ [name], contents, executable, by simp⟩]
  | .leaf (.link _) => .error "it carries a symbolic link".toList
  | .leaf .submodule => .error "it carries a submodule".toList
  | .leaf .unknown => .error "it carries an entry of an unknown kind".toList
  | .leaf .lost => .error "a directory in it cannot be read".toList
  | .node level => collect (above ++ [name]) level

def collect (above : List Text) : Tree β → Except Text (List (File β))
  | [] => .ok []
  | (name, entry) :: rest => do
    let files ← collectEntry above name entry
    let others ← collect above rest
    return files ++ others

end

end Collecting

/-! ## Building the exported tree -/

/-- `Node`: a directory being built, its files and its subdirectories in the order they were
entered, which a tree does not keep. -/
inductive Node (β : Type)
  | mk (files : List (Text × Item β)) (directories : List (Text × Node β))

namespace Node

variable {β : Type}

def empty : Node β := ⟨[], []⟩

/-- `BTreeMap::entry` with its default, changed. -/
def enter (name : Text) (change : Node β → Node β) : List (Text × Node β) → List (Text × Node β)
  | [] => [(name, change empty)]
  | (other, node) :: rest =>
    if other = name then (other, change node) :: rest else (other, node) :: enter name change rest

def insert (item : Item β) : List Text → Node β → Node β
  | [name], ⟨files, directories⟩ => ⟨files ++ [(name, item)], directories⟩
  | directory :: next :: rest, ⟨files, directories⟩ =>
    ⟨files, enter directory (insert item (next :: rest)) directories⟩
  | [], node => node

end Node

section Building

variable {β : Type} (validName : Text → Bool)

/-- `TreeBuilder::insert`, refused with what is said of it. -/
def insertEntry (said : Text) (name : Text) (entry : PathEntry Text (Item β)) (tree : Tree β) :
    Except Text (Tree β) :=
  if validName name then .ok (tree.set name entry) else .error said

def unbuilt : Text := "the exported tree cannot be built".toList

/-- `Node::write`, its files. -/
def writeFiles : List (Text × Item β) → Tree β → Except Text (Tree β)
  | [], tree => .ok tree
  | (name, item) :: rest, tree => do
    writeFiles rest (← insertEntry validName unbuilt name (.leaf item) tree)

mutual

def Node.write : Node β → Except Text (Tree β)
  | ⟨files, directories⟩ => do
    writeDirectories directories (← writeFiles validName files [])

/-- `Node::write`, its subdirectories. -/
def writeDirectories : List (Text × Node β) → Tree β → Except Text (Tree β)
  | [], tree => .ok tree
  | (name, node) :: rest, tree => do
    let below ← node.write
    writeDirectories rest (← insertEntry validName unbuilt name (.node below) tree)

end

def buildTree (stores : β → Bool) (files : List (File β)) : Except Text (Tree β) :=
  if files.all fun file => stores file.contents then
    (files.foldl (fun root file => root.insert file.item file.path) Node.empty).write validName
  else .error "a file cannot be written".toList

def place (exported : Tree β) : List Text → Tree β → Except Text (Tree β)
  | [], _ => .ok exported
  | first :: rest, tree => do
    let child ← place exported rest (PathLevel.below (PathLevel.entryAt [first] tree))
    insertEntry validName "the destination's tree cannot be built".toList first (.node child) tree

mutual

/-- `attributes` of `lfs.rs`, of one entry: every directory is read but what is replaced. -/
def attributesEntry (replaced path : List Text) : PathEntry Text (Item β) → Bool
  | .leaf .lost => false
  | .leaf _ => true
  | .node level => attributes replaced path level

/-- `attributes` of `lfs.rs`, as far as it reads directories. -/
def attributes (replaced above : List Text) : Tree β → Bool
  | [] => true
  | (name, entry) :: rest =>
    (above ++ [name] == replaced || attributesEntry replaced (above ++ [name]) entry) &&
      attributes replaced above rest

end

end Building

/-- The destination's checkout, and how it answers. -/
structure Destination (κ β ω : Type) where
  hasOrigin : Bool
  fetches : Bool
  opens : Bool
  branches : Text → Option κ
  /-- `git::default_branch`. -/
  baseName : Option Text
  /-- What `refs/remotes/origin/<name>` resolves to. -/
  resolve : Text → Option κ
  tree : κ → Option (Tree β)
  /-- git's attributes put the file under LFS. -/
  tracks : File β → Bool
  /-- The pointer to what LFS stores. -/
  pointer : β → β
  /-- Everything else that deciding the attributes and uploading the objects asks succeeds. -/
  uploads : Bool
  stores : β → Bool
  validName : Text → Bool
  treeId : Tree β → ω
  commit : κ → Tree β → Option κ
  cuts : Text → Bool

/-- The commit an export wrote, the base it is on, and its tree. -/
structure Written (κ β : Type) where
  head : κ
  base : κ
  tree : Tree β

section Writing

variable {κ β ω : Type} [DecidableEq ω]

/-- What is written of a file: `PreparedFile`. -/
def Destination.prepare (destination : Destination κ β ω) (file : File β) : File β :=
  if destination.tracks file then { file with contents := destination.pointer file.contents }
  else file

/-- `str::split` at `/`. -/
def segments (directory : Text) : List Text := directory.splitOn '/'

def normalized (directory : Text) : Bool :=
  !directory.isEmpty && directory.head? != some '/' && !directory.contains '\\' &&
    (segments directory).all fun segment =>
      !(["".toList, ".".toList, "..".toList, ".git".toList].contains segment)

/-- `write_target`, up to its commit. -/
def writeCommit (destination : Destination κ β ω) (targetDirectory branchName : Text)
    (files : List (File β)) : Except Text (Written κ β) := do
  if destination.hasOrigin && !destination.fetches then
    throw "its destination's base could not be fetched".toList
  if !destination.opens then
    throw "its destination repository cannot be opened".toList
  if (destination.branches branchName).isSome then
    throw "its branch name is already a branch of the destination".toList
  let some baseName := destination.baseName
    | throw "its destination's base cannot be named".toList
  let some base := destination.resolve baseName
    | throw "its destination's public base does not resolve".toList
  let some baseTree := destination.tree base
    | throw "its destination's base cannot be read".toList
  if !(attributes (segments targetDirectory) [] baseTree && destination.uploads) then
    throw "its destination's Git LFS store could not take its objects".toList
  let exported ← buildTree destination.validName destination.stores (files.map destination.prepare)
  let tree ← place destination.validName exported (segments targetDirectory) baseTree
  if destination.treeId tree = destination.treeId baseTree then
    throw "it would change nothing in its destination".toList
  let some head := destination.commit base tree
    | throw "the export's commit cannot be written".toList
  return ⟨head, base, tree⟩

/-- `write_target`: its answer, and the destination's branches after it. -/
def writeTarget (destination : Destination κ β ω) (targetDirectory branchName : Text)
    (files : List (File β)) : Except Text (Written κ β) × (Text → Option κ) :=
  match writeCommit destination targetDirectory branchName files with
  | .error said => (.error said, destination.branches)
  | .ok written =>
    if destination.cuts branchName then
      (.ok written, Function.update destination.branches branchName (some written.head))
    else (.error "its branch cannot be cut".toList, destination.branches)

end Writing

end Onevcs.Export
