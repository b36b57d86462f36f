import Onevcs.Foundations.Lines

/-!
# The publication check

`boundary/screen.rs`: the commits a publication writes, each diffed against every
parent, and the matcher put to what the diffs add. The repository is git's library,
outside this crate. `Repository` is the part of it the screen calls, and
`Repository.Documented` is what is relied on of it.

A tree is the entries of its paths, and a blob's text is what its bytes decode to. The
timings a screen takes are left out.
-/

namespace Onevcs.Boundary

open Foundations (Text Script pieces trimEnd)

/-! ## The repository -/

/-- What an entry of a tree is. -/
inductive EntryKind
  | file
  | link
  | commit
  deriving DecidableEq

structure Entry (ω : Type) where
  kind : EntryKind
  id : ω
  deriving DecidableEq

/-- A tree, with those it holds: an entry for each path. -/
abbrev GitTree (ω : Type) := List (Text × Entry ω)

/-- A blob: whether git takes it for binary, and its text. -/
structure Blob where
  isBinary : Bool
  text : Text

/-- What looking a blob up comes to. -/
inductive Lookup
  | found (blob : Blob)
  | notFound
  | failed (problem : Text)

/-- The kinds of delta the screen tells apart. -/
inductive DeltaStatus
  | added
  | deleted
  | modified
  | typechange
  | renamed
  | copied
  deriving DecidableEq

/-- One side of a delta. -/
structure DiffFile (ω : Type) where
  path : Option Text
  id : ω

/-- One file of one diff. -/
structure Delta (ω : Type) where
  status : DeltaStatus
  oldFile : DiffFile ω
  newFile : DiffFile ω

/-- One outgoing commit and its parents' ids. -/
structure Commit (ω : Type) where
  id : ω
  parents : List ω
  message : Text
  deriving DecidableEq

/-- What the screen calls of an opened repository. An error carries how it is said. -/
structure Repository (ω : Type) where
  zero : ω
  revparse : Text → Except Text ω
  revwalk : ω → Option ω → Except Text (List ω)
  findCommit : ω → Except Text (Commit ω)
  commitTree : ω → Except Text (GitTree ω)
  diffTreeToTree : Option (GitTree ω) → GitTree ω → Except Text (List (Delta ω))
  findBlob : ω → Lookup
  diffLines : Blob → Blob → Except Text (Script Text)

/-- A delta says what happened at a path. -/
def Delta.Describes {ω : Type} (delta : Delta ω) : Option (Entry ω) → Option (Entry ω) → Prop
  | none, some after => delta.status = .added ∧ delta.newFile.id = after.id
  | some before, some after =>
    (delta.status = .modified ∨ delta.status = .typechange) ∧
      delta.oldFile.id = before.id ∧ delta.newFile.id = after.id
  | _, none => delta.status = .deleted

/-- What the screen relies on: a diff of two trees has a delta for each path they hold
different entries at, which says what happened there, and a diff of two blobs is a line
diff of their texts. -/
structure Repository.Documented {ω : Type} (repository : Repository ω) : Prop where
  delta_of_change : ∀ before after deltas, repository.diffTreeToTree before after = .ok deltas →
    ∀ path, before.bind (·.lookup path) ≠ after.lookup path →
      ∃ delta ∈ deltas, delta.newFile.path = some path
  describes : ∀ before after deltas, repository.diffTreeToTree before after = .ok deltas →
    ∀ delta ∈ deltas, ∀ path, delta.newFile.path = some path →
      delta.Describes (before.bind (·.lookup path)) (after.lookup path)
  aligns : ∀ before after script, repository.diffLines before after = .ok script →
    Foundations.Aligns script (pieces before.text) (pieces after.text)

/-! ## Reading what a publication writes -/

/-- Everything one publication is about to write. -/
structure Outgoing where
  base : Option Text
  tip : Text
  branch : Option Text
  title : Option Text
  body : Option Text

/-- One file of one commit against one parent. -/
structure Change where
  oldPath : Option Text
  newPath : Option Text
  addedPath : Bool
  added : Text

section Reading

variable {ω : Type} [DecidableEq ω]

/-- `map_err`, to what was being done and then the problem. -/
def saying {α : Type} (doing : String) : Except Text α → Except Text α
  | .ok value => .ok value
  | .error problem => .error (doing.toList ++ problem)

/-- The closure `blob` of `change`: a text blob, where that is what the id names. -/
def Repository.blob (repository : Repository ω) (id : ω) : Except Text (Option Blob) :=
  if id = repository.zero then .ok none
  else
    match repository.findBlob id with
    | .found blob => .ok (if blob.isBinary then none else some blob)
    -- A submodule's commit is not an object of this repository.
    | .notFound => .ok none
    | .failed problem => .error ("a blob cannot be read: ".toList ++ problem)

/-- The text a line diff adds, each line without its line ending. -/
def addedText (script : Script Text) : Text :=
  (script.filter fun line => line.1 = .added).flatMap fun line => trimEnd line.2 ++ ['\n']

/-- A path as the screen writes it. -/
def shownPath (path : Text) : Text := path.map fun c => if c = '\\' then '/' else c

/-- `change`: one file's change against one parent. -/
def change (repository : Repository ω) (delta : Delta ω) : Except Text Change := do
  let change : Change :=
    { oldPath := delta.oldFile.path.map shownPath
      newPath := delta.newFile.path.map shownPath
      addedPath := delta.status == .added || delta.status == .renamed || delta.status == .copied
      added := [] }
  match delta.status with
  | .added =>
    match ← repository.blob delta.newFile.id with
    | some new => pure { change with added := new.text }
    | none => pure change
  | .modified | .typechange =>
    match ← repository.blob delta.oldFile.id, ← repository.blob delta.newFile.id with
    | some old, some new =>
      let script ← saying "a file cannot be diffed: " (repository.diffLines old new)
      pure { change with added := addedText script }
    -- One side has no text to diff.
    | _, _ => pure change
  | .deleted | .renamed | .copied => pure change

/-- The trees a commit is diffed against: nothing for a root, and every parent's otherwise. -/
def parentTrees (repository : Repository ω) (commit : Commit ω) :
    Except Text (List (Option (GitTree ω))) := do
  let trees ← commit.parents.mapM fun parent =>
    saying "a parent's tree cannot be read: " ((repository.commitTree parent).map some)
  pure (if trees.isEmpty then [none] else trees)

/-- Every file a commit changes against one parent. -/
def changesBetween (repository : Repository ω) (before : Option (GitTree ω))
    (after : GitTree ω) : Except Text (List Change) := do
  let deltas ← saying "a commit cannot be diffed: " (repository.diffTreeToTree before after)
  deltas.mapM (change repository)

/-- Every file a commit changes against each parent. -/
def commitChanges (repository : Repository ω) (commit : Commit ω) :
    Except Text (List Change) := do
  let tree ← saying "a commit's tree cannot be read: " (repository.commitTree commit.id)
  let before ← parentTrees repository commit
  let changes ← before.mapM fun parent => changesBetween repository parent tree
  pure changes.flatten

def outgoingCommits (repository : Repository ω) (outgoing : Outgoing) :
    Except Text (List (Commit ω)) := do
  let tip ← saying "the published revision does not resolve: " (repository.revparse outgoing.tip)
  let base ← outgoing.base.mapM fun base =>
    saying "the destination base does not resolve: " (repository.revparse base)
  let ids ← saying "history cannot be walked: " (repository.revwalk tip base)
  ids.mapM fun id => saying "a commit cannot be read: " (repository.findCommit id)

/-- `read`: every outgoing commit, and every file each changes against each parent. -/
def read (repository : Except Text (Repository ω)) (outgoing : Outgoing) :
    Except Text (List (Commit ω) × List Change) := do
  let repository ← saying "the repository cannot be opened: " repository
  let commits ← outgoingCommits repository outgoing
  let changes ← commits.mapM (commitChanges repository)
  pure (commits, changes.flatten)

end Reading

/-! ## Judging it -/

/-- Where text was read. -/
inductive Surface
  | path
  | content
  | commitMessage
  | branch
  | title
  | body
  deriving DecidableEq

/-- `surface_name`: the surface's own wire word. -/
def surfaceName : Surface → Text
  | .path => "path".toList
  | .content => "content".toList
  | .commitMessage => "commit-message".toList
  | .branch => "branch".toList
  | .title => "title".toList
  | .body => "body".toList

/-- Why a check could not decide. -/
inductive Unavailability
  | derivation
  | history
  | matcher
  deriving DecidableEq

/-- What the check decided. -/
inductive BoundaryVerdict
  | pass
  | refuse (surface : Surface)
  | unavailable (reason : Unavailability)
  deriving DecidableEq

/-- The matcher: the rules a text carries a term of. -/
structure Matcher where
  find : Text → List Nat

/-- What a line of a text carries, the text carries. -/
def Matcher.LineWise (matcher : Matcher) : Prop :=
  ∀ text, ∀ line ∈ Foundations.contents text, matcher.find line ≠ [] → matcher.find text ≠ []

/-- The private detail behind a verdict. -/
structure Evidence where
  surface : Surface
  place : Text
  rule : Nat

/-- `Judge`, as far as it changes. -/
structure Judge where
  verdict : BoundaryVerdict
  evidence : List Evidence

namespace Judge

/-- `Judge::refuse`: the first refusal is the verdict, and all are evidence. -/
def refuse (judge : Judge) (surface : Surface) (place : Text) (rules : List Nat) : Judge where
  verdict := if judge.verdict = .pass then .refuse surface else judge.verdict
  evidence := judge.evidence ++ rules.map fun rule => ⟨surface, place, rule⟩

def text (matcher : Matcher) (judge : Judge) (surface : Surface) (text place : Text) : Judge :=
  let found := matcher.find text
  if found.isEmpty then judge else judge.refuse surface place found

def change (matcher : Matcher) (judge : Judge) (change : Change) : Judge :=
  let judge :=
    match change.addedPath, change.newPath with
    | true, some path => judge.text matcher .path path path
    | _, _ => judge
  if !change.added.isEmpty && !(matcher.find change.added).isEmpty then
    let path := change.newPath.getD []
    (Foundations.lines change.added).foldl
      (fun judge line => judge.text matcher .content line path) judge
  else judge

/-- The short fields of a publication, where it writes them. -/
def fields (matcher : Matcher) (judge : Judge) (outgoing : Outgoing) : Judge :=
  [(Surface.branch, outgoing.branch), (.title, outgoing.title), (.body, outgoing.body)].foldl
    (fun judge field =>
      match field.2 with
      | some text => judge.text matcher field.1 text (surfaceName field.1)
      | none => judge) judge

def messages {ω : Type} (matcher : Matcher) (judge : Judge) (commits : List (Commit ω)) : Judge :=
  commits.zipIdx.foldl
    (fun judge commit =>
      judge.text matcher .commitMessage commit.1.message
        ("commit ".toList ++ (toString (commit.2 + 1)).toList)) judge

end Judge

/-- `screen`: the verdict on what a publication writes, where `derived` is the matcher of
the terms it is held to, or why there is none. -/
def screen {ω : Type} [DecidableEq ω] (derived : Except Unavailability (Option Matcher))
    (repository : Except Text (Repository ω)) (outgoing : Outgoing) : BoundaryVerdict :=
  match derived with
  | .error reason => .unavailable reason
  | .ok matcher =>
    match read repository outgoing, matcher with
    | .error _, _ => .unavailable .history
    | .ok _, none => .unavailable .matcher
    | .ok (commits, changes), some matcher =>
      let judge : Judge := ⟨.pass, []⟩
      let judge := judge.messages matcher commits
      let judge := judge.fields matcher outgoing
      (changes.foldl (Judge.change matcher) judge).verdict

end Onevcs.Boundary
