import Onevcs.Foundations.History
import Onevcs.Foundations.Lines
import Onevcs.Retire.Classes

/-!
# Judging one copy

`judge_copy` and `recorded_landing` of `retire.rs`, over the questions of `git.rs` they
put to a repository: the fork point, the content-free tail, the messages of the base, and
the paths that differ.

Commits form a history; each has a tree, which is its entries by path, and a message. Git
answers in bytes, and `text` makes nothing of an answer that is not text, so a name is
either text or not, and so is a message (`none`). A repository is seen through a view: the commits it has, and
the questions git refuses there.
-/

namespace Onevcs.Retire

open Foundations (History Text lines)

/-- A name in a tree: text, or bytes that are not text. -/
inductive Name
  | text (name : String)
  | raw (bytes : List Nat)
  deriving DecidableEq

abbrev Path := List Name

/-- The commits of the repositories of one identity. -/
structure Commits (κ ε : Type) where
  history : History κ
  tree : κ → List (Path × ε)
  message : κ → Option Text
  objectId : Text → Option κ
  spell : κ → String

/-- What is put to git about commits. -/
inductive Question (κ : Type)
  | mergeBase (first second : κ)
  | firstParents (commit : κ)
  | messages (base branch : κ)
  | isAncestor (ancestor descendant : κ)
  | message (commit : κ)
  | commits (point tip : κ)
  | noContent (commit : κ)
  | changed (first second : κ)
  | among (first second : κ)

/-- A repository as it is asked: the commits it has, and what git says where it refuses. -/
structure View (κ : Type) where
  has : κ → Bool
  refuses : Question κ → Option String

/-- A landing some record of this host names. -/
structure RecordedLanding (κ : Type) where
  commit : κ
  head : Option κ
  change : Option String
  deriving DecidableEq

/-- A merge the host reported for the branch's own change request. -/
structure Merged (κ : Type) where
  change : String
  head : κ

/-- What this host's own records say about one branch. -/
structure Evidence (κ : Type) where
  change : Option String
  landing : Option (RecordedLanding κ)
  merged : Option (Merged κ)
  changed : Bool

/-- What one copy's tip turned out to be. -/
structure Judged (κ : Type) where
  atBase : Bool
  fork : Option κ
  contentFree : List κ
  differing : List Path
  proof : Option (RetirementProof κ)

/-- `Judged::at_base`. -/
def Judged.standing {κ : Type} : Judged κ := ⟨true, none, [], [], none⟩

/-- The path is one git can list as text. -/
def isText (path : Path) : Bool :=
  path.all fun name => match name with
    | .text _ => true
    | .raw _ => false

/-- `text` of a listing: nothing at all where one of its names is not text. -/
def readListing (paths : List Path) : List Path := if paths.all isText then paths else []

/-- White space, as Rust's `trim` has it. -/
def isWhiteSpace (c : Char) : Bool :=
  (9 ≤ c.toNat && c.toNat ≤ 13) || c.toNat ∈ [32, 0x85, 0xa0, 0x1680, 0x2028, 0x2029, 0x202f,
    0x205f, 0x3000] || (0x2000 ≤ c.toNat && c.toNat ≤ 0x200a)

def trim (text : Text) : Text := (text.dropWhile isWhiteSpace).rdropWhile isWhiteSpace

/-- `str::strip_prefix`. -/
def stripKey (key line : Text) : Option Text :=
  if key.isPrefixOf line then some (line.drop key.length) else none

def contentFreeWalk : Nat := 64

section Graph

variable {κ ε : Type} [DecidableEq κ] [DecidableEq ε] (G : Commits κ ε)

namespace Commits

/-- What a commit has at a path. -/
def entry (commit : κ) (path : Path) : Option ε := (G.tree commit).lookup path

/-- `git diff --name-only --no-renames`. -/
def diff (first second : κ) : List Path :=
  (((G.tree first).map Prod.fst ++ (G.tree second).map Prod.fst).filter fun path =>
    G.entry first path ≠ G.entry second path).dedup

/-- The tree of a commit is that of its first parent. -/
def contentFree (commit : κ) : Bool :=
  match (G.history.parents commit).head? with
  | some parent => G.tree commit = G.tree parent
  | none => false

/-- So many commits of the first-parent chain from a commit. -/
def firstParents : Nat → κ → List κ
  | 0, _ => []
  | count + 1, commit =>
    commit :: match (G.history.parents commit).head? with
      | some parent => firstParents count parent
      | none => []

/-- The loop of `content_free_tail` over the chain, with the commit it stops at. -/
def tailWalk (stop : Option κ) : List κ → List κ × Option κ
  | [] => ([], none)
  | [commit] => ([], some commit)
  | commit :: parent :: rest =>
    if stop = some commit ∨ G.tree commit ≠ G.tree parent then ([], some commit)
    else
      let (skipped, tip) := tailWalk stop (parent :: rest)
      (commit :: skipped, tip)

def trailerValues (message key : Text) : List κ :=
  ((lines message).filterMap fun line => stripKey key (trim line)).filterMap fun value =>
    G.objectId (trim value)

end Commits

/-! ## Questions to a repository -/

variable (view : View κ)

/-- An answer, unless git refuses the question. -/
def View.ask {α : Type} (question : Question κ) (answer : α) : Except String α :=
  match view.refuses question with
  | some said => .error said
  | none => .ok answer

def mergeBase (first second : κ) : Except String (Option κ) :=
  view.ask (.mergeBase first second) (G.history.mergeBase first second)

def contentFreeTail (commit : κ) (stop : Option κ) : Except String (List κ × κ) := do
  let chain ← view.ask (.firstParents commit) (G.firstParents (contentFreeWalk + 1) commit)
  let (skipped, tip) := G.tailWalk stop chain
  return (skipped, tip.getD commit)

def knownToReach (ancestor descendant : κ) : Except String Bool :=
  if view.has ancestor && view.has descendant then
    view.ask (.isAncestor ancestor descendant) (decide (G.history.Reaches descendant ancestor))
  else .ok false

/-- `git::log_messages`: the messages of the commits of `branch` that are not in `base`,
and none of them where one is not text. -/
def logMessages (base branch : κ) : Except String (List Text) :=
  let messages := (G.history.beyond [base] branch).map G.message
  view.ask (.messages base branch)
    (if messages.all Option.isSome then messages.filterMap id else [])

def commitMessage (commit : κ) : Except String (Option Text) :=
  if view.has commit then view.ask (.message commit) (some ((G.message commit).getD [])) else .ok none

/-- `git::commits_in`, of the range from a commit to a tip. -/
def commitsIn (point tip : κ) : Except String (List κ) :=
  view.ask (.commits point tip) (G.history.beyond [point] tip)

def changesNoContent (commit : κ) : Except String Bool :=
  view.ask (.noContent commit) (G.contentFree commit)

/-- `git::changed_paths`: a listing that came back empty is held to git's own count. -/
def changedPaths (first second : κ) : Except String (List Path) := do
  let paths ← view.ask (.changed first second) (readListing (G.diff first second))
  if paths ≠ [] then return paths
  else if paths.length = (G.diff first second).length then return paths
  else throw "which paths it changed could not be read whole"

/-- `git::differing_among`: a name matches itself and everything under it. -/
def differingAmong (first second : κ) (paths : List Path) : Except String (List Path) :=
  if paths = [] then .ok []
  else
    view.ask (.among first second) (readListing ((G.diff first second).filter fun path =>
      paths.any fun named => named.isPrefixOf path))

/-- Every commit of a list changes no content, stopping at the first that does. -/
def allFree : List κ → Except String Bool
  | [] => .ok true
  | commit :: rest => do
    if ← changesNoContent G view commit then allFree rest else return false

/-- The first of the landing points that covers the tip. -/
def coveringPoint (tip : κ) : List κ → Except String (Option κ)
  | [] => .ok none
  | point :: rest => do
    if ← knownToReach G view point tip then
      let after := (← commitsIn G view point tip).filter fun commit => commit ≠ point
      if ← allFree G view after then return some point else coveringPoint tip rest
    else coveringPoint tip rest

/-- The landing points of the landing this host recorded, where the base has it. -/
def recordedPoints (key : Text) (baseTip : κ) (evidence : Evidence κ) :
    Except String (List κ) :=
  match evidence.landing with
  | some landing => do
    if ← knownToReach G view landing.commit baseTip then
      match ← commitMessage G view landing.commit with
      | some message => return G.trailerValues message key
      | none => return []
    else return []
  | none => .ok []

def recordedLanding (key : Text) (tip baseTip : κ) (history : List Text)
    (evidence : Evidence κ) : Except String (Option (RetirementProof κ)) := do
  let recorded ← recordedPoints G view key baseTip evidence
  let points := history.flatMap (fun message => G.trailerValues message key) ++ recorded
  return (← coveringPoint G view tip points).map .recordedLanding

/-- The proof a merge the host reported gives a copy. -/
def mergedProof (contentTip : κ) (evidence : Evidence κ) :
    Except String (Option (RetirementProof κ)) :=
  match evidence.merged with
  | some merged => do
    if ← knownToReach G view contentTip merged.head then
      return some (.mergedChangeRequest merged.change merged.head)
    else return none
  | none => .ok none

/-- The paths a copy changed that differ from the base. -/
def differingPaths (fork : Option κ) (tip baseTip : κ) : Except String (List Path) :=
  match fork with
  | some fork => do
    let paths ← changedPaths G view fork tip
    differingAmong G view tip baseTip paths
  | none => changedPaths G view baseTip tip

/-- The messages of the base since the fork point. -/
def baseHistory (fork : Option κ) (baseTip : κ) : Except String (List Text) :=
  match fork with
  | some fork => logMessages G view fork baseTip
  | none => .ok []

def judgeCopy (key : Text) (tip baseTip : κ) (evidence : Evidence κ) :
    Except String (Judged κ) := do
  let fork ← mergeBase G view baseTip tip
  if fork = some tip then return Judged.standing
  else
    let (contentFree, contentTip) ← contentFreeTail G view tip fork
    let history ← baseHistory G view fork baseTip
    match ← mergedProof G view contentTip evidence with
    | some proof => return ⟨false, fork, contentFree, [], some proof⟩
    | none =>
      match ← recordedLanding G view key tip baseTip history evidence with
      | some proof => return ⟨false, fork, contentFree, [], some proof⟩
      | none =>
        let differing ← differingPaths G view fork tip baseTip
        return ⟨false, fork, contentFree, differing,
          if differing = [] then some (.contentIdentical baseTip) else none⟩

end Graph

end Onevcs.Retire
