import Mathlib.Data.List.Basic
import Onevcs.Foundations.Lines

/-!
# Assembling a stack base in a resumed session

`assemble`, `assemble_in` and `merge` of `stack_base.rs` over a session that is resumed, with
`resume` and `close` of `workspace.rs` as far as they move its branch and its worktree. What git,
the boundary and the origin answer at each point is given; a call names no branch twice, so a
merge's answers are given for the name it merges.

The worktree stands on the session's branch, and files git ignores are left out. A merge that ends
a call in an error leaves the tree as it was, or, where a hook refuses its commit, stands. A push
that is not accepted leaves the origin as it was.
-/

namespace Onevcs.Stack

open Foundations (Text)

variable {κ δ ε : Type}

/-- A commit there was, what a worktree held uncommitted, a base that was merged, and a name that
was merged at a head, as its trailer says. -/
inductive Commit (κ δ : Type)
  | given (commit : κ)
  | preserved (tip : Commit κ δ) (content : δ)
  | mergedBase (tip : Commit κ δ) (base : κ)
  | merged (tip : Commit κ δ) (name : Text) (head : κ)
  deriving DecidableEq

/-- Whether a commit reaches a head, where it is known which do. -/
def Commit.carries (reaches : κ → κ → Bool) (head : κ) : Commit κ δ → Bool
  | .given commit => reaches commit head
  | .preserved tip _ => tip.carries reaches head
  | .mergedBase tip base => tip.carries reaches head || reaches base head
  | .merged tip _ parent => tip.carries reaches head || reaches parent head

/-- Whether a head reaches a commit: none reaches one that was made since. -/
def Commit.isBehind (reaches : κ → κ → Bool) (head : κ) : Commit κ δ → Bool
  | .given commit => reaches head commit
  | _ => false

/-- What a worktree holds: nothing uncommitted, changes, or a merge in progress. -/
inductive Tree (κ δ : Type)
  | clean
  | dirty (content : δ)
  | merging (content : δ) (unmerged : List Text) (head : κ)
  deriving DecidableEq

/-- A session: its branch, its worktree where there is one, and the copy of the branch that the
execution checkout has. -/
structure Session (κ δ : Type) where
  tip : Commit κ δ
  tree : Option (Tree κ δ)
  copy : Option (Commit κ δ)
  deriving DecidableEq

/-- What is there after a call. A slot that is returned gives up its branch where it was copied. -/
structure Left (κ δ : Type) where
  clone : Option (Commit κ δ)
  tree : Option (Tree κ δ)
  copy : Option (Commit κ δ)

/-- A session that is kept open. -/
def Session.left (session : Session κ δ) : Left κ δ where
  clone := some session.tip
  tree := session.tree
  copy := session.copy

def Left.tip (left : Left κ δ) : Option (Commit κ δ) :=
  left.clone <|> left.copy

structure OpenConflict (κ δ : Type) where
  paths : List Text
  baseCommit : κ
  branchTip : Commit κ δ
  deriving DecidableEq

/-! ## The request and its answers -/

structure StackBaseRequest where
  branch : Text
  root : Text
  parents : List Text

/-- How git ends a merge: with its commit, in a conflict, or with an error over which the merge may
stand. -/
inductive Merging (δ ε : Type)
  | settled
  | conflicted (paths : List Text) (content : δ)
  | failed (failure : ε) (standing : Option δ)

/-- What becomes of the base as a session is resumed: the branch stays at its tip, or the base is
merged, which settles, stops on a conflict, or fails. -/
inductive BaseMerge (κ δ ε : Type)
  | left
  | merged (base : κ) (ended : Merging δ ε)

/-- The origin's answer to a push. -/
inductive Pushed (ε : Type)
  | accepted
  | declined (summary : ε)
  | failed (failure : ε)

/-- How a close goes: it is refused before it reads the tree, or hands the branch back, which the
checkout may not take, and then stops, or releases a run root or a slot. -/
inductive Closing (ε : Type)
  | refused (failure : ε)
  | stopped (copied : Bool) (failure : ε)
  | removed (copied : Bool)
  | returned (copied : Bool)

/-- What a call is answered, point by point; a failure stands where there is one. -/
structure Answers (κ δ ε : Type) where
  -- of the commits there were, which the first reaches
  reaches : κ → κ → Bool
  reaches_self : ∀ commit, reaches commit commit = true
  -- `open`: the failures of an adoption and of what follows it
  adopts : Option ε
  opens : Option ε
  baseMerge : BaseMerge κ δ ε
  -- what git says of a merge over one that is not concluded
  unconcluded : ε
  -- the origin's branches as the execution checkout has them, the root's read again for the merges
  heads : Text → Option κ
  root : Option κ
  mergeInProgress : Option ε
  headAtStart : Option ε
  -- the merge of each name
  isAncestor : Text → Option ε
  headSha : Text → Option ε
  merge : Text → Merging δ ε
  headAtEnd : Option ε
  onOrigin : Option (Commit κ δ)
  behind : Option ε
  -- `push`
  guardPublication : Option ε
  push : Pushed ε
  -- what follows the work
  resetHard : Option ε
  close : Closing ε

inductive StackBaseOutcome (κ δ : Type)
  | created
  | advanced
  | unchanged
  | conflicted (conflict : OpenConflict κ δ)
  deriving DecidableEq

/-- `StackBase`, with the heads its parents were read at. -/
structure StackBase (κ δ : Type) where
  branch : Text
  head : Commit κ δ
  parents : List (Text × κ)
  outcome : StackBaseOutcome κ δ
  deriving DecidableEq

/-- Why an assembly fails. -/
inductive Failure (ε : Type)
  | failed (failure : ε)
  | notOnOrigin (name : Text)
  -- the session holds a merge with every conflict staged and nothing committed
  | syncConflict
  | boundary (failure : ε)
  | pushRejected (summary : ε)
  deriving DecidableEq

/-- `preserve_into`: changes in the worktree are committed, and the branch is copied. -/
def preserve (session : Session κ δ) : Session κ δ :=
  match session.tree with
  | some (.dirty content) =>
    let tip := session.tip.preserved content
    { tip, tree := some .clean, copy := some tip }
  | _ => session

/-- `adopt_with`, under `OnMerge::Keep`: a worktree that is gone is put back, and what one holds
uncommitted is committed, apart from a merge in progress. -/
def adopt (session : Session κ δ) : Session κ δ :=
  match session.tree with
  | none => { session with tree := some .clean }
  | some _ => preserve session

/-- `merge_leaving_conflict` of a base: git fast-forwards a branch that the base reaches. -/
def integrate (answers : Answers κ δ ε) (session : Session κ δ) (base : κ) :
    Merging δ ε → Session κ δ × Except (Failure ε) (Option (OpenConflict κ δ))
  | .settled =>
    let tip :=
      if session.tip.carries answers.reaches base then session.tip
      else if session.tip.isBehind answers.reaches base then .given base
      else session.tip.mergedBase base
    ({ session with tip }, .ok none)
  | .conflicted paths content =>
    ({ session with tree := some (.merging content paths base) },
      .ok (some ⟨paths, base, session.tip⟩))
  | .failed failure standing =>
    ({ session with
        tree := standing.elim session.tree fun content => some (.merging content [] base) },
      .error (.failed failure))

/-- `resume`: the session, and the conflict it is handed over with. It does not ask whether the
opening is to leave the base alone. Git refuses to merge over a merge in progress. -/
def resume (answers : Answers κ δ ε) (session : Session κ δ) :
    Session κ δ × Except (Failure ε) (Option (OpenConflict κ δ)) :=
  match answers.adopts with
  | some failure => (session, .error (.failed failure))
  | none =>
    let session := adopt session
    match answers.opens with
    | some failure => (session, .error (.failed failure))
    | none =>
      match session.tree, answers.baseMerge with
      | some (.merging _ [] _), .left => (session, .ok none)
      | some (.merging _ [] _), .merged _ _ => (session, .error (.failed answers.unconcluded))
      | some (.merging _ unmerged head), _ => (session, .ok (some ⟨unmerged, head, session.tip⟩))
      | _, .left => (session, .ok none)
      | _, .merged base ended => integrate answers session base ended

/-! ## The assembly -/

/-- `merge`: a name at a head, unless the branch already carries it. -/
def merge (answers : Answers κ δ ε) (session : Session κ δ) (name : Text) (head : κ) :
    Session κ δ × Except (Failure ε) (Option (OpenConflict κ δ)) :=
  match answers.isAncestor name with
  | some failure => (session, .error (.failed failure))
  | none =>
    if session.tip.carries answers.reaches head then (session, .ok none)
    else
      match answers.headSha name with
      | some failure => (session, .error (.failed failure))
      | none =>
        match answers.merge name with
        | .settled => ({ session with tip := session.tip.merged name head }, .ok none)
        | .conflicted paths content =>
          ({ session with tree := some (.merging content paths head) },
            .ok (some ⟨paths, head, session.tip⟩))
        | .failed failure standing =>
          ({ session with
              tree := standing.elim session.tree fun content => some (.merging content [] head) },
            .error (.failed failure))

/-- The merges of a call, in order, to the first that stops. -/
def mergeAll (answers : Answers κ δ ε) :
    Session κ δ → List (Text × κ) → Session κ δ × Except (Failure ε) (Option (OpenConflict κ δ))
  | session, [] => (session, .ok none)
  | session, (name, head) :: rest =>
    match merge answers session name head with
    | (session, .ok none) => mergeAll answers session rest
    | stopped => stopped

/-- `push`: the branch is held to the boundary, and goes forward or nowhere. -/
def push (answers : Answers κ δ ε) : Except (Failure ε) Unit :=
  match answers.guardPublication with
  | some failure => .error (.boundary failure)
  | none =>
    match answers.push with
    | .accepted => .ok ()
    | .declined summary => .error (.pushRejected summary)
    | .failed failure => .error (.failed failure)

/-- The heads of the parents, as the origin is known to have them. -/
def readHeads (answers : Answers κ δ ε) : List Text → Except (Failure ε) (List (Text × κ))
  | [] => .ok []
  | parent :: rest => do
    let some head := answers.heads parent | .error (.notOnOrigin parent)
    let heads ← readHeads answers rest
    .ok ((parent, head) :: heads)

/-- What becomes of the session of an assembly that failed, and where its branch is put back at
once the call began to merge. -/
structure Failed (κ δ ε : Type) where
  error : Failure ε
  keep : Bool
  rewind : Option (Commit κ δ)

variable [DecidableEq κ] [DecidableEq δ]

/-- The answer for a merge left in progress. -/
def conflicted (request : StackBaseRequest) (parents : List (Text × κ))
    (conflict : OpenConflict κ δ) : StackBase κ δ where
  branch := request.branch
  head := conflict.branchTip
  parents
  outcome := .conflicted conflict

/-- What `assemble_in` does once its merges ended: a failure from where the branch was found puts it
back there, and a branch that is not on its origin as it stands is pushed. -/
def pushMerged (answers : Answers κ δ ε) (request : StackBaseRequest) (heads : List (Text × κ))
    (start : Commit κ δ) (root : κ) :
    Session κ δ × Except (Failure ε) (Option (OpenConflict κ δ)) →
      Session κ δ × Except (Failed κ δ ε) (StackBase κ δ)
  | (session, .error error) => (session, .error ⟨error, false, some start⟩)
  | (session, .ok (some conflict)) => (session, .ok (conflicted request heads conflict))
  | (session, .ok none) =>
    let undo (error : Failure ε) : Except (Failed κ δ ε) (StackBase κ δ) :=
      .error ⟨error, false, some start⟩
    let assembled (outcome : StackBaseOutcome κ δ) : StackBase κ δ :=
      { branch := request.branch, head := session.tip, parents := heads, outcome }
    match answers.headAtEnd with
    | some failure => (session, undo (.failed failure))
    | none =>
      match answers.onOrigin, answers.behind with
      | none, some failure => (session, undo (.failed failure))
      | onOrigin, _ =>
        if onOrigin = some session.tip then (session, .ok (assembled .unchanged))
        else
          match push answers with
          | .error error => (session, undo error)
          | .ok () =>
            -- a resumed branch was not cut, so it is absent only where the root reaches it
            let absent := onOrigin.isNone && start.isBehind answers.reaches root
            (session, .ok (assembled (if absent then .created else .advanced)))

/-- Everything after the session is open. -/
def assembleIn (answers : Answers κ δ ε) (request : StackBaseRequest) (session : Session κ δ)
    (conflict : Option (OpenConflict κ δ)) :
    Session κ δ × Except (Failed κ δ ε) (StackBase κ δ) :=
  let fail (error : Failure ε) : Except (Failed κ δ ε) (StackBase κ δ) := .error ⟨error, false, none⟩
  match readHeads answers request.parents with
  | .error error => (session, fail error)
  | .ok heads =>
    -- a session that is resumed may still be part way through the merge it was left
    match conflict with
    | some conflict => (session, .ok (conflicted request heads conflict))
    | none =>
      match answers.mergeInProgress, session.tree with
      | some failure, _ => (session, fail (.failed failure))
      | none, some (.merging _ _ _) => (session, .error ⟨.syncConflict, true, none⟩)
      | none, _ =>
        match answers.headAtStart with
        | some failure => (session, fail (.failed failure))
        | none =>
          match answers.root with
          | none => (session, fail (.notOnOrigin request.root))
          | some root =>
            pushMerged answers request heads session.tip root
              (mergeAll answers session ((request.root, root) :: heads))

/-- `abort_merge`: the merge a worktree holds in progress is ended, and what nobody committed of it
is discarded. -/
def abortMerge (session : Session κ δ) : Session κ δ :=
  match session.tree with
  | some (.merging _ _ _) => { session with tree := some .clean }
  | _ => session

/-- `close`: a merge in progress is let go, what else the tree holds is committed, the branch is
handed back, and the tree is released. -/
def close (session : Session κ δ) (closing : Closing ε) : Left κ δ :=
  let released := preserve (abortMerge session)
  let copy (copied : Bool) := if copied then some released.tip else released.copy
  match closing with
  | .refused _ => session.left
  | .stopped copied _ =>
    { clone := some released.tip, tree := released.tree, copy := copy copied }
  | .removed copied => { clone := some released.tip, tree := none, copy := copy copied }
  | .returned copied =>
    { clone := if copied then none else some released.tip, tree := none, copy := copy copied }

/-- What a failed assembly leaves: its branch put back where it was before the merges, and its
session let go unless it holds a resolution. -/
def putBack (answers : Answers κ δ ε) (session : Session κ δ) (failed : Failed κ δ ε) : Left κ δ :=
  let session :=
    match failed.rewind with
    | none => session
    | some start =>
      let session := abortMerge session
      if answers.resetHard.isNone then { session with tip := start, tree := some .clean }
      else session
  if failed.keep then session.left else close session answers.close

structure After (κ δ : Type) where
  session : Left κ δ
  origin : Option (Commit κ δ)
  records : List (StackBase κ δ)

/-- The call, from the session it resumes. -/
def assemble (answers : Answers κ δ ε) (request : StackBaseRequest) (found : Session κ δ)
    (origin : Option (Commit κ δ)) (records : List (StackBase κ δ)) :
    After κ δ × Except (Failure ε) (StackBase κ δ) :=
  match resume answers found with
  | (session, .error error) => (⟨session.left, origin, records⟩, .error error)
  | (session, .ok conflict) =>
    match assembleIn answers request session conflict with
    | (session, .ok assembled) =>
      let records := records ++ [assembled]
      match assembled.outcome with
      | .conflicted _ => (⟨session.left, origin, records⟩, .ok assembled)
      | .unchanged => (⟨close session answers.close, origin, records⟩, .ok assembled)
      | .created | .advanced =>
        (⟨close session answers.close, some assembled.head, records⟩, .ok assembled)
    | (session, .error failed) =>
      (⟨putBack answers session failed, origin, records⟩, .error failed.error)

end Onevcs.Stack
