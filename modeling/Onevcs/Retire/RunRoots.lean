import Onevcs.Foundations.History

/-!
# Removing run roots

The two removals of a run root that are decided by what its clone has not published:
the walk `reclaim` of `workspace.rs`, and `remove_run_root` of `retire.rs`, over
`unpublished_branches` and `unpublished_ahead` of `git.rs`.

A clone is its local branches, the `HEAD` of each of its worktrees and its
remote-tracking refs of `origin`, over a history of commits. Beside it stands what became
of each read made of it: whether the repository test answered, whether the listing did,
and how git answered each count.
-/

namespace Onevcs.Retire

open Foundations (History)

/-- What the `HEAD` of a worktree is. -/
inductive Head (κ : Type)
  | branch (name : String)
  | detached (commit : κ)

/-- A clone: local branches, worktrees, and the tips under `refs/remotes/origin`. -/
structure Clone (κ : Type) where
  heads : List (String × κ)
  worktrees : List (Head κ)
  originTips : List κ

/-- How git answered a count it was asked for. -/
inductive Counting
  | counted
  -- declined, and the reference that was counted from is found
  | declined
  -- declined, and the reference is not found any more
  | gone
  -- not run, or answered with what is not a number
  | unread
  deriving DecidableEq

/-- What became of the reads made of a clone. -/
structure Reads (κ : Type) where
  repository : Bool
  listing : Bool
  counting : κ → Counting
  resolves : κ → Bool

/-- Why `unpublished_branches` has no answer. -/
inductive Unread (κ : Type)
  | listing
  | uncounted (reference : κ)
  | notANumber (reference : κ)

/-- A run root, and what became of the reads of its clone; `clone` is `none` where no
repository is there. -/
structure RunRoot (κ : Type) where
  clone : Option (Clone κ)
  reads : Reads κ

section Reading

variable {κ : Type} [DecidableEq κ] (H : History κ)

/-- The commit the `HEAD` of a worktree stands on; none on a branch not born yet. -/
def Clone.headCommit (clone : Clone κ) : Head κ → Option κ
  | .branch name => clone.heads.lookup name
  | .detached commit => some commit

/-- The tips of the local branches and the `HEAD`s of the worktrees. -/
def Clone.localTips (clone : Clone κ) : List κ :=
  clone.heads.map Prod.snd ++ clone.worktrees.filterMap clone.headCommit

/-- `git::is_repo`: a command that failed says no. -/
def isRepo (root : RunRoot κ) : Bool := root.clone.isSome && root.reads.repository

/-- `git::unpublished_ahead`, of a reference that is a commit. -/
def unpublishedAhead (clone : Clone κ) (reads : Reads κ) (reference : κ) (carried : List κ) :
    Except (Unread κ) Nat :=
  let held := carried.filter reads.resolves
  match reads.counting reference with
  | .counted => .ok (H.beyond (clone.originTips ++ held) reference).length
  | .gone => .ok 0
  | .declined => .error (.uncounted reference)
  | .unread => .error (.notANumber reference)

/-- The loop of `git::unpublished_branches_among` over the branches listed. -/
def unpublishedAmong (clone : Clone κ) (reads : Reads κ) (keep : String → Bool)
    (listedAnyway : List String) (basedOn : String → Option String) :
    List (String × κ) → Except (Unread κ) (List (String × κ))
  | [] => .ok []
  | (branch, tip) :: rest => do
    let others := unpublishedAmong clone reads keep listedAnyway basedOn rest
    if !keep branch then others
    else if branch ∈ listedAnyway then return (branch, tip) :: (← others)
    else if tip ∈ clone.originTips then others
    else
      let base := (basedOn branch).bind fun base => clone.heads.lookup base
      if base = some tip then others
      else
        let ahead ← unpublishedAhead H clone reads tip base.toList
        if 0 < ahead then return (branch, tip) :: (← others) else others

def unpublishedBranchesAmong (clone : Clone κ) (reads : Reads κ) (keep : String → Bool)
    (listedAnyway : List String) (basedOn : String → Option String) :
    Except (Unread κ) (List (String × κ)) :=
  if reads.listing then
    unpublishedAmong H clone reads keep listedAnyway basedOn clone.heads
  else .error .listing

def unpublishedBranches (clone : Clone κ) (reads : Reads κ) :
    Except (Unread κ) (List String) :=
  (unpublishedBranchesAmong H clone reads (fun _ => true) [] fun _ => none).map
    (List.map Prod.fst)

/-- The branches either removal finds unpublished: a listing that failed is one of no
branches to both, and so is a directory that is no repository. -/
def RunRoot.unpublished (root : RunRoot κ) : List String :=
  match root.clone with
  | some clone =>
    if isRepo root then (unpublishedBranches H clone root.reads).toOption.getD [] else []
  | none => []

end Reading

/-! ## The two removals -/

/-- Why `remove_run_root` failed. -/
inductive Refusal
  | processInside
  | commandInside
  | leaseUnread
  | notRemoved
  deriving DecidableEq

/-- What `remove_run_root` meets besides the clone: the processes found working in the
run root, its occupancy lease, and whether the directory could be removed. -/
structure Gates where
  holding : List Nat
  exclusive : Option Bool
  removable : Bool

/-- What a walk meets at one entry of `runs/`: its reads of everything but the clone, and
when the run root was written. `none` is a failure that ends the walk. -/
structure Entry (κ : Type) where
  root : RunRoot κ
  isDir : Bool
  openAtSnapshot : Bool
  probed : Option Bool
  abandoned : Option Bool
  written : Nat

/-- What a walk made of the entries it met. -/
structure Walked (κ : Type) where
  removed : List (Entry κ)
  holdingWork : List (Entry κ)
  stopped : Bool

/-- What a walk did: the run roots it removed for holding no unpublished work, those it
removed past its retention bound, and those it kept. -/
structure Reclaimed (κ : Type) where
  removed : List (Entry κ)
  overBound : List (Entry κ)
  retained : List (Entry κ)

def retainedDeadRuns : Nat := 3

section Removals

variable {κ : Type} [DecidableEq κ] (H : History κ)

def removeRunRoot (gates : Gates) (root : RunRoot κ) : Except Refusal Bool :=
  if !gates.holding.isEmpty then .error .processInside
  else
    match gates.exclusive with
    | none => .error .leaseUnread
    | some false => .error .commandInside
    | some true =>
      if isRepo root && !(root.unpublished H).isEmpty then .ok false
      else if gates.removable then .ok true
      else .error .notRemoved

/-- The removal was made, or stopped part way. -/
def removing : Except Refusal Bool → Bool
  | .ok removed => removed
  | .error refusal => refusal = .notRemoved

/-- The entry is a run root that no open session named and that nobody reads. -/
def Entry.free (entry : Entry κ) : Bool :=
  entry.isDir && !entry.openAtSnapshot && entry.probed = some true

/-- A failure at this entry ends the walk. -/
def Entry.stops (entry : Entry κ) : Bool :=
  entry.isDir && !entry.openAtSnapshot &&
    (entry.probed = none || (entry.probed = some true && entry.abandoned = none))

/-- The loop of `reclaim`. -/
def walkEntries : List (Entry κ) → Walked κ
  | [] => ⟨[], [], false⟩
  | entry :: rest =>
    if !entry.isDir || entry.openAtSnapshot then walkEntries rest
    else
      match entry.probed with
      | none => ⟨[], [], true⟩
      | some false => walkEntries rest
      | some true =>
        match entry.abandoned with
        | none => ⟨[], [], true⟩
        | some false => walkEntries rest
        | some true =>
          let walked := walkEntries rest
          if (entry.root.unpublished H).isEmpty then
            { walked with removed := entry :: walked.removed }
          else { walked with holdingWork := entry :: walked.holdingWork }

/-- `reclaim`: what holds work is kept newest first up to the bound. -/
def reclaim (entries : List (Entry κ)) : Reclaimed κ :=
  let walked := walkEntries H entries
  let newestFirst := walked.holdingWork.mergeSort fun a b => decide (b.written ≤ a.written)
  if walked.stopped then ⟨walked.removed, [], walked.holdingWork⟩
  else ⟨walked.removed, newestFirst.drop retainedDeadRuns, newestFirst.take retainedDeadRuns⟩

end Removals

end Onevcs.Retire
