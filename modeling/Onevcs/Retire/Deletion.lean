import Onevcs.Foundations.Transition
import Onevcs.Retire.Classes
import Mathlib.Logic.Function.Basic

/-!
# Deleting a classified branch

`act` of `retire.rs` with `Census::delete`, beside other processes that move, delete and
add copies of the branch between any two of its steps.

A step of the model is one classification, one read of one place, one compare-and-delete,
one push under a lease, one read of a copy whose deletion was refused, or one write that
puts a copy back. What came of it is in the label: a read that failed, a place that could
not be entered, a write git refused. The deletions and the push are atomic: they take the
ref away at the tip they name, or leave it alone.

An `Attempt` is history: what one turn of the loop classified, read again, deleted, found
and put back.
-/

namespace Onevcs.Retire

open Foundations (System)

/-- A classification and the copies it was made from. -/
structure Classified (κ : Type) where
  retirement : Retirement κ
  copies : Copies κ

/-- The places a deletion reached, each with the tip to put back where it took one away,
and the ones it did not. -/
structure Work (κ : Type) where
  deleted : List (Holding × Option κ)
  failed : List (Holding × String)

/-- What `act` answers; the closing of the sessions that comes after a deletion is left
out. -/
inductive Answer (κ : Type)
  | kept (retirement : Retirement κ)
  | wouldRetire (retirement : Retirement κ) (deleted : List BranchHolder)
  | deleted (retirement : Retirement κ) (work : Work κ)

/-- Where `act` stands; `attempts` counts the attempts a moved copy ended. -/
inductive Phase (κ : Type)
  | classifying (attempts : Nat) (copies : Copies κ)
  | rereading (attempts : Nat) (classified : Classified κ) (left : List Holding) (now : Copies κ)
  | deleting (attempts : Nat) (classified : Classified κ) (left : List (Copy κ)) (work : Work κ)
  | probing (attempts : Nat) (classified : Classified κ) (copy : Copy κ) (left : List (Copy κ))
      (work : Work κ) (refusal : String)
  | leasing (attempts : Nat) (classified : Classified κ) (tip : κ) (work : Work κ)
  | asking (attempts : Nat) (classified : Classified κ) (tip : κ) (work : Work κ)
      (refusal : String)
  | restoring (attempts : Nat) (classified : Classified κ) (left : List (Holding × Option κ))
  | reading (attempts : Nat) (left : List Holding) (read : Copies κ)
  | answered (answer : Answer κ)

/-- What became of putting a copy back. -/
inductive Restored (κ : Type)
  | back
  | taken (now : κ)
  | refused
  deriving DecidableEq

/-- One turn of the loop, as it happened. -/
structure Attempt (κ : Type) where
  classified : Classified κ
  reread : Option (Copies κ)
  deletions : List (Copy κ)
  -- copies found at another tip, and copies that could not be read, by then
  found : List (Copy κ)
  unread : List Holding
  restores : List (Copy κ × Restored κ)
  moved : Bool

/-- The refs of the branch, where `act` stands, and its attempts, the newest first. -/
structure World (κ : Type) where
  refs : Holding → Option κ
  phase : Phase κ
  attempts : List (Attempt κ)

/-- What is retired, and how. -/
structure Setting (κ : Type) where
  census : Census κ
  branch : String
  acting : Acting
  dryRun : Bool

/-- A step of `act`, or another process setting the branch somewhere. -/
inductive Label (κ : Type)
  | move (holding : Holding) (tip : Option κ)
  | classify (fresh : FreshReads) (verdict : Retirement κ) (reached : Reached)
  | read (failure : Option String)
  | proceed
  | block (why : String)
  | delete (granted : Bool) (said : String)
  | probe (failure : Option String)
  | restore (granted : Bool)

/-- The step is one of `act`. -/
def Label.own {κ : Type} : Label κ → Bool
  | .move _ _ => false
  | _ => true

def reclassifications : Nat := 3

section Steps

variable {κ : Type} [DecidableEq κ] (setting : Setting κ)

/-- The places a read of the copies asks, in search order. -/
def Census.holdings (census : Census κ) : List Holding :=
  (List.range census.places.length).map .place ++
    if census.origin.isSome then [.origin] else []

/-- A read of the copies before it asked any place. -/
def Census.unasked (census : Census κ) : Copies κ := ⟨[], census.unlisted⟩

/-- One place of `Census::copies_read`: its copy, or why it could not be read. -/
def Copies.readPlace (copies : Copies κ) (census : Census κ) (holding : Holding)
    (tip : Option κ) : Option String → Copies κ
  | some said =>
    { copies with
      unreadable := copies.unreadable ++ [⟨"copy", (census.holder holding).location, said⟩] }
  | none => { copies with copies := copies.copies ++ (tip.map fun tip => ⟨holding, tip⟩).toList }

/-- The local copies, in the order they are deleted. -/
def Copies.locals (copies : Copies κ) : List (Copy κ) :=
  copies.copies.filter fun copy => copy.holding != .origin

def Copies.onOrigin (copies : Copies κ) : Option (Copy κ) :=
  copies.copies.find? fun copy => copy.holding = .origin

/-- What is answered for a branch that moved under every attempt. -/
def Retirement.movedAway (retirement : Retirement κ) (branch : String) : Retirement κ :=
  { retirement with
    retirementClass := .keep
    reason := some .unknown
    cause := some ⟨"copy", branch,
      "a copy of it moved on each of 3 reads made immediately before deleting it"⟩
    proof := none
    supersededBy := none
    differingPaths := [] }

/-- The copies to delete, or the origin's, or the end of the deletion. -/
def Classified.beyondLocals (classified : Classified κ) (attempts : Nat) (work : Work κ) :
    Phase κ :=
  match classified.copies.onOrigin with
  | some copy => .leasing attempts classified copy.tip work
  | none => .answered (.deleted classified.retirement work)

namespace World

def goto (s : World κ) (phase : Phase κ) : World κ := { s with phase := phase }

/-- The branch is set somewhere, or taken away. -/
def setRef (s : World κ) (holding : Holding) (tip : Option κ) : World κ :=
  { s with refs := Function.update s.refs holding tip }

/-- Write in the history of the attempt. -/
def note (s : World κ) (change : Attempt κ → Attempt κ) : World κ :=
  { s with attempts := s.attempts.modifyHead change }

/-- A copy moved under the attempt: classify from where the copies stand now, or give up. -/
def again (s : World κ) (attempts : Nat) (classified : Classified κ) : World κ :=
  (s.note fun attempt => { attempt with moved := true }).goto <|
    if reclassifications ≤ attempts + 1 then
      .answered (.kept (classified.retirement.movedAway setting.branch))
    else .reading (attempts + 1) setting.census.holdings setting.census.unasked

def step (s : World κ) : Label κ → Option (World κ)
  | .move holding tip => some (s.setRef holding tip)
  | label =>
    match s.phase, label with
    | .classifying attempts copies, .classify fresh verdict reached =>
      let retirement := Retire.classify setting.census setting.branch copies fresh verdict
        reached
      let classified : Classified κ := ⟨retirement, copies⟩
      let s := { s with attempts := ⟨classified, none, [], [], [], [], false⟩ :: s.attempts }
      if !setting.acting.permits retirement.retirementClass retirement.reason then
        some (s.goto (.answered (.kept retirement)))
      else if setting.dryRun then
        some (s.goto (.answered (.wouldRetire retirement (setting.census.holdersOf copies))))
      else
        some (s.goto (.rereading attempts classified setting.census.holdings
          setting.census.unasked))
    | .rereading attempts classified (holding :: left) now, .read failure =>
      some (s.goto (.rereading attempts classified left
        (now.readPlace setting.census holding (s.refs holding) failure)))
    | .rereading attempts classified [] now, .proceed =>
      let s := s.note fun attempt => { attempt with reread := some now }
      if now = classified.copies then
        some (s.goto (.deleting attempts classified classified.copies.locals ⟨[], []⟩))
      else some (s.again setting attempts classified)
    | .deleting attempts classified (copy :: left) work, .block why =>
      some (s.goto (.deleting attempts classified left
        { work with failed := work.failed ++ [(copy.holding, why)] }))
    | .deleting attempts classified (copy :: left) work, .delete granted said =>
      -- compare-and-delete: at the tip that was classified, or not at all
      if granted ∧ s.refs copy.holding = some copy.tip then
        some (((s.setRef copy.holding none).note fun attempt =>
            { attempt with deletions := attempt.deletions ++ [copy] }).goto
          (.deleting attempts classified left
            { work with deleted := work.deleted ++ [(copy.holding, some copy.tip)] }))
      else some (s.goto (.probing attempts classified copy left work said))
    | .deleting attempts classified [] work, .proceed =>
      some (s.goto (classified.beyondLocals attempts work))
    | .probing attempts classified copy left work refusal, .probe failure =>
      match failure, s.refs copy.holding with
      | some _, _ =>
        some ((s.note fun attempt =>
            { attempt with unread := attempt.unread ++ [copy.holding] }).goto
          (.deleting attempts classified left
            { work with failed := work.failed ++ [(copy.holding, refusal)] }))
      | none, none =>
        -- another process deleted it: there is nothing of this attempt's to put back
        some (s.goto (.deleting attempts classified left
          { work with deleted := work.deleted ++ [(copy.holding, none)] }))
      | none, some now =>
        if now = copy.tip then
          some (s.goto (.deleting attempts classified left
            { work with failed := work.failed ++ [(copy.holding, refusal)] }))
        else
          some ((s.note fun attempt =>
              { attempt with found := attempt.found ++ [⟨copy.holding, now⟩] }).goto
            (.restoring attempts classified work.deleted))
    | .leasing attempts classified tip work, .delete granted said =>
      if granted ∧ s.refs .origin = some tip then
        some (((s.setRef .origin none).note fun attempt =>
            { attempt with deletions := attempt.deletions ++ [⟨.origin, tip⟩] }).goto
          (.answered (.deleted classified.retirement
            { work with deleted := work.deleted ++ [(.origin, none)] })))
      else some (s.goto (.asking attempts classified tip work said))
    | .asking attempts classified tip work refusal, .probe failure =>
      match failure, s.refs .origin with
      | some _, _ =>
        some ((s.note fun attempt =>
            { attempt with unread := attempt.unread ++ [.origin] }).goto
          (.answered (.deleted classified.retirement
            { work with failed := work.failed ++ [(.origin, refusal)] })))
      | none, none =>
        some (s.goto (.answered (.deleted classified.retirement
          { work with deleted := work.deleted ++ [(.origin, none)] })))
      | none, some now =>
        if now = tip then
          some (s.goto (.answered (.deleted classified.retirement
            { work with failed := work.failed ++ [(.origin, refusal)] })))
        else
          some ((s.note fun attempt =>
              { attempt with found := attempt.found ++ [⟨.origin, now⟩] }).goto
            (.restoring attempts classified work.deleted))
    | .restoring attempts classified ((_, none) :: left), .proceed =>
      some (s.goto (.restoring attempts classified left))
    | .restoring attempts classified ((holding, some tip) :: left), .restore granted =>
      -- put back only where nothing has created it since
      match s.refs holding with
      | some now =>
        some ((s.note fun attempt =>
            { attempt with restores := attempt.restores ++ [(⟨holding, tip⟩, .taken now)] }).goto
          (.restoring attempts classified left))
      | none =>
        if granted then
          some (((s.setRef holding (some tip)).note fun attempt =>
              { attempt with restores := attempt.restores ++ [(⟨holding, tip⟩, .back)] }).goto
            (.restoring attempts classified left))
        else
          some ((s.note fun attempt =>
              { attempt with restores := attempt.restores ++ [(⟨holding, tip⟩, .refused)] }).goto
            (.restoring attempts classified left))
    | .restoring attempts classified [], .proceed => some (s.again setting attempts classified)
    | .reading attempts (holding :: left) read, .read failure =>
      some (s.goto (.reading attempts left
        (read.readPlace setting.census holding (s.refs holding) failure)))
    | .reading attempts [] read, .proceed => some (s.goto (.classifying attempts read))
    | _, _ => none

end World

/-- Every way `act` can run beside the other processes, from any refs and any listing of
the copies. -/
def retiring : System (World κ) (Label κ) where
  Initial s := (∃ copies, s.phase = .classifying 0 copies) ∧ s.attempts = []
  step := World.step setting

end Steps

end Onevcs.Retire
