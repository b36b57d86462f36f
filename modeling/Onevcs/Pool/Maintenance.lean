import Mathlib.Data.List.Basic
import Mathlib.Logic.Function.Basic
import Onevcs.Foundations.Transition

/-!
# Maintenance beside whatever else surveys a pool

`survey` and `state_of` of `pool.rs`, `claim`, `maintain_slot` and the pass over the slots of
`pool/maintain.rs`, on the slots of one identity.

A placement, a prune and a maintenance run survey under the pool's lock; a report
(`pool_status`, `workspace_capacity`) surveys with none. Each of them clears a claim it finds
void, by writing back the record that it read. A maintenance run claims one slot at a time:
it takes the pool's lock, reads the slot's state, takes the slot's lease, writes its claim,
lets the pool's lock go, and holds the lease until the outcome is written.

A step is one record read, one written, one look at a slot, or one lock taken or let go. A
process stands here for a process id with its creation identity, and is running while
`process_started` answers that. What is carried along besides (`owed`) are the claims that were
written and whose outcomes are still to be.
-/

namespace Onevcs.Pool.Maintenance

open Foundations (System)

/-- `MaintenanceOutcome`. -/
inductive Outcome
  | succeeded
  | failed (exit : Option Int)
  | timedOut
  deriving DecidableEq

structure Claim (π : Type) where
  owner : π
  since : ℕ
  deriving DecidableEq

/-- `slot.json`, where it reads as the record of its slot. -/
structure SlotRecord (κ π : Type) where
  executionCheckout : κ
  created : ℕ
  maintaining : Option (Claim π)
  lastMaintained : Option ℕ
  lastOutcome : Option Outcome
  deriving DecidableEq

/-- A slot's directory: its record, whether the clone is being torn down, and whether the
clone and the worktree are repositories. -/
structure Slot (κ π : Type) where
  record : Option (SlotRecord κ π)
  closing : Bool
  clone : Bool
  worktree : Bool
  deriving DecidableEq

inductive SlotState (τ π : Type)
  | broken
  | inUse (session : τ)
  | maintaining (claim : Claim π)
  | idle
  deriving DecidableEq

/-- `Surveyed`: a slot as it was found. -/
structure Surveyed (τ κ π : Type) where
  number : ℕ
  record : Option (SlotRecord κ π)
  state : SlotState τ π
  deriving DecidableEq

/-- What a survey is for. -/
inductive Job
  -- `pool_status` and `workspace_capacity`, with no lock
  | report
  -- `place`, `pool_prune` and `return_slot`
  | place
  -- the pass of a maintenance run over the pool
  | maintain
  -- `claim` of one slot, and the slots the run goes on to
  | claim (rest : List ℕ)
  deriving DecidableEq

/-- The pool's lock is held for the survey. -/
def Job.locks : Job → Bool
  | .report => false
  | _ => true

/-- Where a survey stands: the sessions that were open as it began, the slots still to look
at, and those it found. -/
structure Survey (τ κ π : Type) where
  job : Job
  opened : List (τ × ℕ)
  numbers : List ℕ
  found : List (Surveyed τ κ π)
  deriving DecidableEq

/-- Where a process stands. -/
inductive Phase (τ κ π : Type)
  | idle
  | surveying (survey : Survey τ κ π)
  -- the record of a slot is read
  | looked (survey : Survey τ κ π) (number : ℕ) (record : Option (SlotRecord κ π))
  -- its claim is void, and about to be cleared
  | void (survey : Survey τ κ π) (number : ℕ) (record : SlotRecord κ π)
  -- the survey is acted on, under the pool's lock
  | surveyed (job : Job) (found : List (Surveyed τ κ π))
  -- holding a slot alone, to recreate or remove it
  | inside (job : Job) (found : List (Surveyed τ κ π)) (slot : Surveyed τ κ π)
  -- a maintenance run between two slots
  | queue (numbers : List ℕ)
  -- holding a slot alone, about to claim it
  | holding (number : ℕ) (record : SlotRecord κ π) (rest : List ℕ)
  -- the claim is written; the command runs
  | maintaining (number : ℕ) (record : SlotRecord κ π) (rest : List ℕ)
  deriving DecidableEq

/-- The slots, the sessions placed on them and open, the pool's lock, the leases that are
held alone, and the processes. -/
structure World (τ κ π : Type) where
  slots : ℕ → Option (Slot κ π)
  opened : List (τ × ℕ)
  serial : Option π
  lease : ℕ → Option π
  running : π → Bool
  process : π → Phase τ κ π
  owed : List (ℕ × Claim π)

/-- What a process does next. -/
inductive Act (κ : Type)
  | begin (job : Job) (numbers : List ℕ)
  | look
  | judge
  | clear (written : Bool)
  | done
  | lease (number : ℕ) (granted : Bool)
  -- `cut_new`: a directory that was not there
  | cut (number : ℕ)
  -- `write_record` of a `fresh_record`
  | rewrite (executionCheckout : κ) (created : ℕ)
  | remove
  | leave
  -- the slot is not due, is in use or occupied; or the placement or the survey is through
  | giveUp
  | claim (since : ℕ) (written : Bool)
  | outcome (now : ℕ) (outcome : Outcome) (written : Bool)
  deriving DecidableEq

/-- A step of a pool. -/
inductive Label (τ κ π : Type)
  | act (p : π) (act : Act κ)
  | die (p : π)
  | sessions (opened : List (τ × ℕ))
  -- what is in a slot besides its record
  | turn (number : ℕ) (closing clone worktree : Bool)

section Reading

variable {τ κ π : Type}

def holder (opened : List (τ × ℕ)) (number : ℕ) : Option τ :=
  (opened.find? fun entry => entry.2 = number).map Prod.fst

/-- `state_of`, of a record that was read. -/
def stateOf (running : π → Bool) (opened : List (τ × ℕ)) (number : ℕ)
    (record : Option (SlotRecord κ π)) (slot : Slot κ π) : SlotState τ π :=
  match record, holder opened number with
  | none, _ => .broken
  | some record, held =>
    if slot.closing ∧ held.isSome then held.elim .broken .inUse
    else if !slot.clone then .broken
    else if !slot.worktree then .broken
    else
      match held, record.maintaining with
      | some session, _ => .inUse session
      | none, some claim => if running claim.owner then .maintaining claim else .idle
      | none, none => .idle

/-- The record without its claim. -/
def SlotRecord.cleared (record : SlotRecord κ π) : SlotRecord κ π :=
  { record with maintaining := none }

def freshRecord (executionCheckout : κ) (created : ℕ) : SlotRecord κ π :=
  ⟨executionCheckout, created, none, none, none⟩

/-- A directory that was just created. -/
def emptySlot : Slot κ π := ⟨none, false, false, false⟩

def Surveyed.takeable (slot : Surveyed τ κ π) : Bool :=
  match slot.state with
  | .idle | .broken => true
  | .inUse _ | .maintaining _ => false

def Survey.add (survey : Survey τ κ π) (slot : Surveyed τ κ π) : Survey τ κ π :=
  { survey with found := survey.found ++ [slot] }

end Reading

section Steps

variable {τ κ π : Type} [DecidableEq τ] [DecidableEq κ] [DecidableEq π]

namespace World

/-- The process stands elsewhere. -/
def goto (s : World τ κ π) (p : π) (phase : Phase τ κ π) : World τ κ π :=
  { s with process := Function.update s.process p phase }

/-- `write_record`, which there is no directory for once the slot is removed. -/
def write (s : World τ κ π) (number : ℕ) (record : SlotRecord κ π) : World τ κ π :=
  { s with
    slots := Function.update s.slots number
      ((s.slots number).map fun slot => { slot with record := some record }) }

/-- What of a slot is held alone is let go. -/
def drop (s : World τ κ π) (number : ℕ) : World τ κ π :=
  { s with lease := Function.update s.lease number none }

def actStep (s : World τ κ π) (p : π) : Act κ → Option (World τ κ π)
  | .begin job numbers =>
    match s.process p, job with
    | .idle, .report =>
      some (s.goto p (.surveying ⟨.report, s.opened, numbers, []⟩))
    | .idle, .place =>
      if s.serial = none then
        some ({ s with serial := some p }.goto p (.surveying ⟨.place, s.opened, numbers, []⟩))
      else none
    | .idle, .maintain =>
      if s.serial = none then
        some ({ s with serial := some p }.goto p
          (.surveying ⟨.maintain, s.opened, numbers, []⟩))
      else none
    | .queue (number :: rest), .claim _ =>
      if s.serial = none then
        some ({ s with serial := some p }.goto p
          (.surveying ⟨.claim rest, s.opened, [number], []⟩))
      else none
    | _, _ => none
  | .look =>
    match s.process p with
    | .surveying ⟨job, opened, number :: numbers, found⟩ =>
      some (s.goto p (.looked ⟨job, opened, numbers, found⟩ number
        ((s.slots number).bind Slot.record)))
    | _ => none
  | .judge =>
    match s.process p with
    | .looked survey number record =>
      match s.slots number with
      -- not a directory, or none now
      | none => some (s.goto p (.surveying (survey.add ⟨number, record, .broken⟩)))
      | some slot =>
        match stateOf s.running survey.opened number record slot, record with
        | .idle, some record =>
          if record.maintaining = none then
            some (s.goto p (.surveying (survey.add ⟨number, some record, .idle⟩)))
          else some (s.goto p (.void survey number record))
        | state, record => some (s.goto p (.surveying (survey.add ⟨number, record, state⟩)))
    | _ => none
  | .clear written =>
    match s.process p with
    | .void survey number record =>
      let next := .surveying (survey.add ⟨number, some record.cleared, .idle⟩)
      -- best-effort
      if written then some ((s.write number record.cleared).goto p next)
      else some (s.goto p next)
    | _ => none
  | .done =>
    match s.process p with
    | .surveying ⟨.report, _, [], _⟩ => some (s.goto p .idle)
    | .surveying ⟨job, _, [], found⟩ => some (s.goto p (.surveyed job found))
    | .queue [] => some (s.goto p .idle)
    | _ => none
  | .lease number granted =>
    match s.process p with
    | .surveyed (.claim rest) [⟨found, some record, .idle⟩] =>
      if granted then
        if s.lease found = none then
          some ({ s with lease := Function.update s.lease found (some p) }.goto p
            (.holding found record rest))
        else none
      else some ({ s with serial := none }.goto p (.queue rest))
    | .surveyed (.claim _) _ => none
    | .surveyed job found =>
      match found.find? fun slot => slot.number = number with
      | some slot =>
        if granted ∧ slot.takeable ∧ s.lease number = none then
          some ({ s with lease := Function.update s.lease number (some p) }.goto p
            (.inside job found slot))
        else none
      | none => none
    | _ => none
  | .cut number =>
    match s.process p with
    | .surveyed .place found =>
      if s.slots number = none ∧ s.lease number = none then
        some ({ s with
          slots := Function.update s.slots number (some emptySlot)
          lease := Function.update s.lease number (some p) }.goto p
          (.inside .place found ⟨number, none, .broken⟩))
      else none
    | _ => none
  | .rewrite executionCheckout created =>
    match s.process p with
    | .inside .place found slot =>
      if slot.state = .broken then
        let there := (s.slots slot.number).getD emptySlot
        let fresh := freshRecord executionCheckout created
        some ({ s with
          slots := Function.update s.slots slot.number
            (some { there with record := some fresh }) }.goto p (.inside .place found slot))
      else none
    | _ => none
  | .remove =>
    match s.process p with
    | .inside job found slot =>
      some ({ s with slots := Function.update s.slots slot.number none }.goto p
        (.inside job (found.erase slot) slot))
    | _ => none
  | .leave =>
    match s.process p with
    | .inside job found slot => some ((s.drop slot.number).goto p (.surveyed job found))
    | _ => none
  | .giveUp =>
    match s.process p with
    | .surveyed (.claim rest) _ => some ({ s with serial := none }.goto p (.queue rest))
    | .surveyed .maintain found =>
      some ({ s with serial := none }.goto p (.queue (found.map Surveyed.number)))
    | .surveyed _ _ => some ({ s with serial := none }.goto p .idle)
    | .holding number _ rest =>
      some ({ s.drop number with serial := none }.goto p (.queue rest))
    | _ => none
  | .claim since written =>
    match s.process p with
    | .holding number record rest =>
      let claim : Claim π := ⟨p, since⟩
      let claimed := { record with maintaining := some claim }
      if written then
        if s.slots number = none then none
        else
          some ({ s.write number claimed with
            serial := none
            owed := (number, claim) :: s.owed }.goto p (.maintaining number claimed rest))
      -- the run fails
      else some ({ s.drop number with serial := none }.goto p .idle)
    | _ => none
  | .outcome now outcome written =>
    match s.process p with
    | .maintaining number record rest =>
      if written then
        some ({ (s.write number
            { record with
              maintaining := none, lastMaintained := some now, lastOutcome := some outcome }).drop
            number with
          owed := s.owed.filter fun entry => some entry.2 ≠ record.maintaining ∨
            entry.1 ≠ number }.goto p (.queue rest))
      else some ((s.drop number).goto p .idle)
    | _ => none

def step (s : World τ κ π) : Label τ κ π → Option (World τ κ π)
  | .act p act => if s.running p then s.actStep p act else none
  -- its locks go with it
  | .die p =>
    some { s.goto p .idle with
      running := Function.update s.running p false
      serial := if s.serial = some p then none else s.serial
      lease := fun number => if s.lease number = some p then none else s.lease number
      owed := s.owed.filter fun entry => entry.2.owner ≠ p }
  | .sessions opened => some { s with opened := opened }
  | .turn number closing clone worktree =>
    some { s with
      slots := Function.update s.slots number
        ((s.slots number).map fun slot => ⟨slot.record, closing, clone, worktree⟩) }

/-- No process has anything in hand, and no claim is owed an outcome. -/
structure Initial (s : World τ κ π) : Prop where
  serial : s.serial = none
  lease : ∀ number, s.lease number = none
  process : ∀ p, s.process p = .idle
  owed : s.owed = []

end World

def pool (τ κ π : Type) [DecidableEq τ] [DecidableEq κ] [DecidableEq π] :
    System (World τ κ π) (Label τ κ π) where
  Initial := World.Initial
  step := World.step

end Steps

end Onevcs.Pool.Maintenance
