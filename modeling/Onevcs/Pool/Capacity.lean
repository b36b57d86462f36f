import Mathlib.Data.Finset.Card
import Mathlib.Data.List.Nodup
import Onevcs.Pool.Slots

/-!
# Placement, and the capacity that predicts it

`place` and `capacity_of` of `pool.rs`, on one survey of an identity's slots: the shed both
work out, the idle slot a placement takes, the broken one it recreates, the new one it cuts
and the overflow, beside the report that counts them.

Counts are natural numbers, a pool being far from as many directories as they would need to
overflow. What the host answers about a slot without a lock is one structure. What an attempt on a
slot comes to, a lock that somebody has or a file that cannot be written, is another.
-/

namespace Onevcs.Pool.Capacity

/-- `SlotState`, with what a report says of it. -/
inductive SlotState (τ : Type)
  | broken (reason : String)
  | inUse (session : τ)
  | maintaining (pid : ℕ) (since : String)
  | idle
  deriving DecidableEq

/-- `Surveyed`: a slot's number, its directory, the lender its record names where that
reads, and its state. Only a slot whose record reads is idle. -/
structure Surveyed (τ κ δ : Type) where
  number : ℕ
  dir : δ
  lender : Option κ
  state : SlotState τ
  recorded : state = .idle → lender.isSome

inductive Bound
  | unlimited
  | bounded (count : ℕ)
  deriving DecidableEq

def Bound.admits : Bound → ℕ → Bool
  | .unlimited, _ => true
  | .bounded count, used => used < count

def Bound.headroom : Bound → ℕ → Bound
  | .unlimited, _ => .unlimited
  | .bounded count, used => .bounded (count - used)

/-- `Survey`: the slots by number, and the open sessions, each with the slot it is on if it
is on one. -/
structure Survey (τ κ δ : Type) where
  slots : List (Surveyed τ κ δ)
  opened : List (τ × Option ℕ)

/-- A request: the checkout it lends from, and the limits it resolves to. -/
structure Ask (κ : Type) where
  execution : κ
  pool : ℕ
  filePool : ℕ
  overflow : Bound
  deriving DecidableEq

/-- What can be asked of a slot without a lock: whether its clone retains a branch a lender
would not take, the processes inside it, the checkout its clone borrows from, and what its
clone and its worktree are. -/
structure Host (τ κ δ : Type) where
  retains : Surveyed τ κ δ → κ → Bool
  occupants : Surveyed τ κ δ → List ℕ
  alternate : Surveyed τ κ δ → Option κ
  clone : Surveyed τ κ δ → Part
  worktree : Surveyed τ κ δ → Part

/-- What an attempt comes to: removing a slot, probing its clone, taking it exclusively,
rebuilding it, finding the branch's last slot, and making a new one. -/
structure Attempts (τ κ δ : Type) where
  removes : Surveyed τ κ δ → Bool
  probes : Surveyed τ κ δ → Except String Bool
  takes : Surveyed τ κ δ → Except String Bool
  rebuilds : Surveyed τ κ δ → Except String Unit
  lastSlot : Except String (Option ℕ)
  makes : ℕ → Except String Unit

/-- Nobody has a lock, and what is attempted succeeds. -/
structure Attempts.Free {τ κ δ : Type} (attempts : Attempts τ κ δ) : Prop where
  removes : ∀ slot, attempts.removes slot = true
  probes : ∀ slot, attempts.probes slot = .ok true
  takes : ∀ slot, attempts.takes slot = .ok true
  rebuilds : ∀ slot, attempts.rebuilds slot = .ok ()
  lastSlot : ∃ preferred, attempts.lastSlot = .ok preferred
  makes : ∀ number, attempts.makes number = .ok ()

inductive Ineligibility (κ : Type)
  | otherLender (executionCheckout : κ)
  | heldByProcess (pids : List ℕ)
  | broken (detail : String)
  | noLender (detail : String)
  deriving DecidableEq

inductive Fit (κ : Type)
  | idle
  | recreated (reason : Ineligibility κ)
  | refused (reason : Ineligibility κ)
  deriving DecidableEq

structure WorkspaceCapacity (κ : Type) where
  pool : ℕ
  slots : ℕ
  idle : ℕ
  inUse : ℕ
  maintaining : ℕ
  overflow : Bound
  overflowInUse : ℕ
  admits : Bound
  admitted : Bool
  ineligible : List (ℕ × Ineligibility κ)
  deriving DecidableEq

/-- `Placement`: on a slot, with how much of it was there, or under `runs/`. -/
inductive Placement
  | slot (number : ℕ) (cut : Cut)
  | runRoot
  deriving DecidableEq

/-- `PoolExhausted`: the limits, and everything that holds them. -/
structure Exhausted (τ κ δ : Type) where
  pool : ℕ
  created : ℕ
  idle : ℕ
  inUse : ℕ
  maintaining : ℕ
  overflow : Bound
  overflowInUse : ℕ
  slots : List (Surveyed τ κ δ)
  underRuns : List τ

/-- Why nothing was placed. -/
inductive Refused (τ κ δ : Type)
  | failed (why : String)
  | exhausted (holders : Exhausted τ κ δ)

section

variable {τ κ δ : Type}

namespace Surveyed

def takeable (slot : Surveyed τ κ δ) : Bool :=
  match slot.state with
  | .idle | .broken _ => true
  | .inUse _ | .maintaining .. => false

def isIdle (slot : Surveyed τ κ δ) : Bool :=
  match slot.state with
  | .idle => true
  | _ => false

def isInUse (slot : Surveyed τ κ δ) : Bool :=
  match slot.state with
  | .inUse _ => true
  | _ => false

def isMaintaining (slot : Surveyed τ κ δ) : Bool :=
  match slot.state with
  | .maintaining .. => true
  | _ => false

def isBroken (slot : Surveyed τ κ δ) : Bool :=
  match slot.state with
  | .broken _ => true
  | _ => false

end Surveyed

/-- `Survey::overflow`: the sessions under `runs/`. -/
def Survey.overflow (survey : Survey τ κ δ) : List τ :=
  (survey.opened.filter fun session => session.2.isNone).map Prod.fst

/-- `keeps`: whether a slot is kept rather than removed; one without a readable lender is
judged against the given checkout. -/
def keeps (host : Host τ κ δ) (judge : κ) (slot : Surveyed τ κ δ) : Bool :=
  match slot.state with
  | .inUse _ | .maintaining .. => true
  | .idle | .broken _ => host.retains slot (slot.lender.getD judge)

/-- The loop of `sheddable`. -/
def shedFrom (host : Host τ κ δ) (judge : κ) : List (Surveyed τ κ δ) → ℕ → List (Surveyed τ κ δ)
  | [], _ | _ :: _, 0 => []
  | slot :: rest, surplus + 1 =>
    if !slot.takeable || keeps host judge slot then shedFrom host judge rest (surplus + 1)
    else slot :: shedFrom host judge rest surplus

/-- `sheddable`: the takeable slots above the file's pool, highest number first. -/
def sheddable (host : Host τ κ δ) (slots : List (Surveyed τ κ δ)) (filePool : ℕ) (judge : κ) :
    List (Surveyed τ κ δ) :=
  shedFrom host judge slots.reverse (slots.length - filePool)

/-- `shed`: the slots left in the survey. -/
def shed (host : Host τ κ δ) (attempts : Attempts τ κ δ) (slots : List (Surveyed τ κ δ))
    (filePool : ℕ) (judge : κ) : List (Surveyed τ κ δ) :=
  let removed := ((sheddable host slots filePool judge).filter attempts.removes).map
    Surveyed.number
  slots.filter fun slot => slot.number ∉ removed

section Placing

variable [DecidableEq κ] (host : Host τ κ δ) (attempts : Attempts τ κ δ) (ask : Ask κ)

def boundLender (slot : Surveyed τ κ δ) : Option κ := slot.lender.or (host.alternate slot)

/-- The loop of `take_idle`: the first of the candidates that nobody has and nobody is in. -/
def takeFirst : List (Surveyed τ κ δ) → Except String (Option Placement)
  | [] => .ok none
  | slot :: rest =>
    match attempts.takes slot with
    | .error why => .error why
    | .ok false => takeFirst rest
    | .ok true =>
      if (host.occupants slot).isEmpty then .ok (some (.slot slot.number .warm))
      else takeFirst rest

/-- The idle slots of the lender, the preferred number first. -/
def candidates (slots : List (Surveyed τ κ δ)) (preferred : Option ℕ) : List (Surveyed τ κ δ) :=
  let own := slots.filter fun slot => slot.isIdle && slot.lender == some ask.execution
  own.filter (fun slot => some slot.number == preferred) ++
    own.filter fun slot => some slot.number != preferred

def takeIdle (slots : List (Surveyed τ κ δ)) : Except String (Option Placement) :=
  match attempts.lastSlot with
  | .error why => .error why
  | .ok preferred => takeFirst host attempts (candidates ask slots preferred)

/-- How much of a broken slot is kept as it is recreated. -/
def keptOf (slot : Surveyed τ κ δ) : Cut :=
  match host.clone slot, host.worktree slot with
  | .repository, .repository => .warm
  | .repository, _ => .keptClone
  | _, _ => .fresh

def recreateBroken : List (Surveyed τ κ δ) → Except String (Option Placement)
  | [] => .ok none
  | slot :: rest =>
    if !slot.isBroken then recreateBroken rest
    else
      match attempts.probes slot with
      | .error why => .error why
      | .ok false => recreateBroken rest
      | .ok true =>
        if (boundLender host slot).any (· ≠ ask.execution) then recreateBroken rest
        else
          match attempts.takes slot with
          | .error why => .error why
          | .ok false => recreateBroken rest
          | .ok true =>
            match attempts.rebuilds slot with
            | .error why => .error why
            | .ok () => .ok (some (.slot slot.number (keptOf host slot)))

/-- The loop of `cut_new`: from a number on, the first nobody has. -/
def firstFree (taken : List ℕ) : ℕ → ℕ → ℕ
  | 0, number => number
  | fuel + 1, number => if number ∈ taken then firstFree taken fuel (number + 1) else number

/-- `cut_new`, where the pool has these numbers on disk. -/
def cutNew (slots : List (Surveyed τ κ δ)) (there : List ℕ) : Except String Placement :=
  let taken := slots.map Surveyed.number ++ there
  let number := firstFree taken taken.length 1
  (attempts.makes number).map fun _ => .slot number .fresh

def exhausted (survey : Survey τ κ δ) (slots : List (Surveyed τ κ δ)) : Exhausted τ κ δ where
  pool := ask.pool
  created := slots.length
  idle := slots.countP Surveyed.isIdle
  inUse := slots.countP Surveyed.isInUse
  maintaining := slots.countP Surveyed.isMaintaining
  overflow := ask.overflow
  overflowInUse := survey.overflow.length
  slots := slots
  underRuns := survey.overflow

/-- The end of `place`: under `runs/` while the overflow admits one. -/
def placeOver (survey : Survey τ κ δ) (slots : List (Surveyed τ κ δ)) :
    Except (Refused τ κ δ) Placement :=
  if ask.overflow.admits survey.overflow.length then .ok .runRoot
  else .error (.exhausted (exhausted ask survey slots))

/-- `place`, from its survey on, where the pool has these numbers on disk. -/
def place (survey : Survey τ κ δ) (there : List ℕ) : Except (Refused τ κ δ) Placement :=
  let slots := shed host attempts survey.slots ask.filePool ask.execution
  if 0 < ask.pool then
    match takeIdle host attempts ask slots with
    | .error why => .error (.failed why)
    | .ok (some taken) => .ok taken
    | .ok none =>
      match recreateBroken host attempts ask slots with
      | .error why => .error (.failed why)
      | .ok (some recreated) => .ok recreated
      | .ok none =>
        if slots.length < ask.pool then
          (cutNew attempts slots there).mapError .failed
        else placeOver ask survey slots
  else placeOver ask survey slots

/-- `fit`: how a slot nobody is in stands for the request. -/
def fit (slot : Surveyed τ κ δ) : Option (Fit κ) :=
  match slot.state with
  | .inUse _ | .maintaining .. => none
  | .idle =>
    match slot.lender.filter (· ≠ ask.execution) with
    | some lender => some (.refused (.otherLender lender))
    | none =>
      match host.occupants slot with
      | [] => some .idle
      | pids => some (.refused (.heldByProcess pids))
  | .broken reason =>
    match boundLender host slot with
    | some lender =>
      if lender ≠ ask.execution then some (.refused (.otherLender lender))
      else some (.recreated (.broken reason))
    | none => some (.recreated (.noLender reason))

def Fit.taken : Fit κ → Bool
  | .idle | .recreated _ => true
  | .refused _ => false

/-- Why the report does not count the slot as idle. -/
def Fit.reason : Fit κ → Option (Ineligibility κ)
  | .idle => none
  | .recreated reason | .refused reason => some reason

/-- A slot the request takes, as it stands. -/
def fits (slot : Surveyed τ κ δ) : Bool := (fit host ask slot).any Fit.taken

/-- The numbers a shed before the next placement would remove. -/
def shedNumbers (survey : Survey τ κ δ) : List ℕ :=
  (sheddable host survey.slots ask.filePool ask.execution).map Surveyed.number

/-- The slots the report counts as there to be taken after the shed. -/
def takeableAfter (survey : Survey τ κ δ) : ℕ :=
  survey.slots.countP fun slot => fits host ask slot && slot.number ∉ shedNumbers host ask survey

/-- The slots the report has room to create. -/
def canCreate (survey : Survey τ κ δ) : ℕ :=
  ask.pool - (survey.slots.length - (shedNumbers host ask survey).length)

/-- `capacity_of`, where the request would resume a session or not. -/
def capacityOf (survey : Survey τ κ δ) (resumes : Bool) : WorkspaceCapacity κ :=
  let overflowInUse := survey.overflow.length
  let takeable := takeableAfter host ask survey
  let create := canCreate host ask survey
  { pool := ask.pool
    slots := survey.slots.length
    idle := survey.slots.countP fun slot => fit host ask slot == some .idle
    inUse := survey.slots.countP Surveyed.isInUse
    maintaining := survey.slots.countP Surveyed.isMaintaining
    overflow := ask.overflow
    overflowInUse := overflowInUse
    admits :=
      match ask.pool, ask.overflow.headroom overflowInUse with
      | 0, room => room
      | _, .unlimited => .unlimited
      | _, .bounded room => .bounded (takeable + create + room)
    admitted := resumes || (decide (0 < ask.pool) && (decide (0 < takeable) || decide (0 < create))) ||
      ask.overflow.admits overflowInUse
    ineligible := survey.slots.filterMap fun slot =>
      ((fit host ask slot).bind Fit.reason).map fun reason => (slot.number, reason) }

end Placing

end

end Onevcs.Pool.Capacity
