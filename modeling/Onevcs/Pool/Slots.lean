import Onevcs.Foundations.Flock
import Onevcs.Foundations.Transition
import Mathlib.Logic.Function.Basic

/-!
# The slots of a pool

`survey`, `state_of`, `place` and `pool_prune` of `pool.rs`, beside the closes and the
adoptions (`adopt_with` of `workspace.rs`) of the sessions placed on the slots of one
identity.

One placement or prune surveys and acts at a time, under the pool's lock: it reads the
session records one by one, looks at each slot, removes what it sheds or prunes, and takes
a slot. Whatever it acts on it holds exclusively. An adoption takes no such turn: it asks
whether the slot is still its session's, takes the slot's lease shared, and opens its
session again. In between, what is in a slot's directory may change in any way.

Two things are carried along that the code has no name for: the sessions that opened since
a survey read their records (`stale`), and those that opened on an adoption's slot since it
asked (`raced`).
-/

namespace Onevcs.Pool

open Foundations (Flock Mode System)

/-- A clone or a worktree on disk. -/
inductive Part
  | missing
  | unusable
  | repository
  deriving DecidableEq

/-- `slot.json`: the checkout the slot lends from, and whether it is claimed for
maintenance. -/
structure SlotRecord (κ : Type) where
  lender : κ
  maintaining : Bool
  deriving DecidableEq

/-- What is in a slot's directory: its record, where it reads as this slot's; its clone and
the checkout that borrows from; its worktree and the branch that is on. -/
structure Contents (κ β : Type) where
  record : Option (SlotRecord κ)
  clone : Part
  alternate : Option κ
  worktree : Part
  head : Option β
  deriving DecidableEq

inductive Lifecycle
  | opened
  | closed
  deriving DecidableEq

/-- The record of a session placed on a slot. -/
structure Record (β : Type) where
  slot : ℕ
  branch : β
  state : Lifecycle
  deriving DecidableEq

inductive SlotState (τ : Type)
  | broken
  | inUse (session : τ)
  | maintaining
  | idle
  deriving DecidableEq

/-- One slot as the survey found it. -/
structure Surveyed (τ κ : Type) where
  number : ℕ
  lender : Option κ
  state : SlotState τ
  deriving DecidableEq

/-- How much of a slot a placement found already there. -/
inductive Cut
  | fresh
  | keptClone
  | warm
  deriving DecidableEq

/-- What takes the pool's lock: a prune, or the placement of a session. -/
inductive Job (τ κ : Type)
  | prune
  | place (token : τ) (execution : κ) (pool filePool : ℕ)
  deriving DecidableEq

/-- A survey acted on: the slots as it found them, and the sessions that opened since it
read their records, each with its slot. -/
structure Survey (τ κ : Type) where
  job : Job τ κ
  slots : List (Surveyed τ κ)
  stale : List (τ × ℕ)
  deriving DecidableEq

/-- An adoption: the record it read, and the sessions that opened on its slot since it
asked whose that is. -/
structure Adoption (τ β : Type) where
  token : τ
  record : Record β
  raced : List τ
  deriving DecidableEq

inductive Purpose
  | placing
  | adopting
  | visiting
  deriving DecidableEq

/-- An open description of a slot's lock file. -/
structure Handle (π : Type) where
  owner : π
  purpose : Purpose
  deriving DecidableEq

/-- Where a process stands. -/
inductive Phase (τ κ β : Type)
  | idle
  | loaded (adoption : Adoption τ β)
  -- reading whose the slot is
  | asking (adoption : Adoption τ β) (unread : List τ) (taken : Bool)
  | checked (adoption : Adoption τ β)
  | attached (adoption : Adoption τ β)
  | reattached (adoption : Adoption τ β)
  | reopened (adoption : Adoption τ β)
  -- the survey: the records, then the slots
  | surveying (survey : Survey τ κ) (numbers : List ℕ) (unread : List τ) (opened : List (τ × ℕ))
  | looking (survey : Survey τ κ) (numbers : List ℕ) (opened : List (τ × ℕ))
  -- removing slots, one exclusively held at a time
  | removing (survey : Survey τ κ) (todo : List (Surveyed τ κ))
  | unlinking (survey : Survey τ κ) (todo : List (Surveyed τ κ)) (number : ℕ)
  | unlinked (survey : Survey τ κ) (todo : List (Surveyed τ κ)) (number : ℕ)
  -- taking an idle slot, a broken one, or a new one
  | choosing (survey : Survey τ κ) (candidates : List (Surveyed τ κ))
  | counting (survey : Survey τ κ) (candidates : List (Surveyed τ κ)) (number : ℕ)
  | mending (survey : Survey τ κ) (broken : List (Surveyed τ κ))
  | rebuilding (survey : Survey τ κ) (number : ℕ)
  | cutting (survey : Survey τ κ) (number : ℕ)
  -- a slot is taken for the session, then its record names it
  | taken (token : τ) (number : ℕ) (cut : Cut)
  | recorded (number : ℕ)
  | visiting (number : ℕ) (mode : Mode)
  deriving DecidableEq

/-- The session records, what the slots hold, their leases, who has the pool's lock, and the
processes. -/
structure World (τ κ β π : Type) where
  records : τ → Option (Record β)
  tokens : List τ
  slots : ℕ → Option (Contents κ β)
  leases : ℕ → Flock (Handle π)
  serial : Option π
  process : π → Phase τ κ β

/-- What a process does next. -/
inductive Act (τ κ : Type)
  | adopt (token : τ)
  | ask (listed : List τ)
  | read
  | judge
  | attach
  | reattach
  | reopen
  | detach
  | begin (job : Job τ κ) (listed : List τ) (numbers : List ℕ)
  | look (closing live : Bool)
  | plan (retaining : List ℕ)
  | lock (free : Bool)
  | unlink
  | unlock
  | choose (preferred : Option ℕ)
  | census (occupied : Bool)
  | mend
  | rebuild
  | cutNew (number : ℕ)
  | giveUp
  | create
  | abort (removes : Bool)
  | release
  | visit (number : ℕ) (mode : Mode)
  | leave
  deriving DecidableEq

/-- A step of a process, the close of a session, or any change to what is in a slot. -/
inductive Label (τ κ β π : Type)
  | act (p : π) (act : Act τ κ)
  | close (token : τ)
  | turn (number : ℕ) (contents : Contents κ β)
  deriving DecidableEq

section Reading

variable {τ κ β : Type}

/-- The slot reads as broken, whoever's it is. -/
def Contents.damaged (contents : Contents κ β) (closing : Bool) : Bool :=
  contents.record.isNone ∨
    (closing = false ∧ (contents.clone ≠ .repository ∨ contents.worktree ≠ .repository))

/-- Broken, in use, maintaining, or idle, in that order: a session in a slot is met early
only while the slot's clone is being torn down. -/
def stateOf (contents : Contents κ β) (holder : Option τ) (closing live : Bool) : SlotState τ :=
  match contents.record with
  | none => .broken
  | some record =>
    match holder, closing with
    | some session, true => .inUse session
    | holder, _ =>
      if contents.clone ≠ .repository then .broken
      else if contents.worktree ≠ .repository then .broken
      else
        match holder with
        | some session => .inUse session
        -- A claim whose process is gone is void.
        | none => if record.maintaining ∧ live then .maintaining else .idle

def Surveyed.takeable (slot : Surveyed τ κ) : Bool :=
  match slot.state with
  | .idle | .broken => true
  | .inUse _ | .maintaining => false

/-- The slots to remove, of those left: so many, passing over any that is kept. -/
def shedFrom (retaining : List ℕ) : List (Surveyed τ κ) → ℕ → List (Surveyed τ κ)
  | [], _ | _ :: _, 0 => []
  | slot :: rest, surplus + 1 =>
    if slot.takeable ∧ slot.number ∉ retaining then slot :: shedFrom retaining rest surplus
    else shedFrom retaining rest (surplus + 1)

/-- The slots a shed removes: those above the file's pool size, highest number first. -/
def sheddable (slots : List (Surveyed τ κ)) (filePool : ℕ) (retaining : List ℕ) :
    List (Surveyed τ κ) :=
  shedFrom retaining slots.reverse (slots.length - filePool)

/-- What a job removes: what a placement sheds, or every slot a prune does not keep. -/
def Survey.doomed (survey : Survey τ κ) (retaining : List ℕ) : List (Surveyed τ κ) :=
  match survey.job with
  | .prune => survey.slots.filter fun slot => decide (slot.takeable ∧ slot.number ∉ retaining)
  | .place _ _ _ filePool => sheddable survey.slots filePool retaining

/-- The idle slots of the lender, the preferred one first. -/
def candidates [DecidableEq τ] [DecidableEq κ] (slots : List (Surveyed τ κ)) (execution : κ)
    (preferred : Option ℕ) : List (Surveyed τ κ) :=
  let idle := slots.filter fun slot => decide (slot.state = .idle ∧ slot.lender = some execution)
  idle.filter (fun slot => decide (some slot.number = preferred)) ++
    idle.filter (fun slot => decide (some slot.number ≠ preferred))

/-- A new slot's number is free, and those below it are not. -/
def lowestFree (slots : List (Surveyed τ κ)) (there : ℕ → Option (Contents κ β)) (number : ℕ) :
    Bool :=
  0 < number ∧ (there number).isNone ∧ number ∉ slots.map Surveyed.number ∧
    ∀ lower < number, lower ∈ slots.map Surveyed.number ∨ (there lower).isSome ∨ lower = 0

end Reading

section Opening

variable {τ κ β : Type} [DecidableEq τ]

def Survey.outdate (token : τ) (slot : ℕ) (survey : Survey τ κ) : Survey τ κ :=
  { survey with stale := (token, slot) :: survey.stale }

def Adoption.race (token : τ) (slot : ℕ) (adoption : Adoption τ β) : Adoption τ β :=
  if adoption.record.slot = slot ∧ adoption.token ≠ token then
    { adoption with raced := token :: adoption.raced }
  else adoption

/-- What others carry along when a session opens on a slot: a survey that has still to read
its record will meet it. -/
def Phase.meet (token : τ) (slot : ℕ) : Phase τ κ β → Phase τ κ β
  | .loaded adoption => .loaded (adoption.race token slot)
  | .asking adoption unread owned => .asking (adoption.race token slot) unread owned
  | .checked adoption => .checked (adoption.race token slot)
  | .attached adoption => .attached (adoption.race token slot)
  | .reattached adoption => .reattached (adoption.race token slot)
  | .reopened adoption => .reopened (adoption.race token slot)
  | .surveying survey numbers unread opened =>
    .surveying (survey.outdate token slot) numbers unread opened
  | .looking survey numbers opened => .looking (survey.outdate token slot) numbers opened
  | .removing survey todo => .removing (survey.outdate token slot) todo
  | .unlinking survey todo number => .unlinking (survey.outdate token slot) todo number
  | .unlinked survey todo number => .unlinked (survey.outdate token slot) todo number
  | .choosing survey candidates => .choosing (survey.outdate token slot) candidates
  | .counting survey candidates number =>
    .counting (survey.outdate token slot) candidates number
  | .mending survey broken => .mending (survey.outdate token slot) broken
  | .rebuilding survey number => .rebuilding (survey.outdate token slot) number
  | .cutting survey number => .cutting (survey.outdate token slot) number
  | phase => phase

end Opening

section Steps

variable {τ κ β π : Type} [DecidableEq τ] [DecidableEq κ] [DecidableEq β] [DecidableEq π]

namespace World

/-- The process stands elsewhere. -/
def goto (s : World τ κ β π) (p : π) (phase : Phase τ κ β) : World τ κ β π :=
  { s with process := Function.update s.process p phase }

/-- What is in a slot is replaced, or the slot removed. -/
def put (s : World τ κ β π) (number : ℕ) (contents : Option (Contents κ β)) : World τ κ β π :=
  { s with slots := Function.update s.slots number contents }

def write (s : World τ κ β π) (token : τ) (record : Record β) : World τ κ β π :=
  { s with
    records := Function.update s.records token (some record)
    tokens := if token ∈ s.tokens then s.tokens else token :: s.tokens }

/-- A session's record says that it is open on its slot. -/
def openOn (s : World τ κ β π) (token : τ) (record : Record β) : World τ κ β π :=
  { s.write token { record with state := .opened } with
    process := fun p => (s.process p).meet token record.slot }

def drop (s : World τ κ β π) (p : π) (number : ℕ) (purpose : Purpose) : World τ κ β π :=
  { s with
    leases := Function.update s.leases number ((s.leases number).drop ⟨p, purpose⟩) }

def yieldPool (s : World τ κ β π) : World τ κ β π := { s with serial := none }

def tryLease (s : World τ κ β π) (p : π) (number : ℕ) (purpose : Purpose) (mode : Mode)
    (granted refused : Phase τ κ β) : World τ κ β π :=
  match (s.leases number).take ⟨p, purpose⟩ mode with
  | some lease => { s.goto p granted with leases := Function.update s.leases number lease }
  | none => s.goto p refused

/-- A listing names at least the records that are there when it is read. -/
def Lists (s : World τ κ β π) (listed : List τ) : Prop := ∀ token ∈ s.tokens, token ∈ listed

instance (s : World τ κ β π) (listed : List τ) : Decidable (s.Lists listed) :=
  inferInstanceAs (Decidable (∀ token ∈ s.tokens, token ∈ listed))

/-- The open session of a record on the slot, if it is of another token. -/
def opensElsewhere (s : World τ κ β π) (token other : τ) (slot : ℕ) : Bool :=
  match s.records other with
  | some record => record.state = .opened ∧ record.slot = slot ∧ other ≠ token
  | none => false

/-- What a rebuilt slot keeps: a clone that is still a repository, and with it the worktree
where that is one too. -/
def rebuilt (contents : Contents κ β) (execution : κ) : Contents κ β × Cut :=
  let record : SlotRecord κ := ⟨execution, false⟩
  if contents.clone = .repository then
    if contents.worktree = .repository then ({ contents with record := record }, .warm)
    else ({ contents with record := record, worktree := .missing, head := none }, .keptClone)
  else (⟨record, .missing, none, .missing, none⟩, .fresh)

def adoptionStep (s : World τ κ β π) (p : π) (act : Act τ κ) : Option (World τ κ β π) :=
  match s.process p, act with
  | .loaded adoption, .ask listed =>
    if adoption.record.state = .opened then some (s.goto p (.checked adoption))
    else if s.Lists listed then
      some (s.goto p (.asking { adoption with raced := [] } listed false))
    else none
  | .asking adoption (other :: unread) taken, .read =>
    let taken := taken || s.opensElsewhere adoption.token other adoption.record.slot
    some (s.goto p (.asking adoption unread taken))
  | .asking adoption [] taken, .judge =>
    -- The tree is the session's own: no other has the slot, and it is on its branch.
    match s.slots adoption.record.slot with
    | some contents =>
      if taken = false ∧ contents.worktree ≠ .missing ∧
          contents.head = some adoption.record.branch then
        some (s.goto p (.checked adoption))
      else some (s.goto p .idle)
    | none => some (s.goto p .idle)
  | .checked adoption, .attach =>
    some (s.tryLease p adoption.record.slot .adopting .shared (.attached adoption) .idle)
  | .attached adoption, .reattach =>
    match s.slots adoption.record.slot with
    | some contents =>
      if contents.clone = .missing then
        some ((s.drop p adoption.record.slot .adopting).goto p .idle)
      else if contents.worktree = .missing then
        let contents :=
          { contents with worktree := .repository, head := some adoption.record.branch }
        some ((s.put adoption.record.slot (some contents)).goto p (.reattached adoption))
      else some (s.goto p (.reattached adoption))
    | none => some ((s.drop p adoption.record.slot .adopting).goto p .idle)
  | .reattached adoption, .reopen =>
    match s.records adoption.token with
    | some stored => some ((s.openOn adoption.token stored).goto p (.reopened adoption))
    | none => some ((s.drop p adoption.record.slot .adopting).goto p .idle)
  | .attached adoption, .detach | .reattached adoption, .detach | .reopened adoption, .detach =>
    some ((s.drop p adoption.record.slot .adopting).goto p .idle)
  | _, _ => none

/-- A step of a prune or a placement, under the pool's lock. -/
def poolStep (s : World τ κ β π) (p : π) (act : Act τ κ) : Option (World τ κ β π) :=
  match s.process p, act with
  | .surveying survey numbers (token :: unread) opened, .read =>
    let opened :=
      match s.records token with
      | some ⟨slot, _, .opened⟩ => (token, slot) :: opened
      | _ => opened
    some (s.goto p (.surveying survey numbers unread opened))
  | .surveying survey numbers [] opened, .read => some (s.goto p (.looking survey numbers opened))
  | .looking survey (number :: numbers) opened, .look closing live =>
    match s.slots number with
    | some contents =>
      let holder := (opened.find? fun held => decide (held.2 = number)).map Prod.fst
      let slot : Surveyed τ κ :=
        ⟨number, contents.record.map SlotRecord.lender, stateOf contents holder closing live⟩
      some (s.goto p (.looking { survey with slots := survey.slots ++ [slot] } numbers opened))
    | none => some (s.goto p (.looking survey numbers opened))
  | .looking survey [] _, .plan retaining =>
    some (s.goto p (.removing survey (survey.doomed retaining)))
  -- A slot is removed under the exclusive take that proves nobody is in it.
  | .removing survey (slot :: todo), .lock free =>
    if free then
      some (s.tryLease p slot.number .placing .exclusive (.unlinking survey todo slot.number)
        (.removing survey todo))
    else some (s.goto p (.removing survey todo))
  | .unlinking survey todo number, .unlink =>
    some ((s.put number none).goto p (.unlinked
      { survey with slots := survey.slots.filter fun slot => decide (slot.number ≠ number) }
      todo number))
  | .unlinking survey todo number, .unlock | .unlinked survey todo number, .unlock =>
    some ((s.drop p number .placing).goto p (.removing survey todo))
  | .removing survey [], .choose preferred =>
    match survey.job with
    | .prune => some (s.yieldPool.goto p .idle)
    | .place _ execution pool _ =>
      if 0 < pool then
        some (s.goto p (.choosing survey (candidates survey.slots execution preferred)))
      else some (s.yieldPool.goto p .idle)
  | .choosing survey (slot :: rest), .lock _ =>
    some (s.tryLease p slot.number .placing .exclusive (.counting survey rest slot.number)
      (.choosing survey rest))
  | .counting survey rest number, .census occupied =>
    if occupied then some ((s.drop p number .placing).goto p (.choosing survey rest))
    else
      match survey.job with
      | .place token _ _ _ => some (s.goto p (.taken token number .warm))
      | .prune => none
  | .choosing survey [], .mend =>
    some (s.goto p (.mending survey
      (survey.slots.filter fun slot => decide (slot.state = .broken))))
  | .mending survey (slot :: rest), .lock free =>
    match survey.job, s.slots slot.number with
    | .place _ execution _ _, some contents =>
      let bound := slot.lender.or contents.alternate
      if free = true ∧ (bound = none ∨ bound = some execution) then
        some (s.tryLease p slot.number .placing .exclusive (.rebuilding survey slot.number)
          (.mending survey rest))
      else some (s.goto p (.mending survey rest))
    | _, _ => some (s.goto p (.mending survey rest))
  | .rebuilding survey number, .rebuild =>
    match survey.job, s.slots number with
    | .place token execution _ _, some contents =>
      let (contents, cut) := rebuilt contents execution
      some ((s.put number (some contents)).goto p (.taken token number cut))
    | _, _ => none
  | .mending survey [], .cutNew number =>
    match survey.job with
    | .place _ _ pool _ =>
      if survey.slots.length < pool ∧ lowestFree survey.slots s.slots number then
        some ((s.put number (some ⟨none, .missing, none, .missing, none⟩)).goto p
          (.cutting survey number))
      else none
    | .prune => none
  | .cutting survey number, .lock _ =>
    match survey.job with
    | .place token execution _ _ =>
      match (s.leases number).take ⟨p, .placing⟩ .exclusive with
      | some lease =>
        let made : Contents κ β := ⟨some ⟨execution, false⟩, .missing, none, .missing, none⟩
        some ({ s.put number (some made) with
          leases := Function.update s.leases number lease }.goto p
            (.taken token number .fresh))
      | none => some (s.yieldPool.goto p .idle)
    | .prune => none
  | .mending survey [], .giveUp =>
    -- A run root, or a refusal.
    match survey.job with
    | .place _ _ pool _ =>
      if pool ≤ survey.slots.length then some (s.yieldPool.goto p .idle) else none
    | .prune => none
  | .taken token number _, .create =>
    match s.records token, s.slots number with
    | none, some ⟨_, _, _, _, some branch⟩ =>
      some ((s.openOn token ⟨number, branch, .opened⟩).goto p (.recorded number))
    | _, _ => none
  | .taken _ number cut, .abort removes =>
    -- A slot cut for the session goes with it.
    if removes ∧ cut = .fresh then
      some ((((s.put number none).drop p number .placing).yieldPool).goto p .idle)
    else some (((s.drop p number .placing).yieldPool).goto p .idle)
  | .recorded number, .release =>
    some (((s.drop p number .placing).yieldPool).goto p .idle)
  | .rebuilding _ number, .abort _ | .counting _ _ number, .abort _ =>
    some (((s.drop p number .placing).yieldPool).goto p .idle)
  | .surveying _ _ _ _, .abort _ | .looking _ _ _, .abort _ | .removing _ _, .abort _
  | .choosing _ _, .abort _ | .mending _ _, .abort _ | .cutting _ _, .abort _ =>
    some (s.yieldPool.goto p .idle)
  | _, _ => none

def act (s : World τ κ β π) (p : π) (act : Act τ κ) : Option (World τ κ β π) :=
  match s.process p, act with
  | .idle, .adopt token =>
    match s.records token with
    | some record => some (s.goto p (.loaded ⟨token, record, []⟩))
    | none => none
  | .idle, .begin job listed numbers =>
    if s.serial = none ∧ s.Lists listed ∧ numbers.Pairwise (· < ·) then
      some ({ s with serial := some p }.goto p (.surveying ⟨job, [], []⟩ numbers listed []))
    else none
  | .idle, .visit number mode =>
    some (s.tryLease p number .visiting mode (.visiting number mode) .idle)
  | .visiting number _, .leave => some ((s.drop p number .visiting).goto p .idle)
  | .idle, _ => none
  | .loaded _, _ | .asking _ _ _, _ | .checked _, _ | .attached _, _ | .reattached _, _
  | .reopened _, _ => s.adoptionStep p act
  | _, _ => s.poolStep p act

def step (s : World τ κ β π) : Label τ κ β π → Option (World τ κ β π)
  | .act p act => s.act p act
  | .close token =>
    match s.records token with
    | some stored => some (s.write token { stored with state := .closed })
    | none => none
  | .turn number contents =>
    if (s.slots number).isSome then some (s.put number (some contents)) else none

end World

/-- Every run of a host that has no pool yet. -/
def pools (τ κ β π : Type) [DecidableEq τ] [DecidableEq κ] [DecidableEq β] [DecidableEq π] :
    System (World τ κ β π) (Label τ κ β π) where
  Initial s := s.records = (fun _ => none) ∧ s.tokens = [] ∧ s.slots = (fun _ => none) ∧
    s.leases = (fun _ => .free) ∧ s.serial = none ∧ s.process = fun _ => .idle
  step s label := s.step label

end Steps

end Onevcs.Pool
