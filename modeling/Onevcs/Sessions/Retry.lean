import Mathlib.Data.List.Sort
import Onevcs.Foundations.Transition

/-!
# Opens that continue a branch, and the links they record

`supersede`, `record_retry`, `update`, `save`, `followable` and `newest` of
`workspace.rs`, for any number of processes on the session records of a host.

Every write of a record takes turns on that record's own lock. Between taking it and
writing, a process reads other records, whose locks it does not hold: a step of the
model is one read or one write of one record, or one lock taken or let go. The sweep
forgets a record with no lock at all.

A record is kept here as far as the links are about it: its identity, its branch and the
session that continued it. What else a lifecycle step changes is left out, so such a step
is an update that changes nothing.
-/

namespace Onevcs.Sessions

/-- A session record, as far as its retry link is about it. -/
structure Record (τ ι β : Type) where
  identity : ι
  branch : β
  retriedBy : Option τ
  deriving DecidableEq

/-- Why a chain of retries cannot be followed. -/
inductive Broken (τ : Type)
  | closes (first next : τ)
  | missing (token next : τ)
  | elsewhere (token next : τ)
  -- the fuel of `newestFrom` ran out, which the loop of `newest` has no counterpart of
  | unfinished

section Following

variable {τ ι β : Type} [DecidableEq τ] [DecidableEq ι]

/-- One turn of the loop of `newest`: the record the chain goes on to, `none` where it ends. -/
def hop (load : τ → Option (Record τ ι β)) (first : τ) (seen : List τ) (token : τ)
    (record : Record τ ι β) : Except (Broken τ) (Option (τ × Record τ ι β)) :=
  match record.retriedBy with
  | none => .ok none
  | some next =>
    if next ∈ seen then .error (.closes first next)
    else
      match load next with
      | none => .error (.missing token next)
      | some followed =>
        if followed.identity ≠ record.identity then .error (.elsewhere token next)
        else .ok (some (next, followed))

/-- The loop of `newest`. -/
def newestFrom (load : τ → Option (Record τ ι β)) (first : τ) :
    Nat → List τ → τ → Record τ ι β → Except (Broken τ) (Record τ ι β)
  | 0, _, _, _ => .error .unfinished
  | fuel + 1, seen, token, record =>
    match hop load first seen token record with
    | .error broken => .error broken
    | .ok none => .ok record
    | .ok (some (next, followed)) => newestFrom load first fuel (next :: seen) next followed

/-- `newest`: the newest record of the chain the record starts. -/
def newest (load : τ → Option (Record τ ι β)) (fuel : Nat) (token : τ) (record : Record τ ι β) :
    Except (Broken τ) (Record τ ι β) :=
  newestFrom load token fuel [token] token record

end Following

/-! ## Processes -/

/-- How far an `update` has come, with what it holds in local variables. -/
inductive Stage (τ ι β : Type)
  -- holding the record's lock
  | locked
  -- the record is read and changed; `followable` is about to load the session it links to
  | changed (record : Record τ ι β)
  -- `newest` has followed the links through these records, the last one first
  | following (record : Record τ ι β) (chain : List (τ × Record τ ι β))
  -- the link can be followed, through these records, and is about to be saved
  | followed (record : Record τ ι β) (chain : List (τ × Record τ ι β))
  -- saved or refused; the lock is about to be let go
  | settled
  deriving DecidableEq

/-- Where a process stands. -/
inductive Phase (τ ι β : Type)
  | idle
  -- its open has created its record
  | opened (token : τ) (record : Record τ ι β)
  -- `supersede`: the listing still to be read, and the older sessions found in it
  | listing (token : τ) (record : Record τ ι β) (unread found : List τ)
  -- `supersede`: the older sessions still to be linked
  | superseding (token : τ) (older : List τ)
  -- updating a record, to link it to a session or for what is left out here
  | updating (target : τ) (link : Option τ) (stage : Stage τ ι β) (rest : Option (τ × List τ))
  deriving DecidableEq

/-- The stored records, the identities of the sessions ever opened, the record locks and
the processes. -/
structure World (τ ι β π : Type) where
  records : τ → Option (Record τ ι β)
  minted : List (τ × ι)
  lock : τ → Option π
  process : π → Phase τ ι β

/-- What a process can do next. -/
inductive Act (τ ι β : Type)
  | create (token : τ) (identity : ι) (branch : β)
  | finish
  | list (entries : List τ)
  | read
  | take
  | update (target : τ)
  | load
  | check
  | hop
  | save
  | release
  deriving DecidableEq

/-- A step of a host: one of a process, or one of the sweep's. -/
inductive Label (τ ι β π : Type)
  | act (p : π) (act : Act τ ι β)
  | forget (token : τ)
  deriving DecidableEq

section Steps

variable {τ ι β π : Type} [LinearOrder τ] [DecidableEq ι] [DecidableEq β] [DecidableEq π]

namespace World

/-- The link of each stored record. -/
def next (s : World τ ι β π) (token : τ) : Option τ :=
  (s.records token).bind Record.retriedBy

/-- The process stands elsewhere. -/
def goto (s : World τ ι β π) (p : π) (phase : Phase τ ι β) : World τ ι β π :=
  { s with process := Function.update s.process p phase }

def store (s : World τ ι β π) (token : τ) (record : Option (Record τ ι β)) : World τ ι β π :=
  { s with records := Function.update s.records token record }

/-- `supersede` leaves out a record that is not an older session of the branch, or that
something superseded. -/
def supersedes (own : τ) (ownRecord : Record τ ι β) (token : τ) (record : Record τ ι β) : Bool :=
  record.identity = ownRecord.identity ∧ record.branch = ownRecord.branch ∧ token ≠ own ∧
    record.retriedBy = none

/-- Take a record's lock, where nobody holds it. -/
def lockFor (s : World τ ι β π) (p : π) (target : τ) (link : Option τ)
    (rest : Option (τ × List τ)) : Option (World τ ι β π) :=
  match s.lock target with
  | some _ => none
  | none =>
    some
      { s with
        lock := Function.update s.lock target (some p)
        process := Function.update s.process p (.updating target link .locked rest) }

/-- One step of an `update` under way. -/
def updateStep (s : World τ ι β π) (p : π) (target : τ) (link : Option τ)
    (rest : Option (τ × List τ)) : Stage τ ι β → Act τ ι β → Option (World τ ι β π)
  | .locked, .load =>
    let stage :=
      match s.records target with
      | none => .settled
      | some record => .changed { record with retriedBy := link.or record.retriedBy }
    some (s.goto p (.updating target link stage rest))
  | .changed record, .check =>
    let stage :=
      match record.retriedBy with
      | none => .followed record []
      | some next =>
        match s.records next with
        | none => .settled
        | some followed =>
          if followed.identity ≠ record.identity then .settled else .following record []
    some (s.goto p (.updating target link stage rest))
  | .following record chain, .hop =>
    let current := chain.headD (target, record)
    let stage :=
      match Sessions.hop s.records target (target :: chain.map Prod.fst) current.1 current.2 with
      | .error _ => .settled
      | .ok none => .followed record chain
      | .ok (some followed) => .following record (followed :: chain)
    some (s.goto p (.updating target link stage rest))
  | .followed record _, .save =>
    some ((s.store target (some record)).goto p (.updating target link .settled rest))
  | .settled, .release =>
    let phase :=
      match rest with
      | none => .idle
      | some (own, older) => .superseding own older
    some { (s.goto p phase) with lock := Function.update s.lock target none }
  | _, _ => none

def act (s : World τ ι β π) (p : π) (act : Act τ ι β) : Option (World τ ι β π) :=
  match s.process p, act with
  | .idle, .create token identity branch =>
    -- A token is a new session's own, so no record of it is there to refuse the create.
    if (s.minted.lookup token).isSome ∨ (s.lock token).isSome then none
    else
      let record := ⟨identity, branch, none⟩
      some
        { (s.store token (some record)).goto p (.opened token record) with
          minted := (token, identity) :: s.minted }
  -- An open that cut its branch fresh supersedes nothing.
  | .opened _ _, .finish => some (s.goto p .idle)
  | .opened token record, .list entries => some (s.goto p (.listing token record entries []))
  | .listing token _ [] found, .read => some (s.goto p (.superseding token found))
  | .listing token record (entry :: unread) found, .read =>
    let found :=
      match s.records entry with
      | none => found
      | some older =>
        if supersedes token record entry older then found.orderedInsert (· ≤ ·) entry
        else found
    some (s.goto p (.listing token record unread found))
  | .superseding _ [], .take => some (s.goto p .idle)
  | .superseding token (target :: older), .take =>
    s.lockFor p target (some token) (some (token, older))
  | .idle, .update target => s.lockFor p target none none
  | .updating target link stage rest, act => s.updateStep p target link rest stage act
  | _, _ => none

def step (s : World τ ι β π) : Label τ ι β π → Option (World τ ι β π)
  | .act p act => s.act p act
  | .forget token => some (s.store token none)

end World

/-- Every run of a host that has no session yet. -/
def opens (τ ι β π : Type) [LinearOrder τ] [DecidableEq ι] [DecidableEq β] [DecidableEq π] :
    Foundations.System (World τ ι β π) (Label τ ι β π) where
  Initial s := s.records = (fun _ => none) ∧ s.minted = [] ∧ s.lock = (fun _ => none) ∧
    s.process = fun _ => .idle
  step := World.step

end Steps

end Onevcs.Sessions
