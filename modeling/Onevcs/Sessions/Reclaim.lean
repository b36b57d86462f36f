import Onevcs.Foundations.Flock
import Onevcs.Foundations.Transition
import Mathlib.Logic.Function.Basic

/-!
# Reclaiming abandoned run roots

`reclaim` and `abandoned` of `workspace.rs`, beside the opens, adoptions and closes that
any number of processes make of the sessions of one identity.

A run root's occupancy lease is one lock file, held shared by an open until its record is
written and by an adoption until its session is open again, and exclusively by the walk
that removes the run root. A step of the model is one read or write of one record, one
lease taken or let go, or one directory made or removed: `all` reads the records one by
one, in a listing that names at least those that were there when it was read.

What a step decides on something left out (whether a clone is being read, whether it
holds unpublished work, when it was written) is in the label. An update reads and writes
its record under that record's own lock, so it is one step here. The turn that walks of
one identity take among themselves is left out: the results hold without it.
-/

namespace Onevcs.Sessions.Reclaim

open Foundations (Flock Mode System)

/-- Where a session works: a run root under `runs/`, named by its token, or a pool slot. -/
inductive Root (τ : Type)
  | run (name : τ)
  | slot (number : Nat)
  deriving DecidableEq

/-- Where a session is in its life. -/
inductive Lifecycle
  | opened
  | closed
  deriving DecidableEq

/-- A session record, as far as reclamation reads it. -/
structure Record (τ : Type) where
  root : Root τ
  state : Lifecycle

/-- The record says its session is open in a run root. -/
def Record.names {τ : Type} [DecidableEq τ] (record : Record τ) (root : Root τ) : Bool :=
  record.state = .opened ∧ record.root = root

/-- What a lease is taken for. -/
inductive Purpose
  | opening
  | resuming
  | adopting
  | visiting
  | reclaiming
  deriving DecidableEq

/-- An open description of a lock file. -/
structure Handle (π : Type) where
  owner : π
  purpose : Purpose
  deriving DecidableEq

/-- How many dead run roots that hold work a walk keeps. -/
def retainedDeadRuns : Nat := 3

/-- What a walk over `runs/` carries from entry to entry: the run roots its snapshot
found open, the entries still to visit, and the run roots that hold work, with when each
was written. -/
structure Walk (τ : Type) where
  snapshot : List (Root τ)
  entries : List τ
  holdingWork : List (Nat × τ)

/-- What a walk goes on to after a removal. -/
inductive After (τ : Type)
  | walking (walk : Walk τ)
  | finishing (doomed : List τ)

/-- Where a process stands. -/
inductive Phase (τ : Type)
  | idle
  -- an open: its lease is taken, its run root made, its record written
  | leased (token : τ)
  | made (token : τ)
  | recorded (token : τ)
  -- an open that was refused, about to remove the run root it made
  | discarding (token : τ)
  -- an adoption: its record is read, its lease taken, its run root found, its session open
  | adopting (token : τ) (record : Record τ) (resumed : Bool)
  | attached (token : τ) (record : Record τ) (resumed : Bool)
  | found (token : τ) (record : Record τ) (resumed : Bool)
  | reopened (token : τ) (record : Record τ) (resumed : Bool)
  -- another command in a run root
  | visiting (root : Root τ) (mode : Mode)
  -- a walk: reading the records for its snapshot
  | surveying (entries unread : List τ) (snapshot : List (Root τ))
  | walking (walk : Walk τ)
  | probing (walk : Walk τ) (entry : τ)
  -- `abandoned`: about to take the lease; about to list the records; reading them
  | taking (walk : Walk τ) (entry : τ)
  | taken (walk : Walk τ) (entry : τ)
  | relisting (walk : Walk τ) (entry : τ) (unread : List τ) (named : Bool)
  -- no open session names the entry
  | abandoned (walk : Walk τ) (entry : τ)
  | removing (entry : τ) (after : After τ)
  | removed (entry : τ) (after : After τ)
  -- the walk is over; what is retained is let go, and the rest removed
  | finishing (retained doomed : List τ)

/-- The records and the names of the records' directory, the run roots that exist, their
leases and the processes. -/
structure World (τ π : Type) where
  records : τ → Option (Record τ)
  tokens : List τ
  exist : Root τ → Bool
  leases : Root τ → Flock (Handle π)
  process : π → Phase τ

/-- What a process can do next. -/
inductive Act (τ : Type)
  | lease (token : τ)
  | make
  | record
  | finish
  | refuse
  | discard
  | openSlot (token : τ) (number : Nat)
  | adopt (token : τ)
  | resume (token : τ)
  | attach
  | find
  | reopen
  | detach
  | close (token : τ)
  | visit (root : Root τ) (mode : Mode)
  | leave
  | survey (entries listed : List τ)
  | read
  | next
  | probe (free : Bool)
  | take
  | relist (listed : List τ)
  | judge (unpublished : Bool) (written : Nat)
  | remove
  | release
  | fail

section Steps

variable {τ π : Type} [DecidableEq τ] [DecidableEq π]

/-- The phase a walk goes on to. -/
def After.phase : After τ → Phase τ
  | .walking walk => .walking walk
  | .finishing doomed => .finishing [] doomed

/-- The run roots of a walk: those found to hold work. -/
def Walk.kept (walk : Walk τ) : List τ := walk.holdingWork.map Prod.snd

/-- The run roots a process holds exclusively in a phase. -/
def Phase.reclaims : Phase τ → List τ
  | .walking walk | .probing walk _ | .taking walk _ => walk.kept
  | .taken walk entry | .relisting walk entry _ _ | .abandoned walk entry
  | .removing entry (.walking walk) | .removed entry (.walking walk) => entry :: walk.kept
  | .removing entry (.finishing doomed) | .removed entry (.finishing doomed) => entry :: doomed
  | .finishing retained doomed => retained ++ doomed
  | _ => []

/-- The leases a process holds in a phase. -/
def Phase.held : Phase τ → List (Root τ × Purpose × Mode)
  | .leased token | .made token | .recorded token => [(.run token, .opening, .shared)]
  | .adopting _ record resumed => if resumed then [(record.root, .resuming, .shared)] else []
  | .attached _ record resumed | .found _ record resumed | .reopened _ record resumed =>
    (record.root, .adopting, .shared) ::
      if resumed then [(record.root, .resuming, .shared)] else []
  | .visiting root mode => [(root, .visiting, mode)]
  | phase => phase.reclaims.map fun root => (.run root, .reclaiming, .exclusive)

/-- What a walk that is over keeps, the newest few, and what it removes. -/
def Walk.outcome (walk : Walk τ) : Phase τ :=
  let newestFirst := (walk.holdingWork.mergeSort fun a b => decide (b.1 ≤ a.1)).map Prod.snd
  .finishing (newestFirst.take retainedDeadRuns) (newestFirst.drop retainedDeadRuns)

namespace World

/-- The process stands elsewhere. -/
def goto (s : World τ π) (p : π) (phase : Phase τ) : World τ π :=
  { s with process := Function.update s.process p phase }

def write (s : World τ π) (token : τ) (record : Record τ) : World τ π :=
  { s with
    records := Function.update s.records token (some record)
    tokens := if token ∈ s.tokens then s.tokens else token :: s.tokens }

def drop (s : World τ π) (p : π) (root : Root τ) (purpose : Purpose) : World τ π :=
  { s with leases := Function.update s.leases root ((s.leases root).drop ⟨p, purpose⟩) }

/-- Every lease of a list is let go. -/
def dropAll (s : World τ π) (p : π) (held : List (Root τ × Purpose × Mode)) : World τ π :=
  held.foldl (fun s lease => s.drop p lease.1 lease.2.1) s

/-- Ask for a lease at once: on to one phase where it is granted, to another where not. -/
def tryLease (s : World τ π) (p : π) (root : Root τ) (purpose : Purpose) (mode : Mode)
    (granted refused : Phase τ) : World τ π :=
  match (s.leases root).take ⟨p, purpose⟩ mode with
  | some lease => { s.goto p granted with leases := Function.update s.leases root lease }
  | none => s.goto p refused

/-- A listing names at least the records that are there when it is read. -/
def Lists (s : World τ π) (listed : List τ) : Prop := ∀ token ∈ s.tokens, token ∈ listed

instance (s : World τ π) (listed : List τ) : Decidable (s.Lists listed) :=
  inferInstanceAs (Decidable (∀ token ∈ s.tokens, token ∈ listed))

def act (s : World τ π) (p : π) (act : Act τ) : Option (World τ π) :=
  match s.process p, act with
  -- An open under `runs/`.
  | .idle, .lease token =>
    some (s.tryLease p (.run token) .opening .shared (.leased token) .idle)
  | .leased token, .make =>
    some { s.goto p (.made token) with exist := Function.update s.exist (.run token) true }
  | .made token, .record =>
    -- `create` refuses a token that has a record already.
    match s.records token with
    | some _ => some ((s.dropAll p (Phase.made token).held).goto p .idle)
    | none => some ((s.write token ⟨.run token, .opened⟩).goto p (.recorded token))
  | .recorded token, .finish =>
    some ((s.dropAll p (Phase.recorded token).held).goto p .idle)
  | .made token, .refuse =>
    some ((s.dropAll p (Phase.made token).held).goto p (.discarding token))
  | .discarding token, .discard =>
    some { s.goto p .idle with exist := Function.update s.exist (.run token) false }
  -- An open on a pool slot, which the placement keeps for it.
  | .idle, .openSlot token number =>
    match s.records token with
    | some _ => none
    | none => some (s.write token ⟨.slot number, .opened⟩)
  -- An adoption, by itself or as the resumption of a pinned branch.
  | .idle, .adopt token =>
    match s.records token with
    | none => none
    | some record => some (s.goto p (.adopting token record false))
  | .idle, .resume token =>
    match s.records token with
    | none => none
    | some record =>
      if record.state = .opened ∧ s.exist record.root then
        some (s.tryLease p record.root .resuming .shared (.adopting token record true) .idle)
      else none
  | .adopting token record resumed, .attach =>
    match (s.leases record.root).take ⟨p, .adopting⟩ .shared with
    | some lease =>
      some { s.goto p (.attached token record resumed) with
        leases := Function.update s.leases record.root lease }
    | none =>
      some ((s.dropAll p (Phase.adopting token record resumed).held).goto p .idle)
  | .attached token record resumed, .find =>
    if s.exist record.root then some (s.goto p (.found token record resumed))
    else some ((s.dropAll p (Phase.attached token record resumed).held).goto p .idle)
  | .found token record resumed, .reopen =>
    match s.records token with
    | none => some ((s.dropAll p (Phase.found token record resumed).held).goto p .idle)
    | some stored =>
      some ((s.write token { stored with state := .opened }).goto p
        (.reopened token record resumed))
  | .reopened token record resumed, .detach =>
    some ((s.dropAll p (Phase.reopened token record resumed).held).goto p .idle)
  -- Whatever closes a session.
  | .idle, .close token =>
    match s.records token with
    | none => none
    | some stored => some (s.write token { stored with state := .closed })
  | .idle, .visit root mode =>
    some (s.tryLease p root .visiting mode (.visiting root mode) .idle)
  | .visiting root mode, .leave =>
    some ((s.dropAll p (Phase.visiting root mode).held).goto p .idle)
  -- A walk.
  | .idle, .survey entries listed =>
    if s.Lists listed then some (s.goto p (.surveying entries listed [])) else none
  | .surveying entries [] snapshot, .read => some (s.goto p (.walking ⟨snapshot, entries, []⟩))
  | .surveying entries (token :: unread) snapshot, .read =>
    let snapshot :=
      match s.records token with
      | some ⟨root, .opened⟩ => root :: snapshot
      | _ => snapshot
    some (s.goto p (.surveying entries unread snapshot))
  | .walking walk, .next =>
    match walk.entries with
    | [] => some (s.goto p walk.outcome)
    | entry :: entries =>
      let walk := { walk with entries := entries }
      if s.exist (.run entry) ∧ .run entry ∉ walk.snapshot then
        some (s.goto p (.probing walk entry))
      else some (s.goto p (.walking walk))
  | .probing walk entry, .probe free =>
    some (s.goto p (if free then .taking walk entry else .walking walk))
  | .taking walk entry, .take =>
    some (s.tryLease p (.run entry) .reclaiming .exclusive (.taken walk entry) (.walking walk))
  | .taken walk entry, .relist listed =>
    if s.Lists listed then some (s.goto p (.relisting walk entry listed false)) else none
  | .relisting walk entry (token :: unread) named, .read =>
    let named := named || (s.records token).any fun record => record.names (.run entry)
    some (s.goto p (.relisting walk entry unread named))
  | .relisting walk entry [] named, .read =>
    if named then
      some ((s.drop p (.run entry) .reclaiming).goto p (.walking walk))
    else some (s.goto p (.abandoned walk entry))
  | .abandoned walk entry, .judge unpublished written =>
    if unpublished then
      some (s.goto p (.walking { walk with holdingWork := (written, entry) :: walk.holdingWork }))
    else some (s.goto p (.removing entry (.walking walk)))
  | .removing entry after, .remove =>
    some { s.goto p (.removed entry after) with
      exist := Function.update s.exist (.run entry) false }
  | .removed entry after, .release =>
    some ((s.drop p (.run entry) .reclaiming).goto p after.phase)
  | .finishing (entry :: retained) doomed, .release =>
    some ((s.drop p (.run entry) .reclaiming).goto p (.finishing retained doomed))
  | .finishing [] (entry :: doomed), .next =>
    some (s.goto p (.removing entry (.finishing doomed)))
  | .finishing [] [], .next => some (s.goto p .idle)
  -- A refusal on the way lets go of everything.
  | phase, .fail => some ((s.dropAll p phase.held).goto p .idle)
  | _, _ => none

end World

/-- Every run of a host that has no session yet. -/
def walks (τ π : Type) [DecidableEq τ] [DecidableEq π] : System (World τ π) (π × Act τ) where
  Initial s := s.records = (fun _ => none) ∧ s.tokens = [] ∧ s.exist = (fun _ => false) ∧
    s.leases = (fun _ => .free) ∧ s.process = fun _ => .idle
  step s label := s.act label.1 label.2

end Steps

end Onevcs.Sessions.Reclaim
