import Onevcs.Foundations.Flock
import Onevcs.Foundations.Fifo
import Onevcs.Foundations.Transition

/-!
# The merge queue of an identity

`turn`, `mutate`, `reap` and `Turn::drop` of `queue.rs`, for any number of processes with
any number of calls each, on one identity. Every call has a ticket of its own, as
`ids::unique` gives them, so a call and its ticket are one here.

A mutation of the queue is a take of the state lock, a read of the state file, a probe of
each ticket's lease, and a write; a process may die between any two of them, which closes
its files and leaves what it wrote. Before the write a mutation may also fail: the lock's
bound passes, the file is not one this build reads, a probe cannot be made.
-/

namespace Onevcs.Queue

open Foundations (Flock System)

/-- The changes `mutate` is called with: the push, a look at the head, and the two that take
the ticket back, for a wait that is over and for a turn that is dropped. -/
inductive Job
  | push
  | look
  | withdraw
  | dequeue
  deriving DecidableEq

/-- Where a call stands. -/
inductive Phase (τ : Type)
  | idle
  -- `mutate`: waiting for the state lock
  | waiting (job : Job)
  -- `mutate`: about to read the state
  | reading (job : Job)
  -- `reap`: the tickets not probed yet, and those found live
  | reaping (job : Job) (unprobed live : List τ)
  -- `mutate`: the state is written, and the lock about to be let go
  | written (job : Job) (atHead : Bool)
  -- not at the head: to be cancelled, timed out, or look again
  | looked
  -- `turn` returned the `Turn`
  | holding
  -- the lease is about to be let go
  | leaving
  | finished
  | dead

inductive File (τ : Type)
  | absent
  | unreadable
  | state (version : Nat) (tickets : List τ)

def File.read {τ : Type} : File τ → Option (List τ)
  | .absent => some []
  | .unreadable => none
  | .state version tickets => if version = 1 then some tickets else none

namespace Phase

variable {τ : Type}

/-- The call keeps the lease on its ticket. -/
def live : Phase τ → Bool
  | .idle | .finished | .dead => false
  | _ => true

/-- The call has the state lock. -/
def mutating : Phase τ → Bool
  | .reading _ | .reaping _ _ _ | .written _ _ => true
  | _ => false

/-- The call has the turn, until it is dequeued. -/
def holds : Phase τ → Bool
  | .written .look atHead => atHead
  | .holding => true
  | .waiting .dequeue | .reading .dequeue | .reaping .dequeue _ _ => true
  | _ => false

/-- The call waits for the turn, its ticket pushed. -/
def waits : Phase τ → Bool
  | .written .push _ | .looked => true
  | .written .look atHead => !atHead
  | .waiting .look | .reading .look | .reaping .look _ _ => true
  | _ => false

/-- The call is taking its ticket back without having had the turn. -/
def withdraws : Phase τ → Bool
  | .waiting .withdraw | .reading .withdraw | .reaping .withdraw _ _ => true
  | _ => false

/-- The ticket is in the queue as far as the call knows. -/
def queued (phase : Phase τ) : Bool := phase.holds || phase.waits || phase.withdraws

/-- The ticket is not pushed yet. -/
def unpushed : Phase τ → Bool
  | .idle | .waiting .push | .reading .push | .reaping .push _ _ => true
  | _ => false

end Phase

/-- The state file and its lock, the leases, the calls, and what was pushed and granted in
order. -/
structure World (τ : Type) where
  file : File τ
  lock : Option τ
  leases : τ → Flock τ
  phase : τ → Phase τ
  pushed : List τ
  granted : List τ

/-- What a call can do next. -/
inductive Act
  | claim
  | take
  | read
  | probe
  | write
  | release
  | fail
  | again
  | cancel
  | drop
  | leave

/-- A call acts, or a process dies. -/
inductive Label (τ π : Type)
  | act (t : τ) (act : Act)
  | die (p : π)

section Steps

variable {τ π : Type} [DecidableEq τ] [DecidableEq π]

/-- The queue after a change to what is live of it. -/
def Job.change (job : Job) (t : τ) (live : List τ) : List τ :=
  match job with
  | .push => live ++ [t]
  | .look => live
  | .withdraw | .dequeue => live.filter fun id => id ≠ t

/-- What a call does once its mutation is done. -/
def Job.next (job : Job) (atHead : Bool) : Phase τ :=
  match job with
  | .push => .waiting .look
  | .look => if atHead then .holding else .looked
  | .withdraw | .dequeue => .leaving

/-- A look that finds the ticket at the head of the queue. -/
def Job.wins (job : Job) (t : τ) (live : List τ) : Bool :=
  job = .look && live.head? = some t

namespace World

variable (s : World τ)

def tickets : List τ := s.file.read.getD []

def goto (t : τ) (phase : Phase τ) : World τ :=
  { s with phase := Function.update s.phase t phase }

def write (t : τ) (job : Job) (live : List τ) : World τ :=
  { s.goto t (.written job (job.wins t live)) with
    file := .state 1 (job.change t live)
    pushed := if job = .push then s.pushed ++ [t] else s.pushed
    granted := if job.wins t live then s.granted ++ [t] else s.granted }

def act (t : τ) (act : Act) : Option (World τ) :=
  match s.phase t, act with
  | .idle, .claim =>
    match (s.leases t).take t .shared with
    | some lease =>
      some { s.goto t (.waiting .push) with leases := Function.update s.leases t lease }
    | none => some (s.goto t .finished)
  | .waiting job, .take =>
    if s.lock = none then some { s.goto t (.reading job) with lock := some t } else none
  | .reading job, .read =>
    match s.file.read with
    | some tickets => some (s.goto t (.reaping job tickets []))
    | none => some { s.goto t .leaving with lock := none }
  | .reaping job (ticket :: unprobed) live, .probe =>
    -- `try_exclusive`, let go at once where it is granted.
    if (s.leases ticket).Grants .exclusive then some (s.goto t (.reaping job unprobed live))
    else some (s.goto t (.reaping job unprobed (live ++ [ticket])))
  | .reaping job [] live, .write => some (s.write t job live)
  | .written job atHead, .release => some { s.goto t (job.next atHead) with lock := none }
  -- `turn` returns the error; a withdrawal and a `drop` go on without their mutation.
  | .waiting _, .fail => some (s.goto t .leaving)
  | .reading _, .fail | .reaping _ _ _, .fail => some { s.goto t .leaving with lock := none }
  | .looked, .again => some (s.goto t (.waiting .look))
  | .looked, .cancel => some (s.goto t (.waiting .withdraw))
  | .holding, .drop => some (s.goto t (.waiting .dequeue))
  | .leaving, .leave =>
    some { s.goto t .finished with leases := Function.update s.leases t ((s.leases t).drop t) }
  | _, _ => none

/-- A process dies: its calls end where they stand, and the kernel lets go of its locks. -/
def die (process : τ → π) (p : π) : World τ :=
  { s with
    lock := s.lock.filter fun t => process t ≠ p
    leases := fun t => if process t = p then (s.leases t).drop t else s.leases t
    phase := fun t => if process t = p then .dead else s.phase t }

def step (process : τ → π) : Label τ π → Option (World τ)
  | .act t act => s.act t act
  | .die p => some (s.die process p)

end World

/-- The queue, with the tickets earlier processes left in it, and the calls to come. -/
def queueing (process : τ → π) : System (World τ) (Label τ π) where
  Initial s := s.lock = none ∧ (∀ t, (s.leases t).held = []) ∧
    (∀ t, s.phase t = .idle ∨ s.phase t = .dead) ∧ s.tickets.Nodup ∧
    (∀ t ∈ s.tickets, s.phase t = .dead) ∧ s.pushed = s.tickets ∧ s.granted = []
  step s := s.step process

end Steps

end Onevcs.Queue
