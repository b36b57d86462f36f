import Mathlib.Logic.Function.Basic
import Onevcs.Foundations.Flock
import Onevcs.Foundations.Transition

/-!
# Turns on an identity's lease file

The read and teardown turns of `checkout_reads.rs`, for any number of processes
with any number of threads each, on one identity root.

A process keeps one open of the lease file on behalf of its threads. Where that open
stands is the `File` in its `Holders`, which threads change only under the process's
mutex; the waits on the kernel happen outside it. A step of the model is therefore
either one passage through the mutex, or one action of the kernel on one lock file:
a wait granted, a wait refused, a description closed. What a thread keeps in local
variables between two steps (the guards it holds, which wait it is in) is its `Pc`.

A wait that passes its bound leaves behind a helper thread still queued at the
kernel, which closes the file at once when it is granted. Those abandoned
descriptions are granted and closed here at any time.
-/

namespace Onevcs.CheckoutReads

open Foundations

/-- An open file description: the process that opened it, told apart by a serial,
and whether the wait it was opened for has been abandoned. -/
structure Description (P : Type*) where
  owner : P
  serial : Nat
  abandoned : Bool
  deriving DecidableEq

inductive Upgrade (P : Type*)
  | sharing (shared : Description P)
  | intended
  | lapsed
  deriving DecidableEq

/-- Where a process's hold on the lease file stands. -/
inductive File (P : Type*)
  | free
  | acquiring
  | held (mode : Mode) (guard : Description P)
  | upgrading (upgrade : Upgrade P)
  deriving DecidableEq

/-- What the process's mutex guards. -/
structure Holders (P : Type*) where
  file : File P
  readers : Nat
  writers : Nat
  deriving DecidableEq

/-- Where a thread stands in `Hold::take`, with the guards it has in local variables. -/
inductive Pc (P : Type*)
  -- in no call
  | out
  -- at the head of the loop, about to look at the file
  | taking (mode : Mode)
  -- `acquire`: waiting for the lease
  | leasing (mode : Mode)
  -- `exclusive`: granted the lease, about to probe the intent
  | checking (guard : Description P)
  -- `exclusive`: the probe took the intent, which is about to be let go
  | cleared (guard intent : Description P)
  -- `exclusive`: the probe found the intent held; the lease is about to be let go
  | yielding (guard : Description P)
  -- `exclusive`: waiting for the intent, holding nothing
  | queueing
  -- `exclusive`: granted the intent, which is about to be let go
  | queued (intent : Description P)
  -- `acquire`: the take is done and about to be settled
  | leased (mode : Mode) (guard : Description P)
  -- `acquire`: the take was refused and is about to be settled
  | unleased
  -- `upgrade`: waiting for the intent
  | intending
  -- `upgrade`: granted the intent
  | intended (intent : Description P)
  -- `upgrade`: refused the intent
  | unintended
  -- `upgrade`: waiting for the lease exclusively
  | raising (intent : Description P)
  -- `upgrade`: granted the lease exclusively
  | raised (intent guard : Description P)
  -- `upgrade`: refused the lease
  | unraised (intent : Description P)
  -- `upgrade`: taking the readers' hold back
  | restoring (intent : Description P)
  -- `upgrade`: the readers' hold is back
  | restored (intent guard : Description P)
  -- `upgrade`: the readers' hold was refused
  | unrestored (intent : Description P)
  -- `upgrade`: the file is settled and the intent is about to be let go
  | leaving (intent : Description P)
  deriving DecidableEq

/-- One process: its `Holders`, its live `Hold` values with the thread that took each,
and where its threads stand. -/
structure Process (P T : Type*) where
  holders : Holders P
  holds : List (T × Mode)
  pc : T → Pc P

/-- The processes, and the two lock files at the identity root. -/
structure World (P T : Type*) where
  process : P → Process P T
  lease : Flock (Description P)
  intent : Flock (Description P)

/-- What a step of one process reads and writes. -/
structure View (P T : Type*) where
  process : Process P T
  lease : Flock (Description P)
  intent : Flock (Description P)

inductive LockFile
  | lease
  | intent
  deriving DecidableEq

/-- What happens in a step of one thread. `serial` names the description a wait opened. -/
inductive Act
  -- `Hold::take` is called
  | call (mode : Mode)
  -- the thread goes on to its next wait, or through one passage of the mutex
  | go
  -- the wait or the probe the thread is in is answered with the lock
  | granted (serial : Nat)
  -- the probe the thread is in finds the file held
  | busy
  -- the wait or the probe the thread is in fails or passes its bound
  | refused
  -- a `Hold` the thread took is dropped; `shares` is what `Guard::share` answers
  | drop (mode : Mode) (shares : Bool)
  -- the kernel grants a lock to an abandoned wait of this process
  | strayGranted (lock : LockFile) (mode : Mode) (serial : Nat)
  -- the abandoned wait's description is closed
  | strayClosed (lock : LockFile) (serial : Nat)
  deriving DecidableEq

section Definitions

variable {P T : Type*} [DecidableEq P] [DecidableEq T]

namespace Holders

def enter (h : Holders P) : Mode → Holders P
  | .shared => { h with readers := h.readers + 1 }
  | .exclusive => { h with writers := h.writers + 1 }

/-- The counting half of `Hold::drop`. -/
def leave (h : Holders P) : Mode → Holders P
  | .shared => { h with readers := h.readers - 1 }
  | .exclusive => { h with writers := h.writers - 1 }

end Holders

/-- Whether the process's hold already covers a take in `mode`. -/
def covered (file : File P) (mode : Mode) : Bool :=
  match file with
  | .held .exclusive _ => true
  | .held .shared _ => mode == .shared
  | .upgrading (.sharing _) => mode == .shared
  | .upgrading .intended => mode == .shared
  | .upgrading .lapsed => false
  | .free => false
  | .acquiring => false

namespace View

/-- Move thread `t` on, leaving everything else. -/
def moved (v : View P T) (t : T) (pc : Pc P) : View P T :=
  { v with process := { v.process with pc := Function.update v.process.pc t pc } }

def settle (v : View P T) (file : File P) : View P T :=
  { v with process := { v.process with holders := { v.process.holders with file := file } } }

/-- Hand a new `Hold` to thread `t`. -/
def enter (v : View P T) (t : T) (mode : Mode) : View P T :=
  { v with process :=
    { v.process with holders := v.process.holders.enter mode, holds := (t, mode) :: v.process.holds } }

/-- Close a description of the lease file. -/
def dropLease (v : View P T) (d : Description P) : View P T :=
  { v with lease := v.lease.drop d }

/-- Close a description of the intent file. -/
def dropIntent (v : View P T) (d : Description P) : View P T :=
  { v with intent := v.intent.drop d }

/-- A description of the lease file is granted. -/
def takeLease (v : View P T) (d : Description P) (mode : Mode) : Option (View P T) :=
  (v.lease.take d mode).map fun lease => { v with lease := lease }

/-- A description of the intent file is granted. -/
def takeIntent (v : View P T) (d : Description P) (mode : Mode) : Option (View P T) :=
  (v.intent.take d mode).map fun intent => { v with intent := intent }

/-- The head of the loop in `Hold::take`: enter when covered, else start to acquire or
to upgrade. A thread that meets a sibling's acquisition or upgrade waits for it. -/
def take (v : View P T) (t : T) (mode : Mode) : Option (View P T) :=
  if covered v.process.holders.file mode then
    some ((v.enter t mode).moved t .out)
  else
    match v.process.holders.file with
    | .free => some ((v.settle .acquiring).moved t (.leasing mode))
    | .held _ guard => some ((v.settle (.upgrading (.sharing guard))).moved t .intending)
    | .acquiring => none
    | .upgrading _ => none

/-- A thread goes on from where it stands. -/
def go (v : View P T) (t : T) : Option (View P T) :=
  match v.process.pc t with
  | .taking mode => v.take t mode
  | .cleared guard intent => some ((v.dropIntent intent).moved t (.leased .exclusive guard))
  | .yielding guard => some ((v.dropLease guard).moved t .queueing)
  | .queued intent => some ((v.dropIntent intent).moved t (.leasing .exclusive))
  | .leased mode guard => some (((v.settle (.held mode guard)).enter t mode).moved t .out)
  | .unleased => some ((v.settle .free).moved t .out)
  | .intended intent =>
    match v.process.holders.file with
    | .upgrading (.sharing shared) =>
      some (((v.settle (.upgrading .intended)).dropLease shared).moved t (.raising intent))
    | .upgrading .lapsed => some (v.moved t (.raising intent))
    | _ => none
  | .unintended =>
    match v.process.holders.file with
    | .upgrading (.sharing shared) => some ((v.settle (.held .shared shared)).moved t .out)
    | .upgrading .lapsed => some ((v.settle .free).moved t .out)
    | _ => none
  | .raised intent guard =>
    some ((((v.settle (.held .exclusive guard)).dropIntent intent).enter t .exclusive).moved t .out)
  | .unraised intent =>
    if 0 < v.process.holders.readers then
      some (v.moved t (.restoring intent))
    else
      some (((v.settle .free).dropIntent intent).moved t .out)
  | .restored intent guard =>
    if 0 < v.process.holders.readers then
      some (((v.settle (.held .shared guard)).dropIntent intent).moved t .out)
    else
      some (((v.dropLease guard).settle .free).moved t (.leaving intent))
  | .unrestored intent => some (((v.settle .free).dropIntent intent).moved t .out)
  | .leaving intent => some ((v.dropIntent intent).moved t .out)
  | _ => none

/-- The wait or the probe of a thread is answered with the lock, on description `d`. -/
def granted (v : View P T) (t : T) (d : Description P) : Option (View P T) :=
  match v.process.pc t with
  | .leasing .exclusive => (v.takeLease d .exclusive).map fun w => w.moved t (.checking d)
  | .leasing .shared => (v.takeLease d .shared).map fun w => w.moved t (.leased .shared d)
  | .checking guard => (v.takeIntent d .exclusive).map fun w => w.moved t (.cleared guard d)
  | .queueing => (v.takeIntent d .exclusive).map fun w => w.moved t (.queued d)
  | .intending => (v.takeIntent d .exclusive).map fun w => w.moved t (.intended d)
  | .raising intent => (v.takeLease d .exclusive).map fun w => w.moved t (.raised intent d)
  | .restoring intent => (v.takeLease d .shared).map fun w => w.moved t (.restored intent d)
  | _ => none

/-- The probe of the intent finds it held. -/
def busy (v : View P T) (t : T) : Option (View P T) :=
  match v.process.pc t with
  | .checking guard =>
    if v.intent.Grants .exclusive then none else some (v.moved t (.yielding guard))
  | _ => none

/-- The wait or the probe of a thread fails; what the error passes on its way out is
dropped. -/
def refused (v : View P T) (t : T) : Option (View P T) :=
  match v.process.pc t with
  | .leasing _ => some (v.moved t .unleased)
  | .checking guard => some ((v.dropLease guard).moved t .unleased)
  | .queueing => some (v.moved t .unleased)
  | .intending => some (v.moved t .unintended)
  | .raising intent => some (v.moved t (.unraised intent))
  | .restoring intent => some (v.moved t (.unrestored intent))
  | _ => none

/-- What `Hold::drop` makes of the file once the count is down: the last holder lets it
go, the last teardown hands it back to shared where the platform converts it. -/
def letGo (v : View P T) (mode : Mode) (shares : Bool) : View P T :=
  if v.process.holders.readers + v.process.holders.writers = 0 then
    match v.process.holders.file with
    | .held _ guard => (v.settle .free).dropLease guard
    | .upgrading (.sharing guard) => (v.settle (.upgrading .lapsed)).dropLease guard
    | _ => v
  else if mode = .exclusive ∧ v.process.holders.writers = 0 then
    match v.process.holders.file with
    | .held .exclusive guard =>
      if shares then
        { v.settle (.held .shared guard) with lease := v.lease.share guard }
      else v
    | _ => v
  else v

/-- `Hold::drop`, of a `Hold` thread `t` took in `mode`. -/
def drop (v : View P T) (t : T) (mode : Mode) (shares : Bool) : Option (View P T) :=
  if v.process.pc t = .out ∧ (t, mode) ∈ v.process.holds then
    let process := { v.process with
      holders := v.process.holders.leave mode, holds := v.process.holds.erase (t, mode) }
    some ({ v with process := process }.letGo mode shares)
  else none

/-- One step of thread `t` of process `p`. -/
def step (p : P) (v : View P T) (t : T) : Act → Option (View P T)
  | .call mode => if v.process.pc t = .out then some (v.moved t (.taking mode)) else none
  | .go => v.go t
  | .granted serial => v.granted t ⟨p, serial, false⟩
  | .busy => v.busy t
  | .refused => v.refused t
  | .drop mode shares => v.drop t mode shares
  | .strayGranted .lease mode serial => v.takeLease ⟨p, serial, true⟩ mode
  | .strayGranted .intent mode serial => v.takeIntent ⟨p, serial, true⟩ mode
  | .strayClosed .lease serial => some (v.dropLease ⟨p, serial, true⟩)
  | .strayClosed .intent serial => some (v.dropIntent ⟨p, serial, true⟩)

end View

namespace World

/-- What process `p` sees. -/
def view (w : World P T) (p : P) : View P T := ⟨w.process p, w.lease, w.intent⟩

/-- The world once process `p` has made its view into `v`. -/
def adopt (w : World P T) (p : P) (v : View P T) : World P T :=
  ⟨Function.update w.process p v.process, v.lease, v.intent⟩

/-- Nobody has called anything yet. -/
def initial : World P T where
  process _ := { holders := ⟨.free, 0, 0⟩, holds := [], pc := fun _ => .out }
  lease := .free
  intent := .free

/-- One step of the world: thread `label.2.1` of process `label.1` acts. -/
def step (w : World P T) (label : P × T × Act) : Option (World P T) :=
  ((w.view label.1).step label.1 label.2.1 label.2.2).map (w.adopt label.1)

end World

/-- All interleavings of turns on one identity root. -/
def turns (P T : Type*) [DecidableEq P] [DecidableEq T] :
    System (World P T) (P × T × Act) where
  Initial w := w = World.initial
  step := World.step

/-- The thread waits to take its process's readers' hold back. -/
def Pc.isRestoring : Pc P → Bool
  | .restoring _ => true
  | _ => false

/-- The step does not refuse a shared take that restores the readers' hold. -/
def RestoringTakeSucceeds (w : World P T) (label : P × T × Act) : Prop :=
  label.2.2 = .refused → ((w.process label.1).pc label.2.1).isRestoring = false

instance (w : World P T) (label : P × T × Act) : Decidable (RestoringTakeSucceeds w label) :=
  inferInstanceAs (Decidable (_ → _))

end Definitions

end Onevcs.CheckoutReads
