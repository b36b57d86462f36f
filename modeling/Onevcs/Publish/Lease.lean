import Mathlib.Data.Char
import Mathlib.Data.List.Lex
import Mathlib.Data.List.Sort
import Onevcs.Foundations.Transition

/-!
# The occupancy lease of a running publication

`publishing.rs`'s `Lease::take`, its drop and `running`, and `lock.rs`'s `try_shared` and
`is_occupied` under them: publications of one branch of one identity, several of which may share
a run root, and readers that ask whether any is running.

A publication takes its run root's lock shared, writes a record of its own, and on its end
removes the record before it lets the lock go; a publication that dies lets the lock go and
leaves its record. A reader lists the records, and asks of each in turn whether its run root's
lock is held, by taking it exclusively for an instant. Every one of these is a step, taken by
any of them in any order. What is carried along with a read is which leases have been held at
every step since it listed, and whether no lock has been.

A record that is not one `take` writes, which the reader refuses, is left out.
-/

namespace Onevcs.Publish

open Foundations (System)

namespace Lease

variable {Path : Type}

/-- `Record`: the run root of a publication, and its workspace. -/
structure Record (Path : Type) where
  runRoot : Path
  worktree : Path
  deriving DecidableEq

/-- How far a publication is with its lease. -/
inductive Stage
  /-- The lock is held, the record not yet written. -/
  | locked
  | held
  /-- The record is removed, the lock not yet let go. -/
  | removed
  deriving DecidableEq

/-- `Lease`: a publication's hold, from its taking the lock to its letting it go. The name is
that of its record, no two of which are alike. -/
structure Holder (Path : Type) where
  name : ℕ
  record : Record Path
  stage : Stage

/-- How far a read is. -/
inductive Asking (Path : Type)
  /-- Records left to look at. -/
  | listed (todo : List ℕ)
  /-- A record was read, its lock not yet asked. -/
  | opened (name : ℕ) (record : Record Path) (todo : List ℕ)
  /-- The lock was free, and is held exclusively until the probe lets it go. -/
  | probing (name : ℕ) (record : Record Path) (todo : List ℕ)
  | answered (found : Option Path)
  | gone
  deriving DecidableEq

/-- A call of `running`, with the leases held at every step since it listed, and whether no
lock has been. -/
structure Read (Path : Type) where
  asking : Asking Path
  kept : List ℕ
  free : Bool
  deriving DecidableEq

/-- The holds, the records by name, the reads, and the run roots of the publications refused. -/
structure World (Path : Type) where
  holders : List (Holder Path)
  records : List (ℕ × Record Path)
  /-- The names `ids::unique` has answered. -/
  used : List ℕ
  reads : List (Read Path)
  refused : List Path

/-- What a publication or a reader does next. -/
inductive Label (Path : Type)
  | take (name : ℕ) (record : Record Path)
  | write (name : ℕ)
  | remove (name : ℕ)
  | unlock (name : ℕ)
  | die (name : ℕ)
  | list
  | look (read : ℕ)
  | probe (read : ℕ)
  | release (read : ℕ)
  | leave (read : ℕ)

/-! ## The locks -/

/-- A read is asking about a run root's lock by holding it exclusively. -/
def Asking.probes [DecidableEq Path] (runRoot : Path) : Asking Path → Bool
  | .probing _ record _ => record.runRoot == runRoot
  | _ => false

def Asking.live : Asking Path → Bool
  | .answered _ | .gone => false
  | _ => true

namespace World

variable (s : World Path)

/-- A publication holds a run root's lock. -/
def shared [DecidableEq Path] (runRoot : Path) : Bool :=
  s.holders.any fun holder => holder.record.runRoot == runRoot

/-- A run root's lock is held exclusively. -/
def exclusive [DecidableEq Path] (runRoot : Path) : Bool :=
  s.reads.any fun read => read.asking.probes runRoot

def heldNames : List ℕ :=
  (s.holders.filter fun holder => holder.stage == .held).map Holder.name

/-- What is carried along with each read, after a step. -/
def observed : World Path :=
  { s with
    reads := s.reads.map fun read =>
      if read.asking.live then
        { read with
          kept := read.kept.filter (s.heldNames.contains ·)
          free := read.free && s.holders.isEmpty }
      else read }

def staged (name : ℕ) (stage : Stage) : List (Holder Path) :=
  s.holders.map fun holder => if holder.name = name then { holder with stage := stage } else holder

/-- The hold of that name, at a stage. -/
def holderAt (name : ℕ) (stage : Stage) : Option (Holder Path) :=
  s.holders.find? fun holder => holder.name == name && holder.stage == stage

/-- A read goes on to ask otherwise. -/
def asks (index : ℕ) (asking : Asking Path) : World Path :=
  { s with reads := s.reads.modify index fun read => { read with asking := asking } }

end World

section Steps

variable (s : World Path)

/-- `Lease::take`, up to its lock: `try_shared`. -/
def take [DecidableEq Path] (name : ℕ) (record : Record Path) : Option (World Path) :=
  if name ∈ s.used then none
  else if s.exclusive record.runRoot then
    some { s with used := name :: s.used, refused := record.runRoot :: s.refused }
  else some { s with used := name :: s.used, holders := s.holders ++ [⟨name, record, .locked⟩] }

/-- `Lease::take`, its record. -/
def write (name : ℕ) : Option (World Path) :=
  (s.holderAt name .locked).map fun holder =>
    { s with
      holders := s.staged name .held
      records := s.records ++ [(name, holder.record)] }

/-- `Lease`'s drop: its record is removed. -/
def remove (name : ℕ) : Option (World Path) :=
  (s.holderAt name .held).map fun _ =>
    { s with
      holders := s.staged name .removed
      records := s.records.filter fun entry => entry.1 != name }

/-- `Lease`'s drop: its lock is let go. -/
def unlock (name : ℕ) : Option (World Path) :=
  (s.holderAt name .removed).map fun _ =>
    { s with holders := s.holders.filter fun holder => holder.name != name }

/-- A publication dies, and its lock is let go. -/
def die (name : ℕ) : Option (World Path) :=
  if s.holders.any fun holder => holder.name == name then
    some { s with holders := s.holders.filter fun holder => holder.name != name }
  else none

/-- `running`, its listing: the finished records, in order. -/
def list : World Path :=
  { s with
    reads := s.reads ++
      [⟨.listed ((s.records.map Prod.fst).insertionSort (· ≤ ·)), s.heldNames, true⟩] }

/-- `running`, the next record: one that has gone since is passed over. -/
def look (index : ℕ) : Option (World Path) :=
  match s.reads[index]?.map Read.asking with
  | some (.listed []) => some (s.asks index (.answered none))
  | some (.listed (name :: todo)) =>
    match s.records.lookup name with
    | some record => some (s.asks index (.opened name record todo))
    | none => some (s.asks index (.listed todo))
  | _ => none

/-- `is_occupied`, up to its `try_lock_exclusive`: a lock somebody holds is occupied. -/
def probe [DecidableEq Path] (index : ℕ) : Option (World Path) :=
  match s.reads[index]?.map Read.asking with
  | some (.opened name record todo) =>
    if s.shared record.runRoot || s.exclusive record.runRoot then
      some (s.asks index (.answered (some record.worktree)))
    else some (s.asks index (.probing name record todo))
  | _ => none

/-- `is_occupied`, its unlock: nobody held the lock. -/
def release (index : ℕ) : Option (World Path) :=
  match s.reads[index]?.map Read.asking with
  | some (.probing _ _ todo) => some (s.asks index (.listed todo))
  | _ => none

def leave (index : ℕ) : Option (World Path) :=
  if index < s.reads.length then some (s.asks index .gone) else none

def act [DecidableEq Path] : Label Path → Option (World Path)
  | .take name record => take s name record
  | .write name => write s name
  | .remove name => remove s name
  | .unlock name => unlock s name
  | .die name => die s name
  | .list => some (list s)
  | .look read => look s read
  | .probe read => probe s read
  | .release read => release s read
  | .leave read => leave s read

end Steps

/-- Nobody publishes and nobody reads; dead publishers have left any records. -/
structure Initial (s : World Path) : Prop where
  holders : s.holders = []
  reads : s.reads = []
  refused : s.refused = []
  used : ∀ entry ∈ s.records, entry.1 ∈ s.used

variable (Path) in
/-- Publications and readers of one branch. -/
def system [DecidableEq Path] : System (World Path) (Label Path) where
  Initial := Initial
  step s label := (act s label).map World.observed

/-- A read is right: where a lease was held throughout it answers a workspace, and where no lock
was it answers none. -/
def Read.Right (read : Read Path) : Prop :=
  ∀ found, read.asking = .answered found →
    (read.kept ≠ [] → found.isSome) ∧ (read.free = true → found = none)

/-- Every read is right, and no publication was refused its lease. -/
structure Right (s : World Path) : Prop where
  reads : ∀ read ∈ s.reads, read.Right
  refused : s.refused = []

/-- A publication does not start on a run root whose lock a reader is asking about, and a reader
does not ask about a lock that another is asking about, unless some lock was held since it
listed. -/
def apart [DecidableEq Path] (s : World Path) : Label Path → Bool
  | .take name record => s.used.contains name || !s.exclusive record.runRoot
  | .probe index =>
    match s.reads[index]? with
    | some ⟨.opened _ record _, _, free⟩ => !free || !s.exclusive record.runRoot
    | _ => true
  | _ => true

def Apart [DecidableEq Path] (s : World Path) (label : Label Path) : Prop := apart s label = true

end Lease

end Onevcs.Publish
