import Mathlib.Data.List.AList
import Mathlib.Data.List.Sort
import Onevcs.Foundations.Transition

/-!
# A sweep of the session records beside their writers

`records` of `sweep.rs` with `all`, `spent_among`, `spent`, `holds_unpublished_work` and
`forget` of `workspace.rs`, beside any number of `create` and `update`.

Every write of a record takes the record's own lock; the sweep reads and removes with none. A
step is one record read, one question asked, one file stated or removed, or one lock taken or
let go. What answers a question changes by steps of its own: a process enters a run root or
leaves it, a worktree is changed, a branch gains work or has it published, an owner dies, time
passes. What an adoption or a close checks before its update is left out, so a record is
updated here in every order it can be, and more.

A session is placed once, as it is opened, so its placement is a function of its token.
-/

namespace Onevcs.Sweep.Records

open Foundations (System)

inductive Lifecycle
  | opened
  | closed
  deriving DecidableEq

/-- What a session record says that no update of it changes. -/
structure Placement (ρ β : Type) where
  branch : β
  runRoot : ρ
  slot : Option Nat

/-- A session record, but for its placement. The owner is a process id with its creation
identity; a record whose owner could not be identified has none. -/
structure Record (τ π : Type) where
  state : Lifecycle
  owner : Option π
  retriedBy : Option τ
  deriving DecidableEq

/-- A record's file. -/
structure Stored (τ π : Type) where
  record : Record τ π
  modified : Nat

structure Worktree (β : Type) where
  -- `none` where it is on no branch
  current : Option β
  dirty : Bool

/-- What `spent` asks of a record, in the order it asks. -/
inductive Question
  | owner
  | inside
  | work
  | dirty
  deriving DecidableEq

/-- Whether git answered what was asked of a worktree: the branch it is on, and its status. -/
structure Reads where
  current : Bool
  status : Bool

/-- What a question is answered from besides the host as it is: the run roots that sessions
hold open, whether git answers, and whether the branch was found to hold work. -/
structure View (τ ρ : Type) where
  openRoots : List (τ × ρ)
  reads : Reads
  work : Bool

section Questions

variable {τ ρ β π : Type} [DecidableEq τ] [DecidableEq ρ] [DecidableEq β]

/-- `OpenRoots::of`. -/
def openRoots (placed : τ → Placement ρ β) (records : List (τ × Record τ π)) : List (τ × ρ) :=
  (records.filter fun entry => entry.2.state = .opened).map fun entry =>
    (entry.1, (placed entry.1).runRoot)

def takenFrom (openRoots : List (τ × ρ)) (token : τ) (root : ρ) : Bool :=
  openRoots.any fun entry => entry.2 = root && entry.1 ≠ token

/-- `tree_is_its_own_of`. -/
def treeIsItsOwn (place : Placement ρ β) (view : View τ ρ) (token : τ)
    (record : Record τ π) (worktree : Option (Worktree β)) : Bool :=
  place.slot.isNone || record.state = .opened ||
    (!takenFrom view.openRoots token place.runRoot &&
      worktree.any fun tree => view.reads.current && tree.current = some place.branch)

end Questions

/-! ## The host -/

/-- Since when a session was adopted, as far as a sweep is concerned. -/
inductive Since
  | listed
  | aged
  deriving DecidableEq

/-- What an `update` changes. -/
inductive Change (τ : Type)
  -- `adopt_with`; whether this process's own creation identity could be read
  | adopt (identified : Bool)
  | close
  -- `record_retry`
  | retry (next : τ)
  -- the labels of a resumption, the base of a publication
  | note
  deriving DecidableEq

/-- What a write of a record is for. -/
inductive Write (τ : Type)
  | create (identified : Bool)
  | update (change : Change τ)
  deriving DecidableEq

/-- Where a process stands in a write of a record. -/
inductive Call (τ π : Type)
  | idle
  | locked (token : τ) (write : Write τ)
  -- about to save
  | ready (token : τ) (write : Write τ) (record : Record τ π)
  -- saved or refused; the lock is about to be let go
  | settled (token : τ)
  deriving DecidableEq

/-- What a sweep was asked for. -/
structure Request where
  dryRun : Bool
  minAge : Nat

inductive Forgetting
  | fresh (age floor : Nat)
  | forgotten
  | kept
  deriving DecidableEq

/-- How far a spent record is from being removed. -/
inductive Aging
  | due
  -- the time is read; the file is not stated yet
  | timed (now : Nat)
  | old

/-- Where the sweep stands. -/
inductive Phase (τ π : Type)
  | idle
  -- the entries still to read, and the records read
  | listing (entries : List τ) (listed : List (τ × Record τ π))
  -- the listing, those of it still to judge, the question in hand, what was found of the
  -- work behind a branch, and the spent records
  | judging (listed rest : List (τ × Record τ π)) (question : Question)
      (evidence : τ → Option Bool) (found : List (τ × Record τ π))
  | forgetting (rest : List (τ × Record τ π)) (aging : Aging)

/-- A record was removed: how each question stood, and whether the session had been adopted
since it was listed. -/
structure Forgotten (τ : Type) where
  token : τ
  spent : Question → Bool
  adopted : Bool

/-- A host: the records and their locks, the writes in flight, the processes, what works in
each run root, the worktrees, the branches that hold unpublished work, the time, the sweep, its
report and the records it removed. Beside these: which questions have turned since the sweep
asked them, and which sessions were adopted since it listed them and since it read their age. -/
structure World (τ ρ β π : Type) where
  records : AList fun _ : τ => Stored τ π
  lock : τ → Option π
  call : π → Call τ π
  running : π → Bool
  working : ρ → Bool
  worktree : ρ → Option (Worktree β)
  unpublished : τ → Bool
  clock : Nat
  request : Request
  sweep : Phase τ π
  report : List (τ × Forgetting)
  forgotten : List (Forgotten τ)
  turned : τ → Question → Bool
  adopted : Since → τ → Bool

/-- What the sweep does next. -/
inductive SweepAct (τ : Type)
  | list (request : Request) (entries : List τ)
  | read
  | judge
  -- `record_has_work`, from what is read once and kept for the pass
  | gather (token : τ)
  | ask (reads : Reads)
  | time
  | age (stated : Bool)
  | remove (removed : Bool)
  -- it is through, has failed or died
  | stop

/-- What a writer does next. -/
inductive Act (τ : Type)
  | take (token : τ) (write : Write τ)
  | load
  -- whether the link could be followed and the file written
  | save (written : Bool)
  | release

/-- A step of a host. -/
inductive Label (τ ρ β π : Type)
  | sweep (act : SweepAct τ)
  | act (p : π) (act : Act τ)
  | die (p : π)
  | occupy (root : ρ) (working : Bool)
  | tree (root : ρ) (worktree : Option (Worktree β))
  | work (token : τ) (unpublished : Bool)
  | time (now : Nat)

/-- The record a change makes of the one a process `p` loaded. -/
def Change.apply {τ π : Type} (p : π) (record : Record τ π) : Change τ → Record τ π
  | .adopt identified =>
    { record with state := .opened, owner := if identified then some p else none }
  | .close => { record with state := .closed }
  | .retry next => { record with retriedBy := some next }
  | .note => record

/-- A session is opened or adopted by the write. -/
def Write.adopts {τ : Type} : Write τ → Bool
  | .create _ => true
  | .update (.adopt _) => true
  | .update _ => false

section Steps

variable {τ ρ β π : Type} [LinearOrder τ] [DecidableEq ρ] [DecidableEq β] [DecidableEq π]

namespace World

/-- The record of a token, where there is one. -/
def record (s : World τ ρ β π) (token : τ) : Option (Record τ π) :=
  (s.records.lookup token).map Stored.record

def all (s : World τ ρ β π) : List (τ × Record τ π) :=
  s.records.entries.map fun entry => (entry.1, entry.2.record)

/-- How a question stands for a record. -/
def answers (placed : τ → Placement ρ β) (s : World τ ρ β π) (view : View τ ρ) (token : τ)
    (record : Record τ π) : Question → Bool
  | .owner => !record.owner.any s.running
  | .inside =>
    !(treeIsItsOwn (placed token) view token record (s.worktree (placed token).runRoot) &&
      s.working (placed token).runRoot)
  | .work => !view.work
  | .dirty =>
    !(treeIsItsOwn (placed token) view token record (s.worktree (placed token).runRoot) &&
      (s.worktree (placed token).runRoot).any fun tree => !view.reads.status || tree.dirty)

/-- What there is to see of a token now, where every read succeeds. -/
def view (placed : τ → Placement ρ β) (s : World τ ρ β π) (token : τ) : View τ ρ :=
  ⟨openRoots placed s.all, ⟨true, true⟩, s.unpublished token⟩

/-- How a question stands now for the record as it is. -/
def spent (placed : τ → Placement ρ β) (s : World τ ρ β π) (token : τ) (question : Question) :
    Bool :=
  (s.record token).all fun record => s.answers placed (s.view placed token) token record question

/-- What the age of a record is read to be. -/
def age (s : World τ ρ β π) (now : Nat) (stated : Bool) (token : τ) : Nat :=
  if stated then (s.records.lookup token).elim 0 fun stored => now - stored.modified else 0

/-- A question was asked: it has not turned since, if it stands for the record as it is. -/
def asked (placed : τ → Placement ρ β) (s : World τ ρ β π) (token : τ) (question : Question) :
    World τ ρ β π :=
  { s with
    turned := fun other about =>
      if other = token ∧ about = question ∧ s.spent placed token question = true then false
      else s.turned other about }

/-- The questions that a step has turned. -/
def marked (placed : τ → Placement ρ β) (before after : World τ ρ β π) : World τ ρ β π :=
  { after with
    turned := fun token question =>
      after.turned token question ||
        (before.spent placed token question && !after.spent placed token question) }

/-- The answer to the question in hand, for the record in hand. -/
def answer (placed : τ → Placement ρ β) (s : World τ ρ β π) (listed : List (τ × Record τ π))
    (reads : Reads) (work : Bool) (token : τ) (record : Record τ π) (question : Question) :
    Bool :=
  s.answers placed ⟨openRoots placed listed, reads, work⟩ token record question

/-- The report on the record in hand is made, and the next is gone on to. -/
def reported (s : World τ ρ β π) (token : τ) (outcome : Forgetting)
    (rest : List (τ × Record τ π)) : World τ ρ β π :=
  { s with report := s.report ++ [(token, outcome)], sweep := .forgetting rest .due }

/-- `spent`, one question at a time: a record is gone on from at the first that does not
stand. -/
def judged (s : World τ ρ β π) (listed : List (τ × Record τ π)) (token : τ)
    (record : Record τ π) (rest : List (τ × Record τ π)) (question : Question)
    (evidence : τ → Option Bool) (found : List (τ × Record τ π)) (stands : Bool) :
    World τ ρ β π :=
  { s with
    sweep :=
      match stands, question with
      | false, _ => .judging listed rest .owner evidence found
      | true, .owner => .judging listed ((token, record) :: rest) .inside evidence found
      | true, .inside => .judging listed ((token, record) :: rest) .work evidence found
      | true, .work => .judging listed ((token, record) :: rest) .dirty evidence found
      | true, .dirty => .judging listed rest .owner evidence (found ++ [(token, record)]) }

def sweepStep (placed : τ → Placement ρ β) (s : World τ ρ β π) :
    SweepAct τ → Option (World τ ρ β π)
  | .list request entries =>
    match s.sweep with
    | .idle =>
      -- the names in a directory differ
      if entries.Nodup then
        some { s with request := request, report := [], sweep := .listing entries [] }
      else none
    | _ => none
  | .read =>
    match s.sweep with
    | .listing (token :: entries) listed =>
      match s.record token with
      | none => some { s with sweep := .listing entries listed }
      | some record =>
        some { s with
          sweep := .listing entries (listed ++ [(token, record)])
          adopted := fun since other =>
            if since = .listed ∧ other = token then false else s.adopted since other }
    | _ => none
  | .judge =>
    match s.sweep with
    | .listing [] listed =>
      let sorted := listed.insertionSort fun one other => one.1 ≤ other.1
      some { s with sweep := .judging sorted sorted .owner (fun _ => none) [] }
    | _ => none
  | .gather token =>
    match s.sweep with
    | .judging listed rest question evidence found =>
      if evidence token = none then
        some { s.asked placed token .work with
          sweep := .judging listed rest question
            (Function.update evidence token (some (s.unpublished token))) found }
      else none
    | _ => none
  | .ask reads =>
    match s.sweep with
    | .judging _ [] _ _ found => some { s with sweep := .forgetting found .due }
    | .judging listed ((token, record) :: rest) question evidence found =>
      match question, evidence token with
      | .work, none => none
      | .work, some work =>
        some (s.judged listed token record rest .work evidence found !work)
      | question, _ =>
        some ((s.asked placed token question).judged listed token record rest question
          evidence found (s.answer placed listed reads false token record question))
    | _ => none
  | .time =>
    match s.sweep with
    | .forgetting rest .due => some { s with sweep := .forgetting rest (.timed s.clock) }
    | _ => none
  | .age stated =>
    match s.sweep with
    | .forgetting ((token, record) :: rest) (.timed now) =>
      if s.age now stated token < s.request.minAge then
        some (s.reported token (.fresh (s.age now stated token) s.request.minAge) rest)
      else if s.request.dryRun then some (s.reported token .forgotten rest)
      else
        some { s with
          sweep := .forgetting ((token, record) :: rest) .old
          adopted := fun since other =>
            if since = .aged ∧ other = token then false else s.adopted since other }
    | _ => none
  | .remove removed =>
    match s.sweep with
    | .forgetting ((token, _) :: rest) .old =>
      if removed then
        some { s.reported token .forgotten rest with
          records := s.records.erase token
          forgotten :=
            if token ∈ s.records then
              s.forgotten ++ [⟨token, s.spent placed token, s.adopted .listed token⟩]
            else s.forgotten }
      else some (s.reported token .kept rest)
    | _ => none
  | .stop =>
    some { s with
      sweep := .idle
      report := s.report.insertionSort fun one other => one.1 ≤ other.1 }

def writerStep (s : World τ ρ β π) (p : π) : Act τ → Option (World τ ρ β π)
  | .take token write =>
    if s.call p = .idle ∧ s.lock token = none then
      some { s with
        lock := Function.update s.lock token (some p)
        call := Function.update s.call p (.locked token write) }
    else none
  | .load =>
    match s.call p with
    | .locked token (.create identified) =>
      -- a record that is already there is refused
      let created : Record τ π := ⟨.opened, if identified then some p else none, none⟩
      some { s with
        call := Function.update s.call p
          (if token ∈ s.records then .settled token
           else .ready token (.create identified) created) }
    | .locked token (.update change) =>
      some { s with
        call := Function.update s.call p
          ((s.record token).elim (.settled token) fun record =>
            .ready token (.update change) (change.apply p record)) }
    | _ => none
  | .save written =>
    match s.call p with
    | .ready token write record =>
      if written then
        some { s with
          records := s.records.insert token ⟨record, s.clock⟩
          call := Function.update s.call p (.settled token)
          adopted := fun since other =>
            s.adopted since other || (decide (other = token) && write.adopts) }
      else some { s with call := Function.update s.call p (.settled token) }
    | _ => none
  | .release =>
    match s.call p with
    | .settled token =>
      some { s with
        lock := Function.update s.lock token none
        call := Function.update s.call p .idle }
    | _ => none

/-- A step of a host, before what it turned is marked. -/
def move (placed : τ → Placement ρ β) (s : World τ ρ β π) :
    Label τ ρ β π → Option (World τ ρ β π)
  | .sweep act => s.sweepStep placed act
  | .act p act => if s.running p then s.writerStep p act else none
  -- its locks go with it
  | .die p =>
    some { s with
      running := Function.update s.running p false
      lock := fun token => if s.lock token = some p then none else s.lock token
      call := Function.update s.call p .idle }
  | .occupy root working =>
    some { s with working := Function.update s.working root working }
  | .tree root worktree =>
    some { s with worktree := Function.update s.worktree root worktree }
  | .work token unpublished =>
    some { s with unpublished := Function.update s.unpublished token unpublished }
  | .time now => some { s with clock := now }

def step (placed : τ → Placement ρ β) (s : World τ ρ β π) (label : Label τ ρ β π) :
    Option (World τ ρ β π) :=
  (s.move placed label).map (s.marked placed)

/-- No write is in flight and the sweep has not begun. -/
structure Initial (s : World τ ρ β π) : Prop where
  lock : ∀ token, s.lock token = none
  call : ∀ p, s.call p = .idle
  sweep : s.sweep = .idle
  forgotten : s.forgotten = []

end World

/-- A host, with the placements of its sessions. -/
def host (placed : τ → Placement ρ β) : System (World τ ρ β π) (Label τ ρ β π) where
  Initial := World.Initial
  step := World.step placed

end Steps

end Onevcs.Sweep.Records
