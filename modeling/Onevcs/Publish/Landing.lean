import Onevcs.Foundations.Transition
import Onevcs.Publish.Watch

/-!
# An automated landing

`publish.rs`'s `land_opened_change` under a policy that asks for a merge, and the rounds of
`Landing`: settle the checks outside the identity's merge turn, take the turn, re-verify what
settled, and merge, or let the turn go and settle again. Every answer of the host, of git and
of the clock is an event of its own; git's own sync and push, and what a landing records once
the host merged, are an answer here and no more.

Beside what the code keeps, the state has what it asked and found: each merge it asked for,
with the turn it held, whether the change was still its draft, and what was read before.
-/

namespace Onevcs.Publish

open Foundations (System Text)
open Rules (MergePolicy)

/-! ## What a round reads of git and of the host -/

/-- `RemoteTip`: where a remote has a branch. -/
inductive RemoteTip
  | isAt (tip : Text)
  | absent
  | unknown
  deriving DecidableEq

/-- `Moved`: why what a round settled no longer holds under the merge turn. -/
inductive Moved
  | head (tip : Text)
  | checks
  | base (tip : Text)
  deriving DecidableEq

/-- A call of git, whose error refuses. -/
def git {α : Type} : Except Text α → Except Refusal α
  | .ok value => .ok value
  | .error said => .error (.git said)

/-- `head_moved`: where origin has the branch now, where that is not `pushed`. -/
def headMoved (pushed : Text) (answer : Except Text RemoteTip) : Except Refusal (Option Text) := do
  match ← git answer with
  | .isAt tip => pure (if tip = pushed then none else some tip)
  | .absent | .unknown => throw .invalid

/-- What `reverify` reads. -/
structure Reverify where
  look : Look
  branch : Except Text RemoteTip
  base : Except Text RemoteTip
  carries : Except Text Bool
  requiresUpToDate : Except HostError Bool

/-- The checks of a reading let the pushed head through. -/
def through (reading : Reading) (declared : Declared) : Bool :=
  match reading.reported with
  | .about checks => letsThrough (standings checks declared) declared
  | .notYet => false

/-- A host that will not say is read as requiring a change to be up to date. -/
def mustBeUpToDate (answer : Except HostError Bool) : Bool :=
  match answer with
  | .ok required => required
  | .error _ => true

/-- `reverify`: under the turn, what the round settled. Nothing is that it all holds. -/
def reverify (watcher : Watcher) (read : Reverify) : Except Refusal (Option Moved) := do
  match read.look.checks with
  | .error error => throw (.host error)
  | .ok answered =>
    let reading := watcher.read answered
    let declared := (watcher.declared read.look).given reading
    match ← headMoved watcher.pushed read.branch with
    | some tip => pure (some (.head tip))
    | none =>
      if !through reading declared then pure (some .checks)
      else
        match ← git read.base with
        | .absent | .unknown => throw .invalid
        | .isAt baseTip =>
          if ← git read.carries then pure none
          else if mustBeUpToDate read.requiresUpToDate then pure (some (.base baseTip))
          else pure none

/-- What bringing the branch to where its checks settle again comes to. -/
structure Resync where
  fetched : Except Text Unit
  carries : Except Text Bool
  fastForwarded : Except Text Unit
  synced : Except Refusal Unit
  tip : Option Text
  onOrigin : Except Text RemoteTip
  screened : Except Refusal Unit
  pushed : Except Refusal Unit

/-- The end of `resync`: the publication's own sync, and its own push where origin does not
have what it left. -/
def syncAndPush (answers : Resync) : Except Refusal Text := do
  answers.synced
  match answers.tip with
  | none => throw .invalid
  | some tip =>
    if (← git answers.onOrigin) = .isAt tip then pure tip
    else
      answers.screened
      answers.pushed
      pure tip

/-- `resync`: the head the checks settle on next. -/
def resync (resumed : Bool) (pushed : Text) (moved : Moved) (answers : Resync) :
    Except Refusal Text :=
  match moved with
  | .checks => .ok pushed
  | .head _ => do
    if resumed then throw .syncConflict
    git answers.fetched
    if !(← git answers.carries) then throw .syncConflict
    git answers.fastForwarded
    syncAndPush answers
  | .base _ => do
    if resumed then throw .syncConflict
    git answers.fetched
    syncAndPush answers

/-- What lifting any draft is answered: whether the host has the change as a draft, and its
lifting it. -/
structure LiftAnswers where
  isDraft : Except Text Bool
  readyForReview : Except HostError Unit

/-- `is_draft`, of a host that was taught to say, and of one that was not. -/
def isDraft (taught : Bool) (answer : Except Text Bool) : Except HostError Bool :=
  if taught then
    match answer with
    | .ok drafted => .ok drafted
    | .error said => .error ⟨false, said⟩
  else .error ⟨true, []⟩

/-- `await_as_draft`: whether the change is a draft awaiting its checks. -/
def awaitAsDraft (taught : Bool) (answers : LiftAnswers) : Except HostError Bool :=
  match isDraft taught answers.isDraft with
  | .ok drafted => .ok drafted
  | .error ⟨true, _⟩ => .ok false
  | .error ⟨false, said⟩ => .error ⟨false, said⟩

/-- `lift_any_draft`: whether it lifted one. -/
def liftAnyDraft (taught : Bool) (answers : LiftAnswers) : Except HostError Bool := do
  if ← awaitAsDraft taught answers then
    answers.readyForReview
    pure true
  else pure false

/-- What `arm_on_elapse` is answered. -/
structure ElapseAnswers where
  allowsAutoMerge : Except HostError Bool
  lift : LiftAnswers
  merge : Except HostError MergeOutcome

/-- Where a watch ended, as `WatchEnded` and the errors beside it. -/
inductive Ending
  | landed (sha : Text)
  | armed (head : Text)
  | queued
  | changeOpen
  | refused (refusal : Refusal)

/-- `arm_on_elapse`: whether it asked for the merge, and where the watch ends. -/
def armOnElapse (taught : Bool) (watcher : Watcher) (answers : ElapseAnswers) : Bool × Ending :=
  if !watcher.skippedAtElapse.isEmpty then (false, .refused .checksUnsettled)
  else if watcher.armed then (false, .armed watcher.pushed)
  else
    match answers.allowsAutoMerge with
    | .ok false | .error _ => (false, .refused .checksUnsettled)
    | .ok true =>
      match liftAnyDraft taught answers.lift with
      | .error error => (false, .refused (.host error))
      | .ok _ =>
        match answers.merge with
        | .error error => (true, .refused (.host error))
        | .ok (.merged sha) => (true, .landed sha)
        | .ok .queued | .ok .opened => (true, .armed watcher.pushed)

/-! ## The landing -/

/-- Which loop of the watch settles the checks. -/
inductive Settling
  | draft
  | lifted (declared : Declared) (snapshot : List Check)
  | ready

/-- Where a landing is. -/
inductive Stage
  | opening
  | settling (phase : Settling)
  -- green on the draft, which is lifted next
  | green
  -- waiting for the turn, to re-verify what settled
  | settled
  -- waiting for the turn, to arm the merge of a wait that elapsed
  | waited
  | verifying
  | merging
  -- under the turn still, to arm the merge of a wait that elapsed
  | elapsing
  -- the checks stopped letting the change through while its merge was awaited
  | resettling
  | resyncing (moved : Moved)
  | ended (ending : Ending)

/-- What a re-verification read, and the turn it read it under. -/
structure Found where
  turn : Option Nat
  head : Text
  reading : Reading
  declared : Declared
  branch : RemoteTip
  carried : Bool
  mustBeUpToDate : Bool

/-- What a wait that elapsed leaves: that it did, the checks of its last reading, what the host
declared, and whether it allows auto-merge. -/
structure Elapse where
  elapsed : Bool
  declaration : Option Declared
  last : List Check
  allowed : Bool

structure Ask where
  head : Text
  turn : Option Nat
  draft : Bool
  found : Option Found
  elapse : Option Elapse

/-- A landing: the watch, where it is, the turn it holds of those it took, whether the change
is still its draft, what its last re-verification found and its last look read, the head its
merge is armed on, and the merges it asked for. -/
structure Landing where
  watcher : Watcher
  stage : Stage
  turn : Option Nat
  turns : Nat
  draft : Bool
  found : Option Found
  last : List Check
  armedOn : Option Text
  asks : List Ask

/-- What a publication is when its change request is open: the policy it lands under, whether
the host was taught to say what it drafted, whether drafts are awaited and the change was
adopted, and whether the publication resumed a verified branch. -/
structure Publication where
  base : Text
  pushed : Text
  effective : MergePolicy
  taught : Bool
  lifecycle : Bool
  adopted : Bool
  resumed : Bool

/-- What a landing is answered, an event each. -/
inductive Event
  | opened (answers : LiftAnswers)
  | look (look : Look)
  | lift (answer : Except HostError Unit)
  | turn (answer : Except Refusal Unit)
  | reverify (read : Reverify)
  | elapse (answers : ElapseAnswers)
  | headMoved (answer : Except Text RemoteTip)
  | resync (answers : Resync)

namespace Landing

def start (publication : Publication) : Landing where
  watcher := .new publication.base publication.pushed
  stage := .opening
  turn := none
  turns := 0
  draft := false
  found := none
  last := []
  armedOn := none
  asks := []

/-- The landing ends, and lets its turn go. -/
def ends (s : Landing) (ending : Ending) : Landing :=
  { s with stage := .ended ending, turn := none, found := none }

/-- The turn is let go, and what settled is settled again. -/
def drops (s : Landing) (stage : Stage) : Landing :=
  { s with stage := stage, turn := none, found := none }

/-- The merge is asked for, on the head that is watched. -/
def asking (s : Landing) (elapse : Option Elapse) : Landing :=
  { s with asks := s.asks ++ [⟨s.watcher.pushed, s.turn, s.draft, s.found, elapse⟩] }

/-- What a turn of the watch leaves: what it changed on the host, and what it read. -/
def watched (s : Landing) (look : Look) (turn : Turn) : Landing :=
  let asked := if turn.calls.any (fun call => call != .lifted) then s.asking none else s
  { asked with
    watcher := turn.watcher
    draft := s.draft && !turn.calls.contains .lifted
    last := match look.checks with
      | .ok answered => (s.watcher.read answered).reported.checks
      | .error _ => []
    armedOn := if turn.watcher.armed && !s.watcher.armed then some turn.watcher.pushed
      else s.armedOn }

/-- A refusal ends the landing, but the one of a wait that elapsed. -/
def refuses (s : Landing) (elapsed : Stage) (refusal : Refusal) : Landing :=
  if refusal = .checksUnsettled ∧ s.watcher.elapsed = true then { s with stage := elapsed }
  else s.ends (.refused refusal)

/-- Where a turn of a loop that settles goes. None of them lands or settles again. -/
def settlesOn (s : Landing) : After → Landing
  | .again => s
  | .liftedEarly declared snapshot => { s with stage := .settling (.lifted declared snapshot) }
  | .settled true => { s with stage := .green }
  | .settled false => { s with stage := .settled }
  | .refused refusal => s.refuses .waited refusal
  | .landed _ | .resettle => s.ends (.refused .invalid)

/-- Where a turn of `await_the_merge` goes. It neither settles nor lifts. -/
def awaitsOn (s : Landing) : After → Landing
  | .again => s
  | .landed sha => s.ends (.landed sha)
  | .resettle => s.drops .resettling
  | .refused refusal => s.refuses .elapsing refusal
  | .liftedEarly _ _ | .settled _ => s.ends (.refused .invalid)

/-- One turn of the loop that settles the checks. -/
def settles (watcher : Watcher) (phase : Settling) (look : Look) : Turn :=
  match phase with
  | .draft => settleDraft watcher look
  | .lifted declared snapshot => settleAfterEarlyLift watcher declared snapshot look
  | .ready => settleReady watcher look

/-- The turn is taken, or the wait for it refuses. -/
def takes (s : Landing) (next : Stage) : Except Refusal Unit → Landing
  | .error refusal => s.ends (.refused refusal)
  | .ok () => { s with stage := next, turn := some s.turns, turns := s.turns + 1, found := none }

/-- What a re-verification read. -/
def finds (s : Landing) (read : Reverify) : Option Found :=
  match read.look.checks, read.branch with
  | .ok answered, .ok branch =>
    some
      { turn := s.turn
        head := s.watcher.pushed
        reading := s.watcher.read answered
        declared := (s.watcher.declared read.look).given (s.watcher.read answered)
        branch
        carried := match read.carries with
          | .ok carried => carried
          | .error _ => false
        mustBeUpToDate := mustBeUpToDate read.requiresUpToDate }
  | _, _ => none

/-- `change-direct`'s merge. -/
def mergesDirectly (s : Landing) : Except HostError MergeOutcome → Landing
  | .error error => s.ends (.refused (.host error))
  | .ok (.merged sha) => s.ends (.landed sha)
  | .ok .queued => s.ends .queued
  | .ok .opened => s.ends .changeOpen

/-- The end of a wait that elapsed. -/
def elapses (taught : Bool) (s : Landing) (answers : ElapseAnswers) : Landing :=
  match armOnElapse taught s.watcher answers with
  | (false, ending) => s.ends ending
  | (true, ending) =>
    -- What let the merge be asked for: the draft is lifted, or the host has no draft.
    let lifted := { s with draft := s.draft && !taught }
    let allowed := match answers.allowsAutoMerge with
      | .ok allowed => allowed
      | .error _ => false
    let asked := lifted.asking
      (some ⟨s.watcher.elapsed, s.watcher.declaration, s.last, allowed⟩)
    { asked with armedOn := some s.watcher.pushed }.ends ending

/-- The next round, on the head the branch was brought to. -/
def again (publication : Publication) (s : Landing) (moved : Moved) (pushed : Text) : Landing :=
  { s with
    watcher := { Watcher.new publication.base pushed with
      armed := s.watcher.armed && moved == .checks }
    stage := .settling .ready
    last := [] }

def step (publication : Publication) (s : Landing) (event : Event) : Option Landing :=
  match s.stage, event with
  | .opening, .opened answers =>
    if publication.lifecycle then
      match awaitAsDraft publication.taught answers with
      | .error error => some (s.ends (.refused (.host error)))
      | .ok true => some { s with draft := true, stage := .settling .draft }
      | .ok false => some { s with stage := .settling .ready }
    else if publication.adopted then
      match liftAnyDraft publication.taught answers with
      | .error error => some (s.ends (.refused (.host error)))
      | .ok _ => some { s with stage := .settling .ready }
    else some { s with stage := .settling .ready }
  | .settling phase, .look look =>
    let turn := settles s.watcher phase look
    some ((s.watched look turn).settlesOn turn.after)
  | .green, .lift (.error error) => some (s.ends (.refused (.host error)))
  | .green, .lift (.ok ()) => some { s with draft := false, stage := .settled }
  | .settled, .turn answer => some (s.takes .verifying answer)
  | .waited, .turn answer => some (s.takes .elapsing answer)
  | .verifying, .reverify read =>
    let remembered := { s with watcher := s.watcher.remembering read.look }
    match Publish.reverify s.watcher read with
    | .error refusal => some (remembered.ends (.refused refusal))
    | .ok (some moved) => some (remembered.drops (.resyncing moved))
    | .ok none => some { remembered with stage := .merging, found := s.finds read }
  | .merging, .look look =>
    if publication.effective = .changeAuto then
      let turn := awaitTheMerge s.watcher look
      some ((s.watched look turn).awaitsOn turn.after)
    else some ((s.asking none).mergesDirectly (mergeOrFindMerged look))
  | .elapsing, .elapse answers => some (s.elapses publication.taught answers)
  | .resettling, .headMoved answer =>
    match Publish.headMoved s.watcher.pushed answer with
    | .error refusal => some (s.ends (.refused refusal))
    | .ok (some tip) => some { s with stage := .resyncing (.head tip) }
    | .ok none => some { s with stage := .resyncing .checks }
  | .resyncing moved, .resync answers =>
    match Publish.resync publication.resumed s.watcher.pushed moved answers with
    | .error refusal => some (s.ends (.refused refusal))
    | .ok pushed => some (s.again publication moved pushed)
  | _, _ => none

end Landing

/-- The landings of one publication, over every answer they are given. -/
def landing (publication : Publication) : System Landing Event where
  Initial s := s = .start publication
  step := Landing.step publication

/-- What settled still holds: the required checks let the head through, origin has the branch
there, and the head carries its base or need not. -/
def Found.Holds (found : Found) : Prop :=
  through found.reading found.declared = true ∧ found.branch = .isAt found.head ∧
    (found.carried = true ∨ found.mustBeUpToDate = false)

/-- No required check concluded red or skipped. -/
def NoneRedOrSkipped (required : List Standing) : Prop :=
  ∀ standing ∈ required, standing.state ≠ some .failed ∧ standing.state ≠ some .skipped

/-- A wait that elapsed with no required check red or skipped, where the host allows
auto-merge. -/
def Elapse.Holds (elapse : Elapse) : Prop :=
  elapse.elapsed = true ∧ elapse.allowed = true ∧
    ∀ declared ∈ elapse.declaration, NoneRedOrSkipped (standings elapse.last declared)

/-- A merge asked for under the turn, of a change that is no draft, on what settled. -/
def Ask.Settled (ask : Ask) : Prop :=
  ask.turn.isSome = true ∧ ask.draft = false ∧
    ((∃ found ∈ ask.found, found.turn = ask.turn ∧ found.head = ask.head ∧ found.Holds) ∨
      ∃ elapse ∈ ask.elapse, elapse.Holds)

/-- Every merge asked for was asked for on what settled, and a merge taken for armed is armed
on the head that is watched. -/
def Landing.MergesWhatSettled (s : Landing) : Prop :=
  (∀ ask ∈ s.asks, ask.Settled) ∧
    (s.watcher.armed = true → s.armedOn = some s.watcher.pushed)

/-- Where the watch of a change lifted early runs out of time, each check the host marks
required that has a red run is one whose marking is not set aside with the draft's skips. -/
def Landing.SeesReds (s : Landing) (event : Event) : Prop :=
  match s.stage, event with
  | .settling (.lifted declared snapshot), .look look =>
    look.outOfTime = true →
      ∀ answered ∈ look.checks.toOption,
        ∀ standing ∈ standings (s.watcher.read answered).reported.checks declared,
          standing.state = some .failed → standing.name ∈ requiredNames
            (counted (s.watcher.read answered).reported.checks snapshot) declared
  | _, _ => True

end Onevcs.Publish
