import Onevcs.Publish.Watch

/-!
# The testing provider's watch

`onevcs-testing`'s `repository.rs` watches a change request by one reading of the host for
each phase, where `publish.rs` polls the host until the watch ends. The testing provider's
`watch` is here over a host that answers the same throughout each phase, and beside it the
polled watch over that host and a clock, so that the two can be compared. The sentences a
refusal or a warning is said in are left out.
-/

namespace Onevcs.Publish

open Foundations (Text)

/-- What a host answers throughout one phase of a watch. -/
structure Phase where
  requiredChecks : Except HostError RequiredChecks
  checks : Except HostError ChangeChecks
  headActivity : Except HostError HeadActivity

/-- A host whose answers are constant before a draft is lifted and constant after it. -/
structure StillHost where
  before : Phase
  after : Phase
  readyForReview : Except HostError Unit

/-- Every check of the phase names the pushed head or no commit. -/
def Phase.AboutPushed (phase : Phase) (pushed : Text) : Prop :=
  ∀ answered, phase.checks = .ok answered →
    ∀ check ∈ answered.checks, isAbout check pushed = true

/-- `checks-settled`, as it is recorded: the verdict, the skipped required checks, and whether
what is required was read from the host's own marking. -/
structure ChecksSettled where
  verdict : Text
  skipped : List Text
  hostMarking : Bool
  deriving DecidableEq

/-- What a watch records on the event stream, as far as the two watches share it. -/
inductive Emission
  | draftLifted
  | draftLiftedEarly (awaited : List Text)
  | checksSettled (settled : ChecksSettled)
  deriving DecidableEq

inductive WatchEnd
  | greenOnTheDraft
  | greenReady
  | red (check : Text)
  | elapsed (skipped : List Text)
  | didNotRerun
  | host (error : HostError)
  deriving DecidableEq

/-- A watch from its beginning to its end: what it recorded, and how it ended. -/
structure Watched where
  emissions : List Emission
  ended : WatchEnd
  deriving DecidableEq

/-- `record_settled`: the record of a settled watch. -/
def recordSettled (skipped : List Text) (hostMarking : Bool) : Emission :=
  .checksSettled
    { verdict := if skipped.isEmpty then "passed".toList else "passed-with-skipped".toList
      skipped := skipped
      hostMarking := hostMarking }

namespace Double

def declaredRequired (base : Text) : Except HostError RequiredChecks → Declared
  | .ok answer =>
    if answer.checks.isEmpty && answer.unconsulted.isEmpty then .nothing
    else if !answer.checks.isEmpty then .names answer.checks
    else
      .unknown ("the host answered only in part about which checks a merge into ".toList ++
        base ++ " requires".toList)
  | .error refused =>
    .unknown ("the host would not say which checks a merge into ".toList ++ base ++
      " requires: ".toList ++ refused.said)

/-- `given`: the declaration, sharpened by one reading. -/
def given (declared : Declared) (complete : Bool) (checks : List Check) : Declared :=
  if declared.isUnknown && complete && !checks.isEmpty &&
      checks.all (fun check => !check.required) then .nothing
  else declared

/-- The state the entries of a name add up to. -/
def stateOf (checks : List Check) (name : Text) : Option CheckState :=
  ((checks.filter fun check => check.name == name).map Check.state).argmin CheckState.rank

/-- `standings`: each required check's name and the state its entries add up to. -/
def standings (checks : List Check) (declared : Declared) : List (Text × Option CheckState) :=
  (requiredNames checks declared).map fun name => (name, stateOf checks name)

/-- `red`: the first required check that concluded red, by name. -/
def red (checks : List Check) (standing : List (Text × Option CheckState)) : Option Text :=
  (standing.find? fun entry => entry.2 == some .failed).bind fun entry =>
    (checks.find? fun check => check.name == entry.1 && check.state == .failed).map Check.name

/-- A standing that does not hold the change. -/
def holdsNothing (entry : Text × Option CheckState) : Bool :=
  entry.2 == some .passed || entry.2 == some .skipped

/-- `through`: whether every required check lets the change through. -/
def through (standing : List (Text × Option CheckState)) (declared : Declared) : Bool :=
  (declared == .nothing || !standing.isEmpty) && standing.all holdsNothing

/-- `skipped`: the skipped required checks, by name. -/
def skipped (standing : List (Text × Option CheckState)) : List Text :=
  (standing.filter fun entry => entry.2 == some .skipped).map Prod.fst

/-- `still_running`: whether anything on the change's head is still running. -/
def stillRunning (pushed : Text) (phase : Phase) (checks : List Check) : Bool :=
  checks.any (fun check => !check.settled) ||
    match phase.headActivity with
    | .ok answer => answer.head == pushed && !answer.inProgress.isEmpty
    | .error _ => false

/-- The names pushed onto a watch's skipped ones, where they are not there yet. -/
def named (skipped more : List Text) : List Text :=
  more.foldl (fun names name => if !names.contains name then names ++ [name] else names) skipped

/-- `watch` of a change that is ready. -/
def watchReady (base : Text) (host : StillHost) : Watched :=
  match host.before.checks with
  | .error error => ⟨[], .host error⟩
  | .ok answered =>
    let checks := answered.checks
    let declared :=
      given (declaredRequired base host.before.requiredChecks) answered.complete checks
    let standing := standings checks declared
    match red checks standing with
    | some failed => ⟨[], .red failed⟩
    | none =>
      if !through standing declared then ⟨[], .elapsed (skipped standing)⟩
      else ⟨[recordSettled (skipped standing) declared.isUnknown], .greenReady⟩

/-- `watch` of a draft lifted early, from the lift on. -/
def watchLifted (pushed : Text) (host : StillHost) (declared : Declared)
    (snapshot : List Check) (emissions : List Emission) : Watched :=
  match host.after.checks with
  | .error error => ⟨emissions, .host error⟩
  | .ok answered =>
    let after := answered.checks
    let counted := counted after snapshot
    let standing := standings counted declared
    match red counted standing with
    | some failed => ⟨emissions, .red failed⟩
    | none =>
      let rerun := after.any fun check =>
        ranAfterTheLift check snapshot &&
          (standing.isEmpty || standing.any fun entry => entry.1 == check.name)
      let elapsed := named (skipped standing) (skipped (standings after declared))
      if !rerun then
        if stillRunning pushed host.after after then ⟨emissions, .elapsed elapsed⟩
        else ⟨emissions, .didNotRerun⟩
      else if !standing.all holdsNothing then ⟨emissions, .elapsed elapsed⟩
      else
        ⟨emissions ++ [recordSettled (skipped standing) declared.isUnknown], .greenReady⟩

/-- `watch` of a draft. -/
def watchDraft (base pushed : Text) (host : StillHost) : Watched :=
  match host.before.checks with
  | .error error => ⟨[], .host error⟩
  | .ok answered =>
    let checks := answered.checks
    let declared :=
      given (declaredRequired base host.before.requiredChecks) answered.complete checks
    if declared = .nothing then ⟨[recordSettled [] false], .greenOnTheDraft⟩
    else
      let standing := standings checks declared
      match red checks standing with
      | some failed => ⟨[], .red failed⟩
      | none =>
        if !standing.isEmpty && standing.all (fun entry => entry.2 == some .passed) then
          ⟨[recordSettled [] declared.isUnknown], .greenOnTheDraft⟩
        else
          let notRun := (standing.filter fun entry =>
            entry.2 == none || entry.2 == some .skipped).map Prod.fst
          let running := standing.any fun entry =>
            entry.2 == some .pending || entry.2 == some .noVerdict
          let unseen := declared.isUnknown && standing.isEmpty
          if unseen && !checks.isEmpty &&
              checks.all (fun check => check.state != .skipped) then
            ⟨[recordSettled [] declared.isUnknown], .greenOnTheDraft⟩
          else if running || (notRun.isEmpty && !unseen) ||
              stillRunning pushed host.before checks then
            ⟨[], .elapsed (skipped standing)⟩
          else
            match host.readyForReview with
            | .error error => ⟨[], .host error⟩
            | .ok () =>
              watchLifted pushed host declared checks
                [.draftLifted, .draftLiftedEarly notRun]

/-- `watch`: one reading of the host for each phase. -/
def watch (base pushed : Text) (drafted : Bool) (host : StillHost) : Watched :=
  if !drafted then watchReady base host else watchDraft base pushed host

end Double

/-! ## The polled watch -/

/-- The clock of a polled watch, in its turns: when its bound began, the instant a turn reads
the clock at, the instant it goes on at where it lifted the draft, and whether it reuses an
answer about the head. -/
structure Timing where
  grace : Nat
  wait : Nat
  started : Nat
  readAt : Nat → Nat
  liftedAt : Nat → Nat
  reuses : Nat → Bool
  from_start : started ≤ readAt 0
  forward : ∀ turn, readAt turn ≤ liftedAt turn ∧ liftedAt turn ≤ readAt (turn + 1)
  unbounded : ∀ instant, ∃ turn, instant ≤ readAt turn

namespace Timing

/-- The bound on the whole watch has elapsed. -/
def outOfTime (timing : Timing) (turn : Nat) : Bool :=
  timing.started + timing.wait ≤ timing.readAt turn

/-- A grace window that began at `since` is over. -/
def graceOver (timing : Timing) (since turn : Nat) : Bool :=
  since + timing.grace ≤ timing.readAt turn

/-- What one turn of the watch is answered, in a phase whose grace window began at `since`.
Nobody cancels, and no turn before the watch settled asks for a merge. -/
def look (timing : Timing) (host : StillHost) (phase : Phase) (since turn : Nat) : Look where
  requiredChecks := phase.requiredChecks
  checks := phase.checks
  graceElapsed := timing.graceOver since turn
  outOfTime := timing.outOfTime turn
  busyIsFresh := timing.reuses turn
  headActivity := phase.headActivity
  readyForReview := host.readyForReview
  merge := .ok .opened
  mergedAfterRefusal := .ok none
  mergedAt := .ok none
  mergeability := .ok .unknown
  cancelled := false

/-- No reading after an early lift finds the wait over before the lift's own grace window
is. -/
def LeavesSecondWindow (timing : Timing) : Prop :=
  ∀ turn later, timing.graceOver timing.started turn = true →
    (∀ earlier < turn, timing.graceOver timing.started earlier = false) → turn < later →
    timing.outOfTime later = true → timing.graceOver (timing.liftedAt turn) later = true

end Timing

/-- A loop of the watch: its turns, until one of them leaves it. Answers the turn that did,
and the watch that turn began with. -/
def Watcher.loop (turn : Nat → Watcher → Turn) : Nat → Nat → Watcher → Option (Nat × Watcher)
  | 0, _, _ => none
  | fuel + 1, current, watcher =>
    if (turn current watcher).after = .again then
      loop turn fuel (current + 1) (turn current watcher).watcher
    else some (current, watcher)

/-- How a turn that leaves the watch ends it. -/
def Turn.ended (turn : Turn) : Option WatchEnd :=
  match turn.after with
  | .settled true => some .greenOnTheDraft
  | .settled false => some .greenReady
  | .refused (.checksFailed check) => some (.red check)
  | .refused .checksUnsettled =>
    some (if turn.watcher.elapsed then .elapsed turn.watcher.skippedAtElapse
      else .didNotRerun)
  | .refused (.host error) => some (.host error)
  | .refused .syncConflict | .refused .cancelled | .refused .invalid | .refused (.git _)
  | .again | .liftedEarly _ _ | .landed _ | .resettle => none

/-- What a turn that read `standing` against `declared` records: the settlement of a watch it
settled, and the lift of a draft it lifted. A draft of which nothing is required is settled on
no standing at all, which is the one `standings` reads there. -/
def Turn.records (turn : Turn) (standing : List Standing) (declared : Declared) :
    List Emission :=
  match turn.after with
  | .settled _ => [recordSettled (skippedIn standing) declared.isUnknown]
  | .liftedEarly _ _ => [.draftLifted, .draftLiftedEarly (notRun standing)]
  | .again | .landed _ | .resettle | .refused _ => []

namespace Timing

variable (timing : Timing) (host : StillHost)

/-- A turn of `settle_ready`. -/
def readyTurn (turn : Nat) (watcher : Watcher) : Turn :=
  settleReady watcher (timing.look host host.before timing.started turn)

/-- A turn of `settle_draft`. -/
def draftTurn (turn : Nat) (watcher : Watcher) : Turn :=
  settleDraft watcher (timing.look host host.before timing.started turn)

/-- A turn of `settle_after_early_lift`. -/
def liftedTurn (since : Nat) (declared : Declared) (snapshot : List Check) (turn : Nat)
    (watcher : Watcher) : Turn :=
  settleAfterEarlyLift watcher declared snapshot (timing.look host host.after since turn)

/-- What a turn records that reads the phase's checks, narrowed by `kept`, against `declared`
as that reading sharpens it. -/
def recordsOf (phase : Phase) (watcher : Watcher) (sharpen : Reading → Declared)
    (kept : List Check → List Check) (turn : Turn) : List Emission :=
  match phase.checks with
  | .error _ => []
  | .ok answered =>
    let reading := watcher.read answered
    turn.records (standings (kept reading.reported.checks) (sharpen reading)) (sharpen reading)

/-- `settle` of a ready change. -/
def settlesReady (base pushed : Text) (fuel : Nat) : Option Watched := do
  let (turn, watcher) ← Watcher.loop (timing.readyTurn host) fuel 0 (.new base pushed)
  let taken := timing.readyTurn host turn watcher
  let declared := watcher.declared (timing.look host host.before timing.started turn)
  let ended ← taken.ended
  return ⟨recordsOf host.before watcher declared.given id taken, ended⟩

/-- `settle_after_early_lift`, from the turn after the one that lifted the draft. -/
def settlesLifted (fuel lift : Nat) (watcher : Watcher) (declared : Declared)
    (snapshot : List Check) (emissions : List Emission) : Option Watched := do
  let liftedTurn := timing.liftedTurn host (timing.liftedAt lift) declared snapshot
  let (turn, watcher) ← Watcher.loop liftedTurn fuel (lift + 1) watcher
  let taken := liftedTurn turn watcher
  let ended ← taken.ended
  return ⟨emissions ++
    recordsOf host.after watcher (fun _ => declared) (counted · snapshot) taken, ended⟩

/-- `settle` of a draft. -/
def settlesDraft (base pushed : Text) (fuel : Nat) : Option Watched := do
  let (turn, watcher) ← Watcher.loop (timing.draftTurn host) fuel 0 (.new base pushed)
  let taken := timing.draftTurn host turn watcher
  let declared := watcher.declared (timing.look host host.before timing.started turn)
  let emissions := recordsOf host.before watcher declared.given id taken
  match taken.after with
  | .liftedEarly declared snapshot =>
    timing.settlesLifted host fuel turn taken.watcher declared snapshot emissions
  | .again | .settled _ | .landed _ | .resettle | .refused _ => do
    let ended ← taken.ended
    return ⟨emissions, ended⟩

/-- `settle`, polling a host that stands still: the watch's end, where it ends within `fuel`
turns of each loop. -/
def settles (base pushed : Text) (drafted : Bool) (fuel : Nat) : Option Watched :=
  if drafted then timing.settlesDraft host base pushed fuel
  else timing.settlesReady host base pushed fuel

end Timing

end Onevcs.Publish
