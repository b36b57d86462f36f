import Onevcs.Publish.Checks
import Onevcs.Rules.Policy

/-!
# A publication watching one change request

`publish.rs`'s `Watcher` and the phases of its watch: `settle_draft`,
`settle_after_early_lift`, `settle_ready` and `await_the_merge`. Each is a loop that looks,
decides and waits out an interval; a definition here is one turn of it, over a `Look`: what
the host, the clock and the caller answer during that turn. The event stream, the checks'
logs and the sentences a refusal is said in are left out.
-/

namespace Onevcs.Publish

open Foundations (Text)
open Rules (MergePolicy)

/-- `MergeOutcome`: what merging a change request did. -/
inductive MergeOutcome
  | merged (sha : Text)
  | queued
  | opened

inductive Mergeability
  | mergeable
  | conflicting (reported : Text)
  | unknown

/-- `HeadActivity`: the commit the host answered about, and what is in progress on it. -/
structure HeadActivity where
  head : Text
  inProgress : List Text

/-- What the host, the clock and the caller answer during one turn of a watch. -/
structure Look where
  requiredChecks : Except HostError RequiredChecks
  checks : Except HostError ChangeChecks
  graceElapsed : Bool
  outOfTime : Bool
  busyIsFresh : Bool
  headActivity : Except HostError HeadActivity
  readyForReview : Except HostError Unit
  merge : Except HostError MergeOutcome
  mergedAfterRefusal : Except HostError (Option Text)
  mergedAt : Except HostError (Option Text)
  mergeability : Except HostError Mergeability
  cancelled : Bool

inductive Refusal
  | checksFailed (check : Text)
  | checksUnsettled
  | syncConflict
  | cancelled
  | invalid
  | git (said : Text)
  | host (error : HostError)
  deriving DecidableEq

/-- `Watcher`, as far as a decision reads it: `busy` is whether the host last answered that
work is in progress on the pushed head. -/
structure Watcher where
  base : Text
  pushed : Text
  declaration : Option Declared
  elapsed : Bool
  armed : Bool
  skippedAtElapse : List Text
  busy : Bool

def Watcher.new (base pushed : Text) : Watcher where
  base := base
  pushed := pushed
  declaration := none
  elapsed := false
  armed := false
  skippedAtElapse := []
  busy := false

/-- What a publication changes on the host: a draft lifted, and a merge asked for. -/
inductive HostCall
  | lifted
  | merge (policy : MergePolicy)
  deriving DecidableEq

/-- Where a turn of a watch's loop leaves it. -/
inductive After
  | again
  | liftedEarly (declared : Declared) (snapshot : List Check)
  | settled (onTheDraft : Bool)
  | landed (sha : Text)
  | resettle
  | refused (refusal : Refusal)
  deriving DecidableEq

/-- One turn of a watch's loop: the watch it leaves, what it changed on the host, and where
the loop goes. -/
structure Turn where
  watcher : Watcher
  calls : List HostCall
  after : After

namespace Watcher

/-- `Watcher::declared`: what the host declares, asked of it the first time. -/
def declared (watcher : Watcher) (look : Look) : Declared :=
  watcher.declaration.getD (declaredRequired watcher.base look.requiredChecks)

/-- The watch, remembering what the host declares. -/
def remembering (watcher : Watcher) (look : Look) : Watcher :=
  { watcher with declaration := some (watcher.declared look) }

/-- `Watcher::read`: the host's answer, narrowed to the pushed commit. -/
def read (watcher : Watcher) (answered : ChangeChecks) : Reading where
  reported := .of answered.checks watcher.pushed
  complete := answered.complete

/-- What `still_running` answers before the host is asked. -/
def knownRunning (watcher : Watcher) (look : Look) (reading : Reading) : Bool :=
  reading.reported.checks.any (fun check => !check.settled) || (watcher.busy && look.busyIsFresh)

/-- What the host's answer about work in progress on the pushed head comes to. -/
def headBusy (watcher : Watcher) (look : Look) : Bool :=
  match look.headActivity with
  | .ok answer => answer.head == watcher.pushed && !answer.inProgress.isEmpty
  | .error _ => false

/-- `Watcher::still_running`: whether anything on the pushed head is still running. -/
def stillRunning (watcher : Watcher) (look : Look) (reading : Reading) : Bool :=
  watcher.knownRunning look reading || watcher.headBusy look

/-- The watch `still_running` leaves. -/
def afterStillRunning (watcher : Watcher) (look : Look) (reading : Reading) : Watcher :=
  if watcher.knownRunning look reading then watcher
  else { watcher with busy := watcher.headBusy look }

/-- The end of a turn that decided nothing: the bound's refusal where it elapsed, and
otherwise `Watcher::pause`. -/
def waits (watcher : Watcher) (look : Look) (skipped : List Text) : Turn :=
  if look.outOfTime then
    ⟨{ watcher with elapsed := true, skippedAtElapse := skipped }, [],
      .refused .checksUnsettled⟩
  else if look.cancelled then ⟨watcher, [], .refused .cancelled⟩
  else ⟨watcher, [], .again⟩

end Watcher

/-- `settle_ready`, one turn. -/
def settleReady (before : Watcher) (look : Look) : Turn :=
  let watcher := before.remembering look
  match look.checks with
  | .error error => ⟨watcher, [], .refused (.host error)⟩
  | .ok answered =>
    let reading := watcher.read answered
    let declared := (before.declared look).given reading
    let standing := standings reading.reported.checks declared
    let waits := watcher.waits look (skippedIn standing)
    match reading.reported with
    | .notYet => waits
    | .about _ =>
      match verdictOf standing declared with
      | .pending _ => waits
      | .failed _ =>
        match red standing with
        | some failed => ⟨watcher, [], .refused (.checksFailed failed.name)⟩
        | none => waits
      | .noneRequired | .passed | .passedWithSkipped _ => ⟨watcher, [], .settled false⟩

/-! ## The draft -/

/-- The required checks that have not run: those absent or skipped. -/
def notRun (standing : List Standing) : List Text :=
  (standing.filter fun standing =>
    standing.state == none || standing.state == some .skipped).map Standing.name

/-- A required check is running, or ended with no verdict. -/
def anyRunning (standing : List Standing) : Bool :=
  standing.any fun standing =>
    standing.state == some .pending || standing.state == some .noVerdict

/-- Every required check passed, and there is one. -/
def allPassed (standing : List Standing) : Bool :=
  !standing.isEmpty && standing.all fun standing => standing.state == some .passed

/-- Nothing is known to be required and nothing reported is marked required. -/
def unseen (declared : Declared) (standing : List Standing) : Bool :=
  declared.isUnknown && standing.isEmpty

/-- Checks ran on the draft and none of them was skipped. -/
def ranUnskipped (checks : List Check) : Bool :=
  !checks.isEmpty && checks.all fun check => check.state != .skipped

/-- `settle_draft`, one turn. -/
def settleDraft (before : Watcher) (look : Look) : Turn :=
  let watcher := before.remembering look
  match look.checks with
  | .error error => ⟨watcher, [], .refused (.host error)⟩
  | .ok answered =>
    let reading := watcher.read answered
    let declared := (before.declared look).given reading
    if declared = .nothing then ⟨watcher, [], .settled true⟩
    else
      let checks := reading.reported.checks
      let standing := standings checks declared
      match red standing with
      | some failed => ⟨watcher, [], .refused (.checksFailed failed.name)⟩
      | none =>
        if allPassed standing then ⟨watcher, [], .settled true⟩
        else if unseen declared standing && look.graceElapsed && ranUnskipped checks then
          ⟨watcher, [], .settled true⟩
        else if look.graceElapsed && !anyRunning standing &&
            (!(notRun standing).isEmpty || unseen declared standing) then
          let asked := watcher.afterStillRunning look reading
          if watcher.stillRunning look reading then asked.waits look (skippedIn standing)
          else
            -- `lift_early`, and then the watch goes on as `settle_after_early_lift`.
            match look.readyForReview with
            | .error error => ⟨asked, [], .refused (.host error)⟩
            | .ok () => ⟨asked, [.lifted], .liftedEarly declared checks⟩
        else watcher.waits look (skippedIn standing)

/-- `ran_after_the_lift`: whether `check` is a run the host attached after the lift, rather
than the run of that check it reported on the draft. -/
def ranAfterTheLift (check : Check) (snapshot : List Check) : Bool :=
  let earlier := snapshot.filter fun seen => seen.name == check.name
  if earlier.isEmpty then true
  else
    match check.startedAt with
    | some started => earlier.all fun seen => seen.startedAt != some started
    | none => false

/-- The checks of a reading, as though a draft-era skip were not there. -/
def counted (checks snapshot : List Check) : List Check :=
  checks.filter fun check => !(!ranAfterTheLift check snapshot && check.state == .skipped)

/-- A run the host attached after the lift is one of a required check. -/
def rerun (checks snapshot : List Check) (standing : List Standing) : Bool :=
  checks.any fun check =>
    ranAfterTheLift check snapshot &&
      (standing.isEmpty || standing.any fun standing => standing.name == check.name)

/-- The names of `more` that are not in `names` yet, pushed onto it. -/
def pushNew (names more : List Text) : List Text :=
  more.foldl (fun names name => if names.contains name then names else names ++ [name]) names

/-- `settle_after_early_lift`, one turn. -/
def settleAfterEarlyLift (watcher : Watcher) (declared : Declared) (snapshot : List Check)
    (look : Look) : Turn :=
  match look.checks with
  | .error error => ⟨watcher, [], .refused (.host error)⟩
  | .ok answered =>
    let reading := watcher.read answered
    let checks := reading.reported.checks
    let standing := standings (counted checks snapshot) declared
    let skipped := pushNew (skippedIn standing) (skippedIn (standings checks declared))
    match red standing with
    | some failed => ⟨watcher, [], .refused (.checksFailed failed.name)⟩
    | none =>
      if rerun checks snapshot standing && standing.all Standing.through then
        ⟨watcher, [], .settled false⟩
      else if !rerun checks snapshot standing && look.graceElapsed then
        let asked := watcher.afterStillRunning look reading
        if watcher.stillRunning look reading then asked.waits look skipped
        -- The required checks did not re-run after the draft was lifted.
        else ⟨asked, [], .refused .checksUnsettled⟩
      else watcher.waits look skipped

/-- `merge_or_find_merged`: ask the host to merge the change, and where it refuses, whether
it already has. -/
def mergeOrFindMerged (look : Look) : Except HostError MergeOutcome :=
  match look.merge with
  | .ok outcome => .ok outcome
  | .error refused =>
    match look.mergedAfterRefusal with
    | .ok (some sha) => .ok (.merged sha)
    | .ok none | .error _ => .error refused

/-- The rest of a turn of `await_the_merge`, once the merge is armed. -/
def awaitArmed (before : Watcher) (look : Look) (calls : List HostCall) : Turn :=
  let watcher := before.remembering look
  match look.mergedAt with
  | .error error => ⟨watcher, calls, .refused (.host error)⟩
  | .ok (some sha) => ⟨watcher, calls, .landed sha⟩
  | .ok none =>
    match look.mergeability with
    | .ok (.conflicting _) => ⟨watcher, calls, .refused .syncConflict⟩
    | .error ⟨false, said⟩ => ⟨watcher, calls, .refused (.host ⟨false, said⟩)⟩
    -- Every other state is not a confirmed conflict.
    | .ok .mergeable | .ok .unknown | .error ⟨true, _⟩ =>
      if look.cancelled then ⟨watcher, calls, .refused .cancelled⟩
      else
        match look.checks with
        | .error error => ⟨watcher, calls, .refused (.host error)⟩
        | .ok answered =>
          let reading := watcher.read answered
          let declared := (before.declared look).given reading
          let standing := standings reading.reported.checks declared
          match reading.reported with
          | .notYet => ⟨watcher, calls, .resettle⟩
          | .about _ =>
            match red standing with
            | some failed => ⟨watcher, calls, .refused (.checksFailed failed.name)⟩
            | none =>
              if !letsThrough standing declared then ⟨watcher, calls, .resettle⟩
              else if look.outOfTime then
                ⟨{ watcher with elapsed := true
                                skippedAtElapse := skippedIn standing },
                  calls, .refused .checksUnsettled⟩
              else ⟨watcher, calls, .again⟩

/-- `await_the_merge`, one turn: the merge is asked for where it is not armed. -/
def awaitTheMerge (watcher : Watcher) (look : Look) : Turn :=
  if watcher.armed then awaitArmed watcher look []
  else
    match mergeOrFindMerged look with
    | .error error =>
      ⟨watcher.remembering look, [.merge .changeAuto], .refused (.host error)⟩
    | .ok (.merged sha) =>
      ⟨{ watcher.remembering look with armed := true }, [.merge .changeAuto], .landed sha⟩
    | .ok .queued | .ok .opened =>
      awaitArmed { watcher with armed := true } look [.merge .changeAuto]

end Onevcs.Publish
