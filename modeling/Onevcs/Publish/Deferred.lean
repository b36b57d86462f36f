import Onevcs.Foundations.Traced
import Onevcs.Review.Reply
import Onevcs.Rules.Narrow

/-!
# A publication that defers its checks

`run_for_session`, `deferred`, `publish_resolving`, `sync`, `hold_to_the_boundary`,
`publish_as_change`, `land_deferred` and `take_up_a_late_merge` of `publish.rs`, `decide` and
`requires_up_to_date` of `base_merge.rs`, with the landing read's `reconcile_late_merge` of
`status.rs` and the visibility a boundary check goes by: everything of a publication that is handed
the host, and in which order.

What git, the records and the hooks answer at each point is given, as is what the host answers.
What a publication asks once it watches its change request, what it asks of a change request that
is reviewed, and the whole of one that squashes locally are given as well: a publication that
defers its checks comes to none of them.
-/

namespace Onevcs.Publish.Deferred

open Foundations (Text Traced)
open Foundations.Traced (quietly call)

variable {ε : Type}

/-- What a host is asked: for a repository, and then of it. -/
inductive Call
  | forRepo (slug : Text)
  | requiresUpToDate (base : Text)
  | mergedHead (url : Text)
  | mergeTime (url : Text)
  | visibility
  -- one of the questions of a publication that watches its change request
  | watched
  deriving DecidableEq

/-- What the host answers. A merge is answered by the head that was merged. -/
structure Hosting (ε : Type) where
  forRepo : Text → Except ε Unit
  requiresUpToDate : Text → Except ε Bool
  mergedHead : Text → Except ε (Option Text)
  mergeTime : Text → Except ε (Option Text)
  -- whether the repository is public, where the host says
  visibility : Except ε (Option Bool)

/-- Why a publication is refused, or fails. -/
inductive Refusal (ε : Type)
  | failed (failure : ε)
  | widens (refused : Rules.Widens)
  -- `--defer-checks` names no draft, or `--adopt` is given without it
  | noDraftNamed
  | notDeferred (adopt : Text)
  | draftReason
  | notHeldForReview (effective : Rules.MergePolicy)
  | notAChange (refused : Review.ReplyRefusal)
  | otherRepository (adopt identity : Text)
  | otherBranch (adopt head : Text)
  | unrecorded (adopt : Text)
  -- a host other than github.com, and no hosted repository
  | notImplemented
  | notHosted
  | draftOfLocal
  | reviewed
  | syncConflict
  | boundary (failure : ε)
  deriving DecidableEq

def locally {α : Type} (answer : Except ε α) : Traced Call (Refusal ε) α :=
  quietly (answer.mapError .failed)

def ask {α : Type} (made : Call) (answer : Except ε α) : Traced Call (Refusal ε) α :=
  call made (answer.mapError .failed)

def changeHost (identity : Text) : Except (Refusal ε) Text :=
  match Store.slug (.ofList identity) with
  | some slug => .ok slug.toList
  | none =>
    if (identity.splitOn '/').length = 3 then .error .notImplemented else .error .notHosted

/-! ## What a publication is made of -/

/-- `PublishRequest`, as far as a deferral reads it. -/
structure PublishRequest where
  policy : Option Rules.MergePolicy
  draft : Option Text
  deferChecks : Bool
  adopt : Option Text

/-- Where a publication lands. -/
inductive Target
  | base (base : Text)
  | stacked (below root tip : Text)

/-- `Target::base`. -/
def Target.onto : Target → Text
  | .base name => name
  | .stacked below _ _ => below

/-- `Context`: everything a publication knows of itself. -/
structure Context where
  identity : Text
  effective : Rules.MergePolicy
  baseMerge : Rules.BaseMerge
  branch : Text
  target : Target
  draft : Option Text
  adopt : Option Text

/-- What a `change-opened` recorded. -/
structure Opened where
  url : Text
  id : Option Text
  base : Option Text

/-- What a landing read knows of a branch before it asks: whether a landing is recorded, whether
the host was asked to land it, its newest change request, and the tip of a copy of it. -/
structure Told where
  landing : Bool
  askedTheHostToLand : Bool
  opened : Option Opened
  head : Option Text

/-- What a publication came to. -/
inductive Outcome (ε : Type)
  | nothingToPublish
  | changeReviewDraftUnchecked (adopt : Text)
  -- of a publication that squashes locally, or watches its change request
  | ended
  | failed (refusal : Refusal ε)

/-- What is answered on the way, point by point. -/
structure Answers (ε : Type) where
  host : Hosting ε
  parseUrl : Text → Option Review.ParsedUrl
  -- `run_for_session`: no unfinished merge, the rules file, and what it resolves against
  unfinishedMerge : Except ε Unit
  rules : Except ε Rules.RulesFile
  home : Option String
  normalized : Rules.Normalized
  checkout : String
  -- the newest record of the branch a change request carries
  recordedHead : Text → Except ε (Option Text)
  stream : Except ε Unit
  preserve : Except ε Unit
  recordedTarget : Except ε Target
  update : Except ε Unit
  -- `publish_resolving`
  draftChecked : Except ε Unit
  landingRead : Except ε Told
  recordLanding : Bool
  fetch : Except ε Unit
  landedTarget : Except ε (Target × Option Text)
  nothingToPublish : Except ε Bool
  describe : Except ε Unit
  -- `sync`: whether the base is there, what is asked of it, and each attempt to bring it in
  comparedExists : Bool
  isAncestor : Except ε Bool
  mergeWouldConflict : Except ε Bool
  reconcile : ℕ → Except ε Bool
  refetch : ℕ → Except ε Unit
  -- the boundary: a rule's visibility, the recorded one, whether it is hosted, and the screen
  declaredPublic : Option Bool
  recordedPublic : Option Bool
  hosted : Bool
  screen : Except ε Unit
  -- `publish_as_change`
  knobs : Except ε Unit
  cancelledBefore : Except ε Unit
  pushTheBranch : Except ε Unit
  cancelledAfter : Except ε Unit
  -- what a deferral does not come to
  reviewedDraft : Except ε Unit
  publishLocally : Traced Call (Refusal ε) Unit
  landAsChange : Traced Call (Refusal ε) Unit

inductive GreenDraft
  | lift
  | keepForReview
  | notApplicable
  deriving DecidableEq

def GreenDraft.of : Rules.MergePolicy → Rules.Approvals → GreenDraft
  | .localDirect, _ => .notApplicable
  | .changeOpen, .required => .keepForReview
  | _, _ => .lift

/-- `deferred`: the draft that is pushed into, where checks are deferred. -/
def deferred (answers : Answers ε) (request : PublishRequest) (identity branch : Text)
    (approvals : Rules.Approvals) (effective : Rules.MergePolicy) :
    Except (Refusal ε) (Option Text) :=
  match request.deferChecks, request.adopt with
  | false, none => .ok none
  | true, none => .error .noDraftNamed
  | false, some adopt => .error (.notDeferred adopt)
  | true, some adopt =>
    if request.draft.isSome then .error .draftReason
    else if GreenDraft.of effective approvals ≠ .keepForReview then
      .error (.notHeldForReview effective)
    else do
      let named ← (Review.ChangeUrl.parse answers.parseUrl adopt).mapError .notAChange
      if named.identity ≠ identity then .error (.otherRepository adopt named.identity)
      match ← (answers.recordedHead adopt).mapError .failed with
      | none => .error (.unrecorded adopt)
      | some head =>
        if head ≠ branch then .error (.otherBranch adopt head)
        .ok (some adopt)

/-- `change_repository`: the repository a change request's URL is in. -/
def changeRepository (parseUrl : Text → Option Review.ParsedUrl) (value : Text) : Option Text := do
  let url ← parseUrl value
  let host ← url.host
  let segments := (← url.segments).filter fun segment => !segment.isEmpty
  let isNumber (segment : Text) := !segment.isEmpty && segment.all Char.isDigit
  match segments with
  | [owner, name, pull, number] =>
    if pull = "pull".toList && isNumber number then some (host ++ '/' :: owner ++ '/' :: name)
    else none
  | _ =>
    match segments.reverse with
    | number :: requests :: dash :: path =>
      if requests = "merge_requests".toList && dash = ['-'] && 2 ≤ path.length &&
          isNumber number then
        some (path.reverse.foldl (fun spelled part => spelled ++ '/' :: part) host)
      else none
    | _ => none

def namesRepository (parseUrl : Text → Option Review.ParsedUrl) (url identity : Text) : Bool :=
  match changeRepository parseUrl url with
  | some repository => decide (Review.lowercase repository = Review.lowercase identity)
  | none => false

/-- `publish::reconcile_late_merge`: the host is asked once whether the change request merged, and
when, where it did at a head that carries the branch. -/
def askLateMerge (answers : Answers ε) (identity url : Text) : Traced Call (Refusal ε) Unit :=
  if !namesRepository answers.parseUrl url identity then pure ()
  else
    match (changeHost identity : Except (Refusal ε) Text) with
    | .error _ => pure ()
    | .ok slug => do
      match ← (ask (.forRepo slug) (answers.host.forRepo slug)).attempt with
      | .error _ => pure ()
      | .ok () =>
        match ← (ask (.mergedHead url) (answers.host.mergedHead url)).attempt with
        | .ok (some _) => do
          let _ ← (ask (.mergeTime url) (answers.host.mergeTime url)).attempt
          pure ()
        | _ => pure ()

/-- `status::reconcile_late_merge`: of a change request that the host was asked to land and whose
landing is not recorded. -/
def reconcileLateMerge (answers : Answers ε) (identity : Text) (told : Told) :
    Traced Call (Refusal ε) Unit :=
  if told.landing || !told.askedTheHostToLand then pure ()
  else
    match told.opened, told.head with
    | some ⟨url, some _, some _⟩, some _ =>
      if (answers.parseUrl url).isSome then askLateMerge answers identity url else pure ()
    | _, _ => pure ()

/-- `take_up_a_late_merge`: a landing read whose failures are nobody's. -/
def takeUpALateMerge (answers : Answers ε) (context : Context) : Traced Call (Refusal ε) Unit :=
  match answers.landingRead with
  | .error _ => pure ()
  | .ok told => reconcileLateMerge answers context.identity told

/-! ## Bringing the base in -/

/-- Who brings a moved base that merges cleanly into the branch. -/
inductive BaseBroughtIn
  | here
  | byCaller

/-- `requires_up_to_date`: an identity that nothing hosts has no host to ask. -/
def requiresUpToDate (answers : Answers ε) (identity base : Text) :
    Traced Call (Refusal ε) (Option Bool) :=
  match (changeHost identity : Except (Refusal ε) Text) with
  | .error .notHosted => pure none
  | .error unhosted => quietly (.error unhosted)
  | .ok slug => do
    ask (.forRepo slug) (answers.host.forRepo slug)
    let required ← ask (.requiresUpToDate base) (answers.host.requiresUpToDate base)
    pure (some required)

/-- `base_merge::decide`: whether the base is merged. -/
def decideBaseMerge (answers : Answers ε) (setting : Rules.BaseMerge) (identity base : Text)
    (broughtIn : BaseBroughtIn) : Traced Call (Refusal ε) Bool := do
  let carried ← locally answers.isAncestor
  if carried then pure false
  else
    match setting with
    | .always => pure true
    | .onConflict => do
      let conflicts ← locally answers.mergeWouldConflict
      if conflicts then pure true
      else
        match broughtIn with
        | .byCaller => pure false
        | .here => do
          match ← (requiresUpToDate answers identity base).attempt with
          | .ok (some required) => pure required
          | .ok none => pure false
          -- what could not be read is merged as it always was
          | .error _ => pure true

def syncAttempts : ℕ := 3

/-- The bounded attempts to bring the base in, of which so many are left. -/
def attempts (answers : Answers ε) : ℕ → Except (Refusal ε) Unit
  | 0 => .error .syncConflict
  | left + 1 => do
    let settled ← (answers.reconcile left).mapError .failed
    if settled then .ok ()
    else do
      if 0 < left then (answers.refetch left).mapError .failed
      attempts answers left

/-- `sync`: a branch whose stack landed is replayed whatever the identity says. -/
def sync (answers : Answers ε) (context : Context) (replay : Option Text) :
    Traced Call (Refusal ε) Unit :=
  if !answers.comparedExists then pure ()
  else
    match replay with
    | some _ => quietly (attempts answers syncAttempts)
    | none => do
      let merges ← decideBaseMerge answers context.baseMerge context.identity
        context.target.onto .here
      if merges then quietly (attempts answers syncAttempts) else pure ()

/-- `visibility::screening`: a rule decides, and then the host. -/
def screening (answers : Answers ε) (identity : Text) : Traced Call (Refusal ε) Bool :=
  match answers.declaredPublic with
  | some isPublic => pure isPublic
  | none =>
    match Store.slug (.ofList identity) with
    | none => pure answers.hosted
    | some slug => do
      ask (.forRepo slug.toList) (answers.host.forRepo slug.toList)
      let answered ← ask .visibility answers.host.visibility
      pure (answered.getD true)

def screensWritesUnasked (answers : Answers ε) : Bool :=
  (answers.declaredPublic.or answers.recordedPublic).getD answers.hosted

/-- `hold_to_the_boundary`: what defers its checks goes by the visibility last recorded. -/
def holdToTheBoundary (answers : Answers ε) (context : Context) : Traced Call (Refusal ε) Unit := do
  let screened ←
    if context.adopt.isNone then screening answers context.identity
    else pure (screensWritesUnasked answers)
  if screened then quietly (answers.screen.mapError .boundary) else pure ()

/-- `publish_as_change`: the branch is pushed, and then either its change request is recorded or
it is watched. -/
def publishAsChange (answers : Answers ε) (context : Context) :
    Traced Call (Refusal ε) (Outcome ε) := do
  match (changeHost context.identity : Except (Refusal ε) Text) with
  | .error .notHosted => quietly (.error .notHosted)
  | _ => pure ()
  if context.draft.isSome then ask .watched answers.reviewedDraft
  locally answers.knobs
  locally answers.cancelledBefore
  locally answers.pushTheBranch
  locally answers.cancelledAfter
  match context.adopt with
  | some adopt => pure (.changeReviewDraftUnchecked adopt)
  | none => do
    answers.landAsChange
    pure .ended

/-- What `publish_resolving` does once the base is settled. -/
def publishSynced (answers : Answers ε) (context : Context) :
    Traced Call (Refusal ε) (Outcome ε) := do
  let nothing ← locally answers.nothingToPublish
  if nothing then pure .nothingToPublish
  else do
    locally answers.describe
    holdToTheBoundary answers context
    if context.effective = .localDirect then do
      answers.publishLocally
      pure .ended
    else publishAsChange answers context

def publishResolving (answers : Answers ε) (context : Context) :
    Traced Call (Refusal ε) (Outcome ε × Target) := do
  if context.draft.isSome then
    locally answers.draftChecked
    if context.effective = .localDirect then quietly (.error .draftOfLocal)
  takeUpALateMerge answers context
  locally answers.fetch
  let (target, replay) ← locally answers.landedTarget
  -- a change whose stack the root carries is one onto the root from here on
  let context := if replay.isSome then { context with target } else context
  sync answers context replay
  let outcome ← publishSynced answers context
  pure (outcome, target)

/-- What `run_for_session` decides before anything is preserved or pushed. -/
def accept (answers : Answers ε) (request : PublishRequest) (identity branch : Text) :
    Except (Refusal ε) (Rules.Resolved × Rules.MergePolicy × Option Text) := do
  answers.unfinishedMerge.mapError .failed
  let file ← answers.rules.mapError .failed
  let resolved := Rules.resolve answers.home file answers.normalized answers.checkout
  let effective ← (Rules.effectivePolicy resolved.policy request.policy).mapError .widens
  let adopt ← deferred answers request identity branch resolved.policy.approvals effective
  .ok (resolved, effective, adopt)

/-- What follows: the publication, from its acceptance to its outcome. -/
def publish (answers : Answers ε) (request : PublishRequest) (identity branch : Text)
    (accepted : Rules.Resolved × Rules.MergePolicy × Option Text) :
    Traced Call (Refusal ε) (Outcome ε) := do
  let (resolved, effective, adopt) := accepted
  locally answers.stream
  locally answers.preserve
  let target ← locally answers.recordedTarget
  let context : Context :=
    { identity, effective, baseMerge := resolved.baseMerge.value, branch, target
      draft := request.draft, adopt }
  match ← (publishResolving answers context).attempt with
  | .error refusal => pure (.failed refusal)
  | .ok (outcome, _) => do
    locally answers.update
    pure outcome

def runForSession (answers : Answers ε) (request : PublishRequest) (identity branch : Text) :
    Traced Call (Refusal ε) (Outcome ε) := do
  let accepted ← quietly (accept answers request identity branch)
  publish answers request identity branch accepted

end Onevcs.Publish.Deferred
