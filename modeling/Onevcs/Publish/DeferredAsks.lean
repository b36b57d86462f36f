import Onevcs.Foundations.Outcome
import Onevcs.Publish.Deferred

/-!
# When a deferred publication asks the host

A publication that defers its checks hands its boundary check no host, and returns before it
watches. It still hands the host to the landing read it opens with, which asks whether a change
request that the host was once asked to land has merged, and to the decision whether a moved base
is merged, which asks whether the host requires an up-to-date branch.
-/

namespace Onevcs.Publish.Deferred

open Foundations (Text Traced bind_eq_ok)
open Foundations.Traced

variable {ε α : Type} {answers : Answers ε} {request : PublishRequest} {identity branch : Text}
  {context : Context}

def begins (answers : Answers ε) : Bool :=
  answers.stream.isOk && answers.preserve.isOk && answers.recordedTarget.isOk

/-- Of a change request that the host was asked to land, whose landing is not recorded, and which
is in the identity's own repository on GitHub. -/
def Told.asksHost (parseUrl : Text → Option Review.ParsedUrl) (identity : Text) (told : Told) :
    Bool :=
  !told.landing && told.askedTheHostToLand && told.head.isSome &&
    told.opened.any (fun opened => opened.id.isSome && opened.base.isSome &&
      (parseUrl opened.url).isSome && namesRepository parseUrl opened.url identity) &&
    (Store.slug (.ofList identity)).isSome

/-- The landing read comes to a change request that the host is asked about. -/
def asksLateMerge (answers : Answers ε) (identity : Text) : Bool :=
  answers.landingRead.toOption.any (Told.asksHost answers.parseUrl identity)

/-- A base on GitHub that moved, merges cleanly, and is merged only on a conflict or where the host
requires it. -/
def asksUpToDate (answers : Answers ε) (identity : Text) (setting : Rules.BaseMerge) : Bool :=
  answers.fetch.isOk && answers.landedTarget.toOption.any (fun landed => landed.2.isNone) &&
    answers.comparedExists && setting == .onConflict &&
    answers.isAncestor.toOption == some false &&
    answers.mergeWouldConflict.toOption == some false && (Store.slug (.ofList identity)).isSome

@[simp] theorem silent_locally (answer : Except ε α) : (locally answer).Silent := rfl

theorem answer_locally {answer : Except ε α} {a : α} :
    (locally answer).answer = .ok a ↔ answer = .ok a := by
  cases answer <;> simp [locally, Except.mapError]

theorem silent_locally_bind {β : Type} {answer : Except ε α}
    {f : α → Traced Call (Refusal ε) β} :
    (locally answer >>= f).Silent ↔ ∀ a, answer = .ok a → (f a).Silent := by
  simp [silent_bind, answer_locally]

theorem not_silent_ask_bind {β : Type} (made : Call) (answer : Except ε α)
    (f : α → Traced Call (Refusal ε) β) : ¬ (ask made answer >>= f).Silent := by
  rw [silent_bind]
  exact fun h => not_silent_call _ _ h.1

theorem changeHost_ok_iff {slug : Text} :
    (changeHost identity : Except (Refusal ε) Text) = .ok slug ↔
      ∃ spelled, Store.slug (.ofList identity) = some spelled ∧ spelled.toList = slug := by
  unfold changeHost
  split
  · next spelled hslug => simp [hslug]
  · next hslug => split <;> simp [hslug]

theorem askLateMerge_silent_iff {url : Text} :
    (askLateMerge answers identity url).Silent ↔
      (namesRepository answers.parseUrl url identity && (Store.slug (.ofList identity)).isSome) =
        false := by
  unfold askLateMerge
  cases hnames : namesRepository answers.parseUrl url identity with
  | false => simp
  | true =>
    simp only [Bool.not_true, Bool.false_eq_true, if_false, Bool.true_and]
    cases hhost : (changeHost identity : Except (Refusal ε) Text) with
    | error refusal =>
      cases hslug : Store.slug (.ofList identity) with
      | none => simp
      | some spelled => simp [changeHost, hslug] at hhost
    | ok slug =>
      obtain ⟨spelled, hslug, -⟩ := changeHost_ok_iff.mp hhost
      simp only [hslug, Option.isSome_some, Bool.true_eq_false, iff_false]
      rw [silent_attempt_bind]
      exact fun h => not_silent_call _ _ h.1

theorem reconcileLateMerge_silent_iff {told : Told} :
    (reconcileLateMerge answers identity told).Silent ↔
      told.asksHost answers.parseUrl identity = false := by
  obtain ⟨landing, asked, opened, head⟩ := told
  unfold reconcileLateMerge Told.asksHost
  cases landing with
  | true => simp
  | false =>
    cases asked with
    | false => simp
    | true =>
      cases opened with
      | none => simp
      | some opened =>
        obtain ⟨url, id, base⟩ := opened
        cases id with
        | none => simp
        | some id =>
          cases base with
          | none => simp
          | some base =>
            cases head with
            | none => simp
            | some head =>
              cases hurl : (answers.parseUrl url).isSome with
              | false => simp [hurl]
              | true => simp [hurl, askLateMerge_silent_iff]

theorem takeUpALateMerge_silent_iff :
    (takeUpALateMerge answers context).Silent ↔
      asksLateMerge answers context.identity = false := by
  unfold takeUpALateMerge asksLateMerge
  cases answers.landingRead with
  | error failure => simp [Except.toOption]
  | ok told => simp [Except.toOption, reconcileLateMerge_silent_iff]

theorem requiresUpToDate_silent_iff {base : Text} :
    (requiresUpToDate answers identity base).Silent ↔
      (Store.slug (.ofList identity)).isSome = false := by
  unfold requiresUpToDate
  cases hhost : (changeHost identity : Except (Refusal ε) Text) with
  | error refusal =>
    have hslug : (Store.slug (.ofList identity)).isSome = false := by
      cases hslug : Store.slug (.ofList identity) with
      | none => rfl
      | some spelled => simp [changeHost, hslug] at hhost
    cases refusal <;> simp [hslug]
  | ok slug =>
    obtain ⟨spelled, hslug, -⟩ := changeHost_ok_iff.mp hhost
    simp only [hslug, Option.isSome_some, Bool.true_eq_false, iff_false]
    exact not_silent_ask_bind _ _ _

theorem decideBaseMerge_silent_iff {setting : Rules.BaseMerge} {base : Text} :
    (decideBaseMerge answers setting identity base .here).Silent ↔
      (setting == .onConflict && answers.isAncestor.toOption == some false &&
        answers.mergeWouldConflict.toOption == some false &&
        (Store.slug (.ofList identity)).isSome) = false := by
  unfold decideBaseMerge
  rw [silent_locally_bind]
  cases answers.isAncestor with
  | error failure => simp [Except.toOption]
  | ok carried =>
    simp only [Except.ok.injEq, forall_eq']
    cases carried with
    | true => simp [Except.toOption]
    | false =>
      cases setting with
      | always => simp
      | onConflict =>
        simp only [Bool.false_eq_true, if_false]
        rw [silent_locally_bind]
        cases answers.mergeWouldConflict with
        | error failure => simp [Except.toOption]
        | ok conflicts =>
          simp only [Except.ok.injEq, forall_eq']
          cases conflicts with
          | true => simp [Except.toOption]
          | false =>
            simp only [Bool.false_eq_true, if_false, silent_attempt_bind,
              requiresUpToDate_silent_iff]
            refine (and_iff_left ?_).trans (by simp [Except.toOption])
            split <;> rfl

theorem sync_silent_iff {replay : Option Text} :
    (sync answers context replay).Silent ↔
      (replay.isNone && answers.comparedExists && context.baseMerge == .onConflict &&
        answers.isAncestor.toOption == some false &&
        answers.mergeWouldConflict.toOption == some false &&
        (Store.slug (.ofList context.identity)).isSome) = false := by
  unfold sync
  cases answers.comparedExists with
  | false => simp
  | true =>
    cases replay with
    | some tip => simp
    | none =>
      simp only [Bool.not_true, Bool.false_eq_true, if_false, Option.isNone_none, Bool.true_and]
      rw [silent_bind, decideBaseMerge_silent_iff]
      refine and_iff_left fun merges _ => ?_
      cases merges <;> rfl

theorem holdToTheBoundary_silent {adopt : Text} (h : context.adopt = some adopt) :
    (holdToTheBoundary answers context).Silent := by
  unfold holdToTheBoundary
  rw [h]
  simp only [Option.isNone_some, Bool.false_eq_true, if_false]
  rw [silent_bind]
  refine ⟨rfl, fun screened _ => ?_⟩
  cases screened <;> rfl

theorem publishAsChange_silent {adopt : Text} (hadopt : context.adopt = some adopt)
    (hdraft : context.draft = none) : (publishAsChange answers context).Silent := by
  unfold publishAsChange
  simp only [hadopt, hdraft, Option.isSome_none, Bool.false_eq_true, if_false]
  have hrest : (do
      locally answers.knobs
      locally answers.cancelledBefore
      locally answers.pushTheBranch
      locally answers.cancelledAfter
      pure (.changeReviewDraftUnchecked adopt) : Traced Call (Refusal ε) (Outcome ε)).Silent :=
    .bind rfl fun _ => .bind rfl fun _ => .bind rfl fun _ => .bind rfl fun _ => rfl
  split
  · exact .bind rfl fun _ => hrest
  · exact hrest

theorem answer_askLateMerge {url : Text} :
    (askLateMerge answers identity url).answer = .ok () := by
  unfold askLateMerge
  split
  · rfl
  · split
    · rfl
    · next slug _ =>
      rw [answer_attempt_bind]
      split
      · rfl
      · rw [answer_attempt_bind]
        split
        · exact answer_attempt_bind
        · rfl

theorem answer_takeUpALateMerge : (takeUpALateMerge answers context).answer = .ok () := by
  unfold takeUpALateMerge
  split
  · rfl
  · unfold reconcileLateMerge
    split
    · rfl
    · split
      · split
        · exact answer_askLateMerge
        · rfl
      · rfl

theorem publishSynced_silent {adopt : Text} (hadopt : context.adopt = some adopt)
    (hdraft : context.draft = none) (heffective : context.effective ≠ .localDirect) :
    (publishSynced answers context).Silent := by
  unfold publishSynced
  refine .bind rfl fun nothing => ?_
  cases nothing with
  | true => rfl
  | false =>
    simp only [Bool.false_eq_true, if_false, heffective]
    exact .bind rfl fun _ => .bind (holdToTheBoundary_silent hadopt) fun _ =>
      publishAsChange_silent hadopt hdraft

/-- A publication into a draft asks the host where it takes up a late merge, and where it decides
whether its base is merged. -/
theorem publishResolving_silent_iff {adopt : Text} (hadopt : context.adopt = some adopt)
    (hdraft : context.draft = none) (heffective : context.effective ≠ .localDirect) :
    (publishResolving answers context).Silent ↔
      asksLateMerge answers context.identity = false ∧
        asksUpToDate answers context.identity context.baseMerge = false := by
  unfold publishResolving asksUpToDate
  simp only [hdraft, Option.isSome_none, Bool.false_eq_true, if_false]
  rw [silent_bind, takeUpALateMerge_silent_iff]
  refine and_congr_right fun _ => ?_
  simp only [answer_takeUpALateMerge, forall_const]
  rw [silent_locally_bind]
  cases hfetch : answers.fetch with
  | error failure => simp [Except.isOk, Except.toBool]
  | ok fetched =>
    simp only [forall_const]
    rw [silent_locally_bind]
    cases hlanded : answers.landedTarget with
    | error failure => simp [Except.isOk, Except.toBool, Except.toOption]
    | ok landed =>
      obtain ⟨target, replay⟩ := landed
      simp only [Except.ok.injEq, forall_eq']
      rw [silent_bind, sync_silent_iff]
      cases replay with
      | some tip =>
        refine ⟨fun _ => ?_, fun _ => ⟨by simp, fun _ _ => ?_⟩⟩
        · simp [Except.toOption]
        · exact .bind (publishSynced_silent hadopt rfl heffective) fun _ => rfl
      | none =>
        refine (and_iff_left fun _ _ => ?_).trans ?_
        · exact .bind (publishSynced_silent hadopt hdraft heffective) fun _ => rfl
        · simp [Except.isOk, Except.toBool, Except.toOption]

theorem accept_deferred {resolved : Rules.Resolved} {effective : Rules.MergePolicy} {adopt : Text}
    (h : accept answers request identity branch = .ok (resolved, effective, some adopt)) :
    request.draft = none ∧ effective ≠ .localDirect := by
  unfold accept at h
  obtain ⟨_, _, h⟩ := bind_eq_ok.mp h
  obtain ⟨file, _, h⟩ := bind_eq_ok.mp h
  obtain ⟨narrowed, _, h⟩ := bind_eq_ok.mp h
  obtain ⟨draft, hdeferred, h⟩ := bind_eq_ok.mp h
  obtain ⟨rfl, rfl, rfl⟩ : _ ∧ _ ∧ _ := by simpa using Except.ok.inj h
  unfold deferred at hdeferred
  split at hdeferred
  · cases hdeferred
  · cases hdeferred
  · cases hdeferred
  · split at hdeferred
    · cases hdeferred
    · next hdraft =>
      split at hdeferred
      · cases hdeferred
      · next hgreen =>
        refine ⟨by simpa using hdraft, fun hlocal => ?_⟩
        rw [hlocal] at hgreen
        exact hgreen nofun

/-- A deferred publication asks the host nothing exactly where, once it begins, it neither takes up
a late merge nor asks whether its moved base must be merged. -/
theorem runForSession_silent_iff {resolved : Rules.Resolved} {effective : Rules.MergePolicy}
    {adopt : Text}
    (haccepted : accept answers request identity branch = .ok (resolved, effective, some adopt)) :
    (runForSession answers request identity branch).Silent ↔
      (begins answers = true → asksLateMerge answers identity = false ∧
        asksUpToDate answers identity resolved.baseMerge.value = false) := by
  obtain ⟨hdraft, heffective⟩ := accept_deferred haccepted
  unfold runForSession publish begins
  rw [silent_quietly_bind, haccepted]
  simp only [Except.ok.injEq, forall_eq']
  rw [silent_locally_bind]
  cases answers.stream with
  | error failure => simp [Except.isOk, Except.toBool]
  | ok opened =>
    simp only [forall_const]
    rw [silent_locally_bind]
    cases answers.preserve with
    | error failure => simp [Except.isOk, Except.toBool]
    | ok preserved =>
      simp only [forall_const]
      rw [silent_locally_bind]
      cases answers.recordedTarget with
      | error failure => simp [Except.isOk, Except.toBool]
      | ok target =>
        simp only [Except.ok.injEq, forall_eq']
        rw [silent_attempt_bind, publishResolving_silent_iff rfl hdraft heffective]
        refine (and_iff_left ?_).trans (by simp [Except.isOk, Except.toBool])
        split
        · rfl
        · exact .bind rfl fun _ => rfl

/-! ## Publications that ask -/

/-- The repository `o/n`, and its pull request 7. -/
def hostedIdentity : Text := "github.com/o/n".toList

def adoptedUrl : Text := "https://github.com/o/n/pull/7".toList

/-- A default of `change-open` with approvals required, which leaves `base_merge` to what that
publication implies. -/
def heldRules : Rules.RulesFile where
  version := 4
  trailerPrefix := none
  rules := []
  default := { publication := .changeOpen, approvals := .required }

def deferRequest : PublishRequest where
  policy := none
  draft := none
  deferChecks := true
  adopt := some adoptedUrl

/-- A branch whose base did not move, and a push that is taken. -/
def levelAnswers : Answers Unit where
  host :=
    { forRepo := fun _ => .ok ()
      requiresUpToDate := fun _ => .ok false
      mergedHead := fun _ => .ok none
      mergeTime := fun _ => .ok none
      visibility := .ok none }
  parseUrl text :=
    if text = adoptedUrl then
      some ⟨"https".toList, some "github.com".toList, some [['o'], ['n'], "pull".toList, ['7']]⟩
    else none
  unfinishedMerge := .ok ()
  rules := .ok heldRules
  home := none
  normalized := ⟨"github.com/o/n", some ⟨"github.com", "o", "n"⟩⟩
  checkout := "/o/n"
  recordedHead _ := .ok (some ['b'])
  stream := .ok ()
  preserve := .ok ()
  recordedTarget := .ok (.base ['m'])
  update := .ok ()
  draftChecked := .ok ()
  landingRead := .error ()
  recordLanding := true
  fetch := .ok ()
  landedTarget := .ok (.base ['m'], none)
  nothingToPublish := .ok false
  describe := .ok ()
  comparedExists := true
  isAncestor := .ok true
  mergeWouldConflict := .ok false
  reconcile _ := .ok true
  refetch _ := .ok ()
  declaredPublic := none
  recordedPublic := none
  hosted := true
  screen := .ok ()
  knobs := .ok ()
  cancelledBefore := .ok ()
  pushTheBranch := .ok ()
  cancelledAfter := .ok ()
  reviewedDraft := .ok ()
  publishLocally := pure ()
  landAsChange := pure ()

/-- The base moved since, and merges cleanly. -/
def movedAnswers : Answers Unit := { levelAnswers with isAncestor := .ok false }

/-- The host was once asked to land the change request. -/
def landingAnswers : Answers Unit :=
  { levelAnswers with
    landingRead := .ok ⟨false, true, some ⟨adoptedUrl, some ['7'], some ['m']⟩, some ['c']⟩ }

theorem level_accepted : accept levelAnswers deferRequest hostedIdentity ['b'] =
    .ok (Rules.resolveDefault heldRules, .changeOpen, some adoptedUrl) := by
  decide +kernel

/-- Each of a moved base and a change request that was to land has a deferred publication ask. -/
theorem deferred_asks :
    (accept movedAnswers deferRequest hostedIdentity ['b'] =
        .ok (Rules.resolveDefault heldRules, .changeOpen, some adoptedUrl) ∧
      (runForSession movedAnswers deferRequest hostedIdentity ['b']).calls =
        [.forRepo "o/n".toList, .requiresUpToDate ['m']]) ∧
    accept landingAnswers deferRequest hostedIdentity ['b'] =
        .ok (Rules.resolveDefault heldRules, .changeOpen, some adoptedUrl) ∧
      (runForSession landingAnswers deferRequest hostedIdentity ['b']).calls =
        [.forRepo "o/n".toList, .mergedHead adoptedUrl] := by
  decide +kernel

theorem level_silent : (runForSession levelAnswers deferRequest hostedIdentity ['b']).Silent :=
  (runForSession_silent_iff level_accepted).mpr fun _ => by decide +kernel

end Onevcs.Publish.Deferred
