import Mathlib.Data.List.Forall2
import Onevcs.Rules.Apply

/-!
# What a composition of rules carries

The purpose of composing, stated apart from how `lay` does it: a composed rule is a
stack of rules with one match, the rule it started as at the bottom and every overlay
rule laid over it above; each field a rule can set is the last one in the stack that
sets it. A repository resolves to the first stack that matches it, field by field, and
to the composed default where no rule of the stack sets the field.

The code's composition is compared with that, rule by rule and in order.
-/

namespace Onevcs.Rules

/-! ## Stacks of rules -/

/-- `drafts.disabled` as a rule sets it. -/
def Rule.draftsDisabled (rule : Rule) : Option Bool := rule.drafts.bind Drafts.disabled

/-- `drafts.warn_on_early_lift` as a rule sets it. -/
def Rule.warnOnEarlyLift (rule : Rule) : Option Bool := rule.drafts.bind Drafts.warnOnEarlyLift

/-- `checks.wait_seconds` as a rule sets it. -/
def Rule.waitSeconds (rule : Rule) : Option WaitSeconds := rule.checks.bind Checks.waitSeconds

/-- The rules of one match, in one place of the composition: the one that took the place,
and those laid over it, the latest first. -/
structure Stacked where
  bottom : Rule
  overlays : List Rule

namespace Stacked

/-- What every rule of the stack matches. -/
def criteria (st : Stacked) : RuleMatch := st.bottom.criteria

/-- A rule that takes a place of its own. -/
def of (rule : Rule) : Stacked := ⟨rule, []⟩

/-- The stack with one more rule laid over it. -/
def push (st : Stacked) (rule : Rule) : Stacked := ⟨st.bottom, rule :: st.overlays⟩

/-- A field as the last rule of the stack that sets it does. -/
def last {α : Type} (st : Stacked) (field : Rule → Option α) : Option α :=
  (st.overlays ++ [st.bottom]).findSome? field

/-- No rule laid over the stack's first changes its base merge or its wait for checks. -/
structure Unchanged (st : Stacked) : Prop where
  baseMerge : st.last Rule.baseMerge = st.bottom.baseMerge
  waitSeconds : st.last Rule.waitSeconds = st.bottom.waitSeconds

@[simp] theorem last_of {α : Type} (rule : Rule) (field : Rule → Option α) :
    (of rule).last field = field rule := by
  simp [last, of, List.findSome?_cons]
  cases field rule <;> rfl

@[simp] theorem last_push {α : Type} (st : Stacked) (rule : Rule) (field : Rule → Option α) :
    (st.push rule).last field = (field rule).or (st.last field) := by
  unfold last push
  rw [List.cons_append, List.findSome?_cons]
  cases field rule <;> rfl

@[simp] theorem criteria_push (st : Stacked) (rule : Rule) :
    (st.push rule).criteria = st.criteria := rfl

end Stacked

/-- Lay a rule over the first stack with its match, where one has it. -/
def stackOverFirst (rule : Rule) : List Stacked → Option (List Stacked)
  | [] => none
  | st :: rest =>
    if st.criteria = rule.criteria then some (st.push rule :: rest)
    else (stackOverFirst rule rest).map (st :: ·)

/-- An overlay's rules over the stacks so far: the stacks, and those that go ahead of them
in overlay order. -/
def stackRules : List Stacked → List Rule → List Stacked × List Stacked
  | places, [] => (places, [])
  | places, rule :: rest =>
    match stackOverFirst rule places with
    | some laid => stackRules laid rest
    | none => ((stackRules places rest).1, .of rule :: (stackRules places rest).2)

/-- The overlays over the stacks so far. -/
def stackOverlays : List Stacked → List Overlay → List Stacked
  | places, [] => places
  | places, overlay :: rest =>
    stackOverlays ((stackRules places overlay.rules).2 ++ (stackRules places overlay.rules).1)
      rest

/-- The stacks a base and its overlays compose to. -/
def stackAll (base : RulesFile) (overlays : List Overlay) : List Stacked :=
  stackOverlays (base.rules.map .of) overlays

/-- A composed rule carries every field as the last rule of its stack sets it. -/
structure CarriesLast (rule : Rule) (st : Stacked) : Prop where
  criteria : rule.criteria = st.criteria
  publication : rule.publication = st.last Rule.publication
  approvals : rule.approvals = st.last Rule.approvals
  draftsDisabled : rule.draftsDisabled = st.last Rule.draftsDisabled
  warnOnEarlyLift : rule.warnOnEarlyLift = st.last Rule.warnOnEarlyLift
  visibility : rule.visibility = st.last Rule.visibility
  baseMerge : rule.baseMerge = st.last Rule.baseMerge
  waitSeconds : rule.waitSeconds = st.last Rule.waitSeconds

/-- The first stack that matches a repository, with its position. -/
def firstStack (home : Option String) (identity : Normalized) (checkout : String) :
    Nat → List Stacked → Option (Nat × Stacked)
  | _, [] => none
  | index, st :: rest =>
    if ruleMatches home st.criteria identity checkout then some (index, st)
    else firstStack home identity checkout (index + 1) rest

/-- A field as the stack that matched sets it, if any did and it does. -/
def lastSet {α : Type} (found : Option (Nat × Stacked)) (field : Rule → Option α) : Option α :=
  found.bind fun answer => answer.2.last field

/-- A resolved policy takes every field from the last rule of the matching stack that sets
it, and from the composed default where none does. -/
structure ResolvesByLast (default : Policy) (found : Option (Nat × Stacked)) (r : Resolved) :
    Prop where
  matched : r.matched = found.map fun answer => ⟨answer.1, answer.2.criteria⟩
  publication : r.policy.publication = (lastSet found Rule.publication).getD default.publication
  approvals : r.policy.approvals = (lastSet found Rule.approvals).getD default.approvals
  draftsDisabled : r.drafts.disabled.value =
    ((lastSet found Rule.draftsDisabled).or (default.drafts.bind Drafts.disabled)).getD false
  warnOnEarlyLift : r.drafts.warnOnEarlyLift.value =
    ((lastSet found Rule.warnOnEarlyLift).or (default.drafts.bind Drafts.warnOnEarlyLift)).getD true
  visibility : r.visibility = lastSet found Rule.visibility
  baseMerge : r.baseMerge.value = ((lastSet found Rule.baseMerge).or default.baseMerge).getD
    (derivedBaseMerge r.policy.publication)
  waitSeconds : r.checksWait.value =
    ((lastSet found Rule.waitSeconds).or (default.checks.bind Checks.waitSeconds)).getD .shipped

/-- A composition loses nothing: its rules carry what their stacks set last, in order, and
every repository resolves accordingly. -/
structure LosesNothing (home : Option String) (composed : RulesFile) (places : List Stacked) :
    Prop where
  rules : List.Forall₂ CarriesLast composed.rules places
  resolves : ∀ identity checkout, ResolvesByLast composed.default
    (firstStack home identity checkout 1 places) (resolve home composed identity checkout)

/-! ## What the code's composition carries -/

/-- What `lay` keeps of a stack: every field but two as the last rule sets it, and those
two as the first one did. -/
structure Represents (rule : Rule) (st : Stacked) : Prop where
  criteria : rule.criteria = st.criteria
  publication : rule.publication = st.last Rule.publication
  approvals : rule.approvals = st.last Rule.approvals
  draftsDisabled : rule.draftsDisabled = st.last Rule.draftsDisabled
  warnOnEarlyLift : rule.warnOnEarlyLift = st.last Rule.warnOnEarlyLift
  visibility : rule.visibility = st.last Rule.visibility
  baseMerge : rule.baseMerge = st.bottom.baseMerge
  checks : rule.checks = st.bottom.checks

theorem Represents.of (rule : Rule) : Represents rule (.of rule) := by
  constructor <;> first | rfl | exact (Stacked.last_of rule _).symm

theorem laidDrafts_disabled (later earlier : Option Drafts) :
    (laidDrafts later earlier).bind Drafts.disabled =
      (later.bind Drafts.disabled).or (earlier.bind Drafts.disabled) := by
  cases later <;> cases earlier <;> simp [laidDrafts, Drafts.over]

theorem laidDrafts_warnOnEarlyLift (later earlier : Option Drafts) :
    (laidDrafts later earlier).bind Drafts.warnOnEarlyLift =
      (later.bind Drafts.warnOnEarlyLift).or (earlier.bind Drafts.warnOnEarlyLift) := by
  cases later <;> cases earlier <;> simp [laidDrafts, Drafts.over]

theorem Represents.lay {earlier : Rule} {st : Stacked} (h : Represents earlier st) (rule : Rule) :
    Represents (layRule earlier rule) (st.push rule) where
  criteria := h.criteria
  publication := by rw [Stacked.last_push, ← h.publication]; rfl
  approvals := by rw [Stacked.last_push, ← h.approvals]; rfl
  draftsDisabled := by
    rw [Stacked.last_push, ← h.draftsDisabled]
    exact laidDrafts_disabled rule.drafts earlier.drafts
  warnOnEarlyLift := by
    rw [Stacked.last_push, ← h.warnOnEarlyLift]
    exact laidDrafts_warnOnEarlyLift rule.drafts earlier.drafts
  visibility := by rw [Stacked.last_push, ← h.visibility]; rfl
  baseMerge := h.baseMerge
  checks := h.checks

theorem layOverFirst_represents {rules : List Rule} {places : List Stacked}
    (h : List.Forall₂ Represents rules places) (rule : Rule) :
    Option.Rel (List.Forall₂ Represents) (layOverFirst rule rules) (stackOverFirst rule places) := by
  induction h with
  | nil => exact .none
  | @cons earlier st rules places hfirst hrest ih =>
    unfold layOverFirst stackOverFirst
    rw [hfirst.criteria]
    split
    · exact .some (.cons (hfirst.lay rule) hrest)
    · revert ih
      cases layOverFirst rule rules <;> cases stackOverFirst rule places <;> intro ih
      · exact .none
      · cases ih
      · cases ih
      · cases ih with
        | some hlaid => exact .some (.cons hfirst hlaid)

theorem layRules_represents {rules : List Rule} {places : List Stacked}
    (h : List.Forall₂ Represents rules places) (overlay : List Rule) :
    List.Forall₂ Represents (layRules rules overlay).1 (stackRules places overlay).1 ∧
      List.Forall₂ Represents (layRules rules overlay).2 (stackRules places overlay).2 := by
  induction overlay generalizing rules places with
  | nil => exact ⟨h, .nil⟩
  | cons rule rest ih =>
    have hlaid := layOverFirst_represents h rule
    unfold layRules stackRules
    revert hlaid
    cases layOverFirst rule rules <;> cases stackOverFirst rule places <;> intro hlaid
    · exact ⟨(ih h).1, .cons (.of rule) (ih h).2⟩
    · cases hlaid
    · cases hlaid
    · cases hlaid with
      | some hrel => exact ih hrel

theorem lay_ok {composed laid : RulesFile} {overlay : Overlay}
    (hlay : lay composed overlay = .ok laid) :
    laid.rules =
        (layRules composed.rules overlay.rules).2 ++ (layRules composed.rules overlay.rules).1 ∧
      laid.default = layDefault composed.default overlay.default := by
  unfold lay at hlay
  by_cases hversion : overlay.version < oldestVersion
  · simp [hversion, bind, Except.bind, throw, throwThe, MonadExceptOf.throw] at hlay
  · simp only [hversion, if_false, bind, Except.bind, pure, Except.pure] at hlay
    split at hlay
    · exact absurd hlay (by simp)
    · obtain rfl := Except.ok.inj hlay
      exact ⟨rfl, rfl⟩

theorem lay_represents {composed laid : RulesFile} {overlay : Overlay} {places : List Stacked}
    (h : List.Forall₂ Represents composed.rules places) (hlay : lay composed overlay = .ok laid) :
    List.Forall₂ Represents laid.rules
      ((stackRules places overlay.rules).2 ++ (stackRules places overlay.rules).1) := by
  rw [(lay_ok hlay).1]
  obtain ⟨hcomposed, hahead⟩ := layRules_represents h overlay.rules
  exact List.rel_append hahead hcomposed

theorem layAll_represents {composed laid : RulesFile} {overlays : List Overlay}
    {places : List Stacked} (h : List.Forall₂ Represents composed.rules places)
    (hlay : layAll composed overlays = .ok laid) :
    List.Forall₂ Represents laid.rules (stackOverlays places overlays) := by
  induction overlays generalizing composed places with
  | nil =>
    obtain rfl := Except.ok.inj hlay
    exact h
  | cons overlay rest ih =>
    simp only [layAll, bind, Except.bind] at hlay
    split at hlay
    · exact absurd hlay (by simp)
    · next next hnext => exact ih (lay_represents h hnext) hlay

theorem rulesApply_represents {base composed : RulesFile} {overlays : List Overlay}
    (h : rulesApply base overlays = .ok composed) :
    List.Forall₂ Represents composed.rules (stackAll base overlays) := by
  have hbase : List.Forall₂ Represents base.rules (base.rules.map .of) := by
    rw [List.forall₂_map_right_iff, List.forall₂_same]
    exact fun rule _ => .of rule
  simp only [rulesApply, bind, Except.bind, pure, Except.pure] at h
  split at h
  · exact absurd h (by simp)
  · split at h
    · exact absurd h (by simp)
    · next laid hlaid =>
      split at h
      · exact absurd h (by simp)
      · obtain rfl := Except.ok.inj h
        exact layAll_represents hbase hlaid

/-! ## Exactly when it loses nothing -/

theorem Represents.carriesLast {rule : Rule} {st : Stacked} (h : Represents rule st)
    (hunchanged : st.Unchanged) : CarriesLast rule st where
  criteria := h.criteria
  publication := h.publication
  approvals := h.approvals
  draftsDisabled := h.draftsDisabled
  warnOnEarlyLift := h.warnOnEarlyLift
  visibility := h.visibility
  baseMerge := h.baseMerge.trans hunchanged.baseMerge.symm
  waitSeconds := by rw [hunchanged.waitSeconds, Rule.waitSeconds, h.checks]; rfl

theorem Represents.unchanged {rule : Rule} {st : Stacked} (h : Represents rule st)
    (hcarries : CarriesLast rule st) : st.Unchanged where
  baseMerge := hcarries.baseMerge.symm.trans h.baseMerge
  waitSeconds := by
    rw [← hcarries.waitSeconds]
    unfold Rule.waitSeconds
    rw [h.checks]

theorem firstMatch_carries {rules : List Rule} {places : List Stacked}
    (h : List.Forall₂ CarriesLast rules places) (home : Option String) (identity : Normalized)
    (checkout : String) (index : Nat) :
    Option.Rel (fun r s => r.1 = s.1 ∧ CarriesLast r.2 s.2)
      (firstMatch home identity checkout index rules)
      (firstStack home identity checkout index places) := by
  induction h generalizing index with
  | nil => exact .none
  | @cons rule st rules places hfirst hrest ih =>
    unfold firstMatch firstStack
    rw [hfirst.criteria]
    split
    · exact .some ⟨rfl, hfirst⟩
    · exact ih (index + 1)

theorem decideValue_value {α : Type} (index : Nat) (ofRule ofDefault : Option α)
    (otherwise : Decided α) :
    (decideValue index ofRule ofDefault otherwise).value =
      (ofRule.or ofDefault).getD otherwise.value := by
  cases ofRule <;> cases ofDefault <;> rfl

theorem resolveRule_byLast (file : RulesFile) (index : Nat) {rule : Rule} {st : Stacked}
    (h : CarriesLast rule st) :
    ResolvesByLast file.default (some (index, st)) (resolveRule file index rule) where
  matched := by simp [resolveRule, h.criteria]
  publication := by simp [resolveRule, lastSet, h.publication]
  approvals := by simp [resolveRule, lastSet, h.approvals]
  draftsDisabled := by
    simp only [lastSet, Option.bind_some, ← h.draftsDisabled]
    exact decideValue_value ..
  warnOnEarlyLift := by
    simp only [lastSet, Option.bind_some, ← h.warnOnEarlyLift]
    exact decideValue_value ..
  visibility := h.visibility
  baseMerge := by
    simp only [lastSet, Option.bind_some, ← h.baseMerge]
    exact decideValue_value ..
  waitSeconds := by
    simp only [lastSet, Option.bind_some, ← h.waitSeconds]
    exact decideValue_value ..

theorem resolveDefault_byLast (file : RulesFile) :
    ResolvesByLast file.default none (resolveDefault file) where
  matched := rfl
  publication := rfl
  approvals := rfl
  draftsDisabled := decideValue_value ..
  warnOnEarlyLift := decideValue_value ..
  visibility := rfl
  baseMerge := decideValue_value ..
  waitSeconds := decideValue_value ..

theorem resolves_of_carries {home : Option String} {composed : RulesFile} {places : List Stacked}
    (h : List.Forall₂ CarriesLast composed.rules places) (identity : Normalized)
    (checkout : String) :
    ResolvesByLast composed.default (firstStack home identity checkout 1 places)
      (resolve home composed identity checkout) := by
  have hfound := firstMatch_carries h home identity checkout 1
  unfold resolve
  revert hfound
  cases firstMatch home identity checkout 1 composed.rules <;>
    cases firstStack home identity checkout 1 places <;> intro hfound
  · exact resolveDefault_byLast composed
  · cases hfound
  · cases hfound
  · next r s =>
    obtain ⟨index, rule⟩ := r
    obtain ⟨index', st⟩ := s
    cases hfound with
    | some hrel =>
      obtain ⟨rfl, hcarries⟩ : index = index' ∧ CarriesLast rule st := hrel
      exact resolveRule_byLast composed index hcarries

/-- Rules that represent their stacks carry every last field exactly where nothing that is
kept from below was changed above. -/
theorem carriesLast_iff {rules : List Rule} {places : List Stacked}
    (h : List.Forall₂ Represents rules places) :
    List.Forall₂ CarriesLast rules places ↔ ∀ st ∈ places, st.Unchanged := by
  induction h with
  | nil => simp
  | cons hfirst _ ih =>
    rw [List.forall₂_cons, List.forall_mem_cons, ih]
    exact and_congr_left' ⟨hfirst.unchanged, hfirst.carriesLast⟩

/-- An accepted composition loses nothing exactly when no rule laid over another changes
its base merge or its wait for checks. -/
theorem rulesApply_losesNothing_iff (home : Option String) {base composed : RulesFile}
    {overlays : List Overlay} (h : rulesApply base overlays = .ok composed) :
    LosesNothing home composed (stackAll base overlays) ↔
      ∀ st ∈ stackAll base overlays, st.Unchanged := by
  have hiff := carriesLast_iff (rulesApply_represents h)
  refine ⟨fun hnothing => hiff.mp hnothing.rules, fun hunchanged => ?_⟩
  have hcarries := hiff.mpr hunchanged
  exact ⟨hcarries, resolves_of_carries hcarries⟩

/-- One repository's rule, under the default that opens change requests. -/
def hostedBase : RulesFile where
  version := 4
  trailerPrefix := none
  rules := [{ criteria := { host := some "github.com" }, publication := some .changeAuto }]
  default := ⟨.changeOpen, .required, none, none, none⟩

/-- An overlay that makes the same repository private. -/
def makePrivate : Overlay where
  version := 4
  rules := [{ criteria := { host := some "github.com" }, visibility := some .declaredPrivate }]

/-- An overlay that asks for the same repository's base to be merged always. -/
def mergeAlways : Overlay where
  version := 4
  rules := [{ criteria := { host := some "github.com" }, baseMerge := some .always }]

theorem rulesApply_losesNothing_iff_makePrivate :
    ∃ composed, rulesApply hostedBase [makePrivate] = .ok composed ∧
      LosesNothing none composed (stackAll hostedBase [makePrivate]) := by
  have hunchanged : ∀ st ∈ stackAll hostedBase [makePrivate], st.Unchanged := by
    intro st hst
    obtain rfl : st = _ := List.mem_singleton.mp hst
    exact ⟨by decide, by decide⟩
  exact ⟨_, rfl, (rulesApply_losesNothing_iff none rfl).mpr hunchanged⟩

/-- The base merge an overlay sets is not in the composed rule. -/
theorem rulesApply_drops_baseMerge :
    ¬ ∀ (home : Option String) (base composed : RulesFile) (overlays : List Overlay),
      rulesApply base overlays = .ok composed →
        LosesNothing home composed (stackAll base overlays) := by
  intro hall
  have hrules := (hall none hostedBase hostedBase [mergeAlways] rfl).rules
  cases hrules with
  | cons hcarries _ => exact absurd hcarries.baseMerge (by decide)

end Onevcs.Rules
