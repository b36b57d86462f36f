import Onevcs.Foundations.Outcome
import Onevcs.Rules.Composition

/-!
# An overlay laid again

A composition is installed as one rules file, which can be composed again. Laying the overlay
that was laid last over it once more changes nothing, where the overlay's rules match different
things: each of its rules has a place by then, as the rule that stands there or laid over it,
and what it sets is set there already.
-/

namespace Onevcs.Rules

variable {composed laid again base : RulesFile} {overlay : Overlay} {rule earlier : Rule}
  {rules : List Rule} {criteria : RuleMatch}

/-! ## A rule laid twice -/

theorem laidDrafts_again (later earlier : Option Drafts) :
    laidDrafts later (laidDrafts later earlier) = laidDrafts later earlier := by
  cases later <;> cases earlier <;> simp [laidDrafts, Drafts.over, ← Option.or_assoc]

theorem layRule_again (earlier rule : Rule) :
    layRule (layRule earlier rule) rule = layRule earlier rule := by
  simp [layRule, laidDrafts_again, ← Option.or_assoc]

theorem layRule_self (rule : Rule) : layRule rule rule = rule := by
  have hdrafts : laidDrafts rule.drafts rule.drafts = rule.drafts := by
    cases rule.drafts <;> simp [laidDrafts, Drafts.over]
  simp [layRule, hdrafts]

theorem layDefault_again (default : Policy) (patch : Option DefaultPatch) :
    layDefault (layDefault default patch) patch = layDefault default patch := by
  cases patch with
  | none => rfl
  | some patch =>
    obtain ⟨publication, approvals, drafts⟩ := patch
    cases publication <;> cases approvals <;> cases drafts <;>
      simp [layDefault, Drafts.over, ← Option.or_assoc]

/-! ## The first rule of a match -/

/-- The rule that one with this match is laid over. -/
def firstOf (criteria : RuleMatch) (rules : List Rule) : Option Rule :=
  rules.find? fun rule => rule.criteria = criteria

/-- Every rule has a place, where what it sets is set. -/
def Absorbs (rules overlay : List Rule) : Prop :=
  ∀ rule ∈ overlay, ∃ earlier, firstOf rule.criteria rules = some earlier ∧
    layRule earlier rule = earlier

theorem layOverFirst_of_absorbed (hfirst : firstOf rule.criteria rules = some earlier)
    (habsorbed : layRule earlier rule = earlier) : layOverFirst rule rules = some rules := by
  induction rules with
  | nil => cases hfirst
  | cons other rest ih =>
    by_cases hcriteria : other.criteria = rule.criteria
    · obtain rfl : other = earlier := by simpa [firstOf, hcriteria] using hfirst
      rw [layOverFirst, if_pos hcriteria, habsorbed]
    · have hrest : firstOf rule.criteria rest = some earlier := by
        simpa [firstOf, hcriteria] using hfirst
      rw [layOverFirst, if_neg hcriteria, ih hrest]
      rfl

theorem layRules_of_absorbs {overlay : List Rule} (h : Absorbs rules overlay) :
    layRules rules overlay = (rules, []) := by
  induction overlay with
  | nil => rfl
  | cons rule rest ih =>
    obtain ⟨⟨earlier, hfirst, habsorbed⟩, hrest⟩ := List.forall_mem_cons.mp h
    rw [layRules, layOverFirst_of_absorbed hfirst habsorbed]
    exact ih hrest

/-- A rule is laid over the first of its match, and no rule of another match is touched. -/
theorem firstOf_of_laid {after : List Rule} (h : layOverFirst rule rules = some after) :
    (∃ earlier, firstOf rule.criteria after = some (layRule earlier rule)) ∧
      ∀ criteria, criteria ≠ rule.criteria → firstOf criteria after = firstOf criteria rules := by
  induction rules generalizing after with
  | nil => cases h
  | cons other rest ih =>
    unfold layOverFirst at h
    split at h
    · next hcriteria =>
      obtain rfl := Option.some.inj h
      have hkept : (layRule other rule).criteria = rule.criteria := hcriteria
      refine ⟨⟨other, by simp [firstOf, hkept]⟩, fun criteria hne => ?_⟩
      simp [firstOf, hkept, hcriteria, Ne.symm hne]
    · next hcriteria =>
      obtain ⟨laid, hlaid, rfl⟩ := Option.map_eq_some_iff.mp h
      obtain ⟨⟨earlier, hfirst⟩, hothers⟩ := ih hlaid
      refine ⟨⟨earlier, by simpa [firstOf, hcriteria] using hfirst⟩, fun criteria hne => ?_⟩
      have hrest := hothers criteria hne
      unfold firstOf at hrest ⊢
      rw [List.find?_cons, List.find?_cons, hrest]

/-- What no rule of an overlay matches is neither laid over nor put in front. -/
theorem firstOf_layRules (overlay rules : List Rule)
    (h : criteria ∉ overlay.map Rule.criteria) :
    firstOf criteria (layRules rules overlay).1 = firstOf criteria rules ∧
      firstOf criteria (layRules rules overlay).2 = none := by
  induction overlay generalizing rules with
  | nil => exact ⟨rfl, rfl⟩
  | cons rule rest ih =>
    rw [List.map_cons, List.mem_cons, not_or] at h
    unfold layRules
    split
    · next after hlaid =>
      rw [← (firstOf_of_laid hlaid).2 criteria h.1]
      exact ih after h.2
    · obtain ⟨hlaid, hahead⟩ := ih rules h.2
      refine ⟨hlaid, ?_⟩
      simpa [firstOf, Ne.symm h.1] using hahead

/-- What comes of laying rules of different matches absorbs each of them. -/
theorem absorbs_layRules (overlay rules : List Rule)
    (hdistinct : (overlay.map Rule.criteria).Nodup) :
    Absorbs ((layRules rules overlay).2 ++ (layRules rules overlay).1) overlay := by
  induction overlay generalizing rules with
  | nil => exact fun _ hmem => absurd hmem List.not_mem_nil
  | cons rule rest ih =>
    obtain ⟨hnew, hdistinct⟩ := List.nodup_cons.mp hdistinct
    unfold layRules
    split
    · next after hlaid =>
      rw [Absorbs, List.forall_mem_cons]
      refine ⟨?_, ih after hdistinct⟩
      obtain ⟨earlier, hfirst⟩ := (firstOf_of_laid hlaid).1
      obtain ⟨hkept, hahead⟩ := firstOf_layRules rest after hnew
      refine ⟨_, ?_, layRule_again earlier rule⟩
      unfold firstOf at hahead hkept hfirst ⊢
      rw [List.find?_append, hahead, hkept, hfirst]
      rfl
    · rw [Absorbs, List.forall_mem_cons]
      refine ⟨⟨rule, by simp [firstOf], layRule_self rule⟩, fun other hother => ?_⟩
      -- The rule that goes in front is of another match than those after it.
      have hne : rule.criteria ≠ other.criteria :=
        fun heq => hnew (heq ▸ List.mem_map_of_mem hother)
      obtain ⟨earlier, hfirst, habsorbed⟩ := ih rules hdistinct other hother
      exact ⟨earlier, by simpa [firstOf, hne] using hfirst, habsorbed⟩

/-! ## An overlay laid twice -/

theorem lay_eq (hlay : lay composed overlay = .ok laid) :
    laid = {
      version := max composed.version overlay.version
      trailerPrefix := overlay.trailerPrefix.or composed.trailerPrefix
      rules :=
        (layRules composed.rules overlay.rules).2 ++ (layRules composed.rules overlay.rules).1
      default := layDefault composed.default overlay.default } := by
  unfold lay at hlay
  by_cases hversion : overlay.version < oldestVersion
  · simp [hversion, bind, Except.bind, throw, throwThe, MonadExceptOf.throw] at hlay
  · simp only [hversion, if_false, bind, Except.bind, pure, Except.pure] at hlay
    split at hlay
    · cases hlay
    · exact (Except.ok.inj hlay).symm

theorem lay_again (hdistinct : (overlay.rules.map Rule.criteria).Nodup)
    (hlay : lay composed overlay = .ok laid) (hagain : lay laid overlay = .ok again) :
    again = laid := by
  obtain rfl := lay_eq hlay
  obtain rfl := lay_eq hagain
  have habsorbed :=
    layRules_of_absorbs (absorbs_layRules overlay.rules composed.rules hdistinct)
  simp [habsorbed, layDefault_again, ← Option.or_assoc]

theorem layAll_append {overlays : List Overlay}
    (h : layAll base (overlays ++ [overlay]) = .ok laid) :
    ∃ before, layAll base overlays = .ok before ∧ lay before overlay = .ok laid := by
  induction overlays generalizing base with
  | nil =>
    obtain ⟨next, hnext, hrest⟩ := Foundations.bind_eq_ok.mp h
    obtain rfl := Except.ok.inj hrest
    exact ⟨base, rfl, hnext⟩
  | cons first rest ih =>
    obtain ⟨next, hnext, hrest⟩ := Foundations.bind_eq_ok.mp h
    obtain ⟨before, hbefore, hlay⟩ := ih hrest
    refine ⟨before, ?_, hlay⟩
    rw [layAll, hnext]
    exact hbefore

theorem rulesApply_ok {overlays : List Overlay} (h : rulesApply base overlays = .ok composed) :
    layAll base overlays = .ok composed := by
  obtain ⟨_, -, h⟩ := Foundations.bind_eq_ok.mp h
  obtain ⟨laid, hlaid, h⟩ := Foundations.bind_eq_ok.mp h
  obtain ⟨_, -, h⟩ := Foundations.bind_eq_ok.mp h
  obtain rfl := Except.ok.inj h
  exact hlaid

/-- The composition that is installed, composed with the last of its overlays once more, is as
it was, where that overlay's rules match different things. -/
theorem rulesApply_again {overlays : List Overlay}
    (hdistinct : (overlay.rules.map Rule.criteria).Nodup)
    (h : rulesApply base (overlays ++ [overlay]) = .ok composed)
    (hagain : rulesApply composed [overlay] = .ok again) : again = composed := by
  obtain ⟨before, -, hlay⟩ := layAll_append (rulesApply_ok h)
  obtain ⟨relaid, hrelaid, hrest⟩ := Foundations.bind_eq_ok.mp (rulesApply_ok hagain)
  obtain rfl := Except.ok.inj hrest
  exact lay_again hdistinct hlay hrelaid

/-- What making the one repository private comes to. -/
def privately : RulesFile :=
  { hostedBase with
    rules := [{
      criteria := { host := some "github.com" }
      publication := some .changeAuto
      visibility := some .declaredPrivate }] }

theorem rulesApply_again_privately :
    ∃ again, rulesApply privately [makePrivate] = .ok again ∧ again = privately :=
  have hagain : rulesApply privately [makePrivate] = .ok privately := by rfl
  ⟨_, hagain, rulesApply_again (by decide)
    (by rfl : rulesApply hostedBase ([] ++ [makePrivate]) = .ok privately) hagain⟩

end Onevcs.Rules
