import Onevcs.Rules.Policy

/-!
# The publication in force

A run may narrow the publication its repository resolves to, and may not widen it:
`policy::narrow`, and `effective_policy` of `publish.rs`.

Publication and approvals come from one rule, or each from that rule or the default, and
every such pairing is one the file was checked for.
-/

namespace Onevcs.Rules

/-- The refusal of a policy that would widen the resolved one. -/
structure Widens where
  requested : MergePolicy
  resolved : MergePolicy
  deriving DecidableEq

def narrowPublication (resolved requested : MergePolicy) : Except Widens MergePolicy :=
  if reviewRank requested < reviewRank resolved then .error ⟨requested, resolved⟩
  else .ok requested

def narrow (resolved : Policy) (requested : MergePolicy) : Except Widens MergePolicy :=
  narrowPublication resolved.publication requested

def effectivePolicy (resolved : Policy) (requested : Option MergePolicy) :
    Except Widens MergePolicy :=
  match requested with
  | some requested => narrow resolved requested
  | none => .ok resolved.publication

theorem narrowPublication_ok_iff {resolved requested narrowed : MergePolicy} :
    narrowPublication resolved requested = .ok narrowed ↔
      narrowed = requested ∧ reviewRank resolved ≤ reviewRank requested := by
  unfold narrowPublication
  split
  · next hwider =>
    constructor
    · rintro ⟨⟩
    · rintro ⟨-, hrank⟩
      omega
  · next hnarrower =>
    constructor
    · intro h
      have heq := Except.ok.inj h
      exact ⟨heq.symm, by omega⟩
    · rintro ⟨rfl, -⟩
      rfl

theorem reviewRank_le_of_effectivePolicy {resolved : Policy} {requested : Option MergePolicy}
    {publication : MergePolicy} (h : effectivePolicy resolved requested = .ok publication) :
    reviewRank resolved.publication ≤ reviewRank publication := by
  cases requested with
  | none =>
    have heq := Except.ok.inj h
    rw [heq]
  | some requested =>
    obtain ⟨rfl, hrank⟩ := narrowPublication_ok_iff.mp h
    exact hrank

/-- The first rule that matches a repository, with its position from one; or no rule does. -/
def FirstMatching (home : Option String) (identity : Normalized) (checkout : String)
    (rules : List Rule) : Option (Nat × Rule) → Prop
  | none => ∀ rule ∈ rules, ruleMatches home rule.criteria identity checkout = false
  | some (index, rule) => ∃ before after,
      rules = before ++ rule :: after ∧ index = before.length + 1 ∧
        ruleMatches home rule.criteria identity checkout = true ∧
        ∀ earlier ∈ before, ruleMatches home earlier.criteria identity checkout = false

theorem firstMatching_firstMatch (home : Option String) (identity : Normalized)
    (checkout : String) (rules passed : List Rule)
    (hpassed : ∀ rule ∈ passed, ruleMatches home rule.criteria identity checkout = false) :
    FirstMatching home identity checkout (passed ++ rules)
      (firstMatch home identity checkout (passed.length + 1) rules) := by
  induction rules generalizing passed with
  | nil =>
    rw [List.append_nil]
    exact hpassed
  | cons rule rest ih =>
    unfold firstMatch
    by_cases hmatch : ruleMatches home rule.criteria identity checkout = true
    · rw [if_pos hmatch]
      exact ⟨passed, rest, rfl, rfl, hmatch, hpassed⟩
    · rw [if_neg hmatch]
      have hnext := ih (passed ++ [rule]) (by
        intro earlier hearlier
        rcases List.mem_append.mp hearlier with hearlier | hearlier
        · exact hpassed earlier hearlier
        · rw [List.mem_singleton.mp hearlier]
          exact Bool.eq_false_iff.mpr hmatch)
      rwa [List.append_assoc, List.length_append, List.length_singleton] at hnext

theorem resolve_mem_pairings (home : Option String) (file : RulesFile) (identity : Normalized)
    (checkout : String) :
    ∃ place, (place, (resolve home file identity checkout).policy.publication,
      (resolve home file identity checkout).policy.approvals) ∈ pairings file := by
  have hfirst := firstMatching_firstMatch home identity checkout file.rules [] (by simp)
  unfold resolve
  rw [List.nil_append, List.length_nil, Nat.zero_add] at hfirst
  cases hfound : firstMatch home identity checkout 1 file.rules with
  | none => exact ⟨.default, List.mem_cons_self⟩
  | some found =>
    obtain ⟨index, rule⟩ := found
    rw [hfound] at hfirst
    obtain ⟨before, after, hrules, rfl, -, -⟩ := hfirst
    refine ⟨.rule (before.length + 1), List.mem_cons_of_mem _ ?_⟩
    rw [hrules, List.mem_mapIdx]
    exact ⟨before.length, by simp, by simp [resolveRule]⟩

theorem unsought_of_validate {file : RulesFile} (h : validate file = .ok ()) :
    unsought file = none := by
  cases hunsought : unsought file with
  | none => rfl
  | some pairing =>
    obtain ⟨place, publication, approvals⟩ := pairing
    exfalso
    simp only [validate, hunsought, throw, throwThe, MonadExceptOf.throw, bind,
      Except.bind] at h
    -- the check of the pairings comes last, and the ones before it only refuse
    repeat' split at h
    all_goals cases h

theorem reviewRank_of_validate {file : RulesFile} (h : validate file = .ok ())
    {place : Place} {publication : MergePolicy}
    (hmem : (place, publication, .required) ∈ pairings file) :
    reviewRank .changeAuto ≤ reviewRank publication := by
  have hnone := List.find?_eq_none.mp (unsought_of_validate h) _ hmem
  simpa using hnone

/-! ## What a repository resolves to -/

/-- A field as the first rule that matches sets it, with that layer, if it does. -/
def setByFirst {α : Type} (found : Option (Nat × Rule)) (field : Rule → Option α) :
    Option (Decided α) :=
  found.bind fun answer => (field answer.2).map fun value => ⟨value, .rule answer.1⟩

/-- A field as the default sets it, if it does. -/
def setByDefault {α : Type} (value : Option α) : Option (Decided α) :=
  value.map fun value => ⟨value, .default⟩

/-- Every field of a resolved policy is as the first rule that matches sets it; where that
rule does not, as the default does, whatever later rules say. -/
structure ResolvesByFirst (default : Policy) (found : Option (Nat × Rule)) (r : Resolved) :
    Prop where
  matched : r.matched = found.map fun answer => ⟨answer.1, answer.2.criteria⟩
  publication : ⟨r.policy.publication, r.publicationFrom⟩ =
    (setByFirst found Rule.publication).getD ⟨default.publication, .default⟩
  approvals : ⟨r.policy.approvals, r.approvalsFrom⟩ =
    (setByFirst found Rule.approvals).getD ⟨default.approvals, .default⟩
  drafts : r.policy.drafts = (found.bind fun answer => answer.2.drafts).or default.drafts
  draftsDisabled : r.drafts.disabled =
    ((setByFirst found fun rule => rule.drafts.bind Drafts.disabled).or
      (setByDefault (default.drafts.bind Drafts.disabled))).getD ⟨false, .shippedDefault⟩
  warnOnEarlyLift : r.drafts.warnOnEarlyLift =
    ((setByFirst found fun rule => rule.drafts.bind Drafts.warnOnEarlyLift).or
      (setByDefault (default.drafts.bind Drafts.warnOnEarlyLift))).getD ⟨true, .shippedDefault⟩
  visibility : r.visibility = found.bind fun answer => answer.2.visibility
  baseMergeNamed : r.policy.baseMerge =
    (found.bind fun answer => answer.2.baseMerge).or default.baseMerge
  baseMerge : r.baseMerge =
    ((setByFirst found Rule.baseMerge).or (setByDefault default.baseMerge)).getD
      ⟨derivedBaseMerge r.policy.publication, .publication r.policy.publication⟩
  checks : r.policy.checks = (found.bind fun answer => answer.2.checks).or default.checks
  checksWait : r.checksWait =
    ((setByFirst found fun rule => rule.checks.bind Checks.waitSeconds).or
      (setByDefault (default.checks.bind Checks.waitSeconds))).getD ⟨.shipped, .shippedDefault⟩

theorem decideValue_eq {α : Type} (index : Nat) (ofRule ofDefault : Option α)
    (otherwise : Decided α) :
    decideValue index ofRule ofDefault otherwise =
      ((ofRule.map fun value => ⟨value, .rule index⟩).or (setByDefault ofDefault)).getD
        otherwise := by
  cases ofRule <;> cases ofDefault <;> rfl

theorem fieldSource_eq {α : Type} (index : Nat) (ofRule : Option α) (ofDefault : α) :
    (⟨ofRule.getD ofDefault, fieldSource index ofRule.isSome⟩ : Decided α) =
      (ofRule.map fun value => ⟨value, .rule index⟩).getD ⟨ofDefault, .default⟩ := by
  cases ofRule <;> rfl

theorem resolveRule_byFirst (file : RulesFile) (index : Nat) (rule : Rule) :
    ResolvesByFirst file.default (some (index, rule)) (resolveRule file index rule) where
  matched := rfl
  publication := fieldSource_eq ..
  approvals := fieldSource_eq ..
  drafts := rfl
  draftsDisabled := decideValue_eq ..
  warnOnEarlyLift := decideValue_eq ..
  visibility := rfl
  baseMergeNamed := rfl
  baseMerge := decideValue_eq ..
  checks := rfl
  checksWait := decideValue_eq ..

theorem resolveDefault_byFirst (file : RulesFile) :
    ResolvesByFirst file.default none (resolveDefault file) where
  matched := rfl
  publication := rfl
  approvals := rfl
  drafts := rfl
  draftsDisabled := decideValue_eq ..
  warnOnEarlyLift := decideValue_eq ..
  visibility := rfl
  baseMergeNamed := rfl
  baseMerge := decideValue_eq ..
  checks := rfl
  checksWait := decideValue_eq ..

/-- What a repository resolves to comes from the first rule that matches it, and from the
default. -/
theorem resolve_byFirst (home : Option String) (file : RulesFile) (identity : Normalized)
    (checkout : String) :
    ∃ found, FirstMatching home identity checkout file.rules found ∧
      ResolvesByFirst file.default found (resolve home file identity checkout) := by
  have hfirst := firstMatching_firstMatch home identity checkout file.rules [] (by simp)
  rw [List.nil_append, List.length_nil, Nat.zero_add] at hfirst
  refine ⟨_, hfirst, ?_⟩
  unfold resolve
  cases firstMatch home identity checkout 1 file.rules with
  | none => exact resolveDefault_byFirst file
  | some found => exact resolveRule_byFirst file found.1 found.2

/-- Under an accepted file, a repository that requires approvals publishes through a host
that evaluates them, whatever policy a run asks for; a run never leaves less review than
the repository resolves to. -/
theorem approvals_waited_for {file : RulesFile} (hvalid : validate file = .ok ())
    (home : Option String) (identity : Normalized) (checkout : String) :
    ((resolve home file identity checkout).policy.approvals = .required →
      reviewRank .changeAuto ≤
          reviewRank (resolve home file identity checkout).policy.publication ∧
        ∀ requested publication,
          effectivePolicy (resolve home file identity checkout).policy requested =
            .ok publication → reviewRank .changeAuto ≤ reviewRank publication) ∧
      (∀ requested publication,
        narrowPublication (resolve home file identity checkout).policy.publication requested =
          .ok publication →
        reviewRank (resolve home file identity checkout).policy.publication ≤
          reviewRank publication) ∧
      ∃ found, FirstMatching home identity checkout file.rules found ∧
        ResolvesByFirst file.default found (resolve home file identity checkout) := by
  refine ⟨fun hrequired => ?_, fun requested publication hnarrowed => ?_,
    resolve_byFirst home file identity checkout⟩
  · obtain ⟨place, hmem⟩ := resolve_mem_pairings home file identity checkout
    rw [hrequired] at hmem
    have hrank := reviewRank_of_validate hvalid hmem
    exact ⟨hrank, fun requested publication hforce =>
      hrank.trans (reviewRank_le_of_effectivePolicy hforce)⟩
  · obtain ⟨rfl, hrank⟩ := narrowPublication_ok_iff.mp hnarrowed
    exact hrank

/-- A rule that requires approvals and leaves the publication to the default, before one
that opens change requests. -/
def approvalsFirst : RulesFile where
  version := 4
  trailerPrefix := none
  rules := [
    { criteria := {}, approvals := some .required },
    { criteria := {}, publication := some .changeOpen }]
  default := { publication := .changeAuto, approvals := .none }

/-- The later rule, which sets the publication, does not decide it: the default does. -/
theorem approvalsFirst_publication :
    validate approvalsFirst = .ok () ∧
      (resolve none approvalsFirst ⟨"local", none⟩ "/work").policy.publication = .changeAuto ∧
      (resolve none approvalsFirst ⟨"local", none⟩ "/work").publicationFrom = .default ∧
      approvalsFirst.rules.all (fun rule => ruleMatches none rule.criteria ⟨"local", none⟩ "/work")
        = true ∧
      (approvalsFirst.rules.filterMap Rule.publication).head? = some .changeOpen := by
  decide

theorem approvals_waited_for_approvalsFirst :
    reviewRank .changeAuto ≤
      reviewRank (resolve none approvalsFirst ⟨"local", none⟩ "/work").policy.publication :=
  ((approvals_waited_for (by decide) none ⟨"local", none⟩ "/work").1 (by decide)).1

end Onevcs.Rules
