import Onevcs.Publish.Checks
import Onevcs.Standings.Pattern

/-!
# What a host declares

`standings/github.rs`'s `Declarations`: a repository's branch rulesets and its classic
protection rules, and what they require of a merge into a base. The host layers every ruleset
that applies and one classic rule: the one that names the branch, or else the oldest that
matches it. A pattern this build cannot evaluate the host still evaluates, as a parameter says.
-/

namespace Onevcs.Standings

open Foundations (Text)
open Publish (Declared collected mem_collected)

/-- `Ruleset`: the refs an active ruleset applies to, and the checks it requires. -/
structure Ruleset where
  include_ : List Text
  exclude : List Text
  checks : List Text

/-- `Classic`: one classic branch-protection rule. -/
structure Classic where
  pattern : Text
  contexts : List Text
  created : Int

structure Declarations where
  defaultBranch : Option Text
  rulesets : List Ruleset
  classic : List Classic

/-- Why an answer cannot be evaluated, said of a pattern. -/
def Unevaluable.say (spelled : Text) : Unevaluable → Text
  | .brace => "the branch pattern ".toList ++ spelled ++ " holds a brace".toList
  | .escape => "the branch pattern ".toList ++ spelled ++ " holds an escape".toList
  | .unclosedClass => "the branch pattern ".toList ++ spelled ++ " opens a class".toList
  | .emptyClass => "the branch pattern ".toList ++ spelled ++ " holds an empty class".toList

/-- `refs/heads/{base}`. -/
def branchRef (base : Text) : Text := "refs/heads/".toList ++ base

namespace Declarations

variable (d : Declarations) (base : Text)

/-! ## What the code finds -/

/-- Whether a ruleset's pattern applies to the base. -/
def applies (spelled : Text) : Except Text Bool :=
  if spelled = "~ALL".toList then .ok true
  else if spelled = "~DEFAULT_BRANCH".toList then .ok (d.defaultBranch == some base)
  else
    match parse spelled with
    | .ok tokens => .ok (matchesName tokens (branchRef base))
    | .error why => .error (why.say spelled)

/-- Whether any of a ruleset's patterns applies, given why an earlier one could not be
evaluated. -/
def anyApplies : Option Text → List Text → Except Text Bool
  | unevaluable, [] => unevaluable.elim (.ok false) .error
  | unevaluable, spelled :: rest =>
    match d.applies base spelled with
    | .ok true => .ok true
    | .ok false => anyApplies unevaluable rest
    | .error why => anyApplies (unevaluable.or (some why)) rest

/-- The checks of the rulesets that apply. -/
def ruled : List Ruleset → Except Text (List Text)
  | [] => .ok []
  | ruleset :: rest =>
    if ruleset.checks.isEmpty then ruled rest
    else
      match d.anyApplies base none ruleset.include_, d.anyApplies base none ruleset.exclude with
      | .ok false, _ | _, .ok true => ruled rest
      | .ok true, .ok false =>
        match ruled rest with
        | .ok names => .ok (ruleset.checks ++ names)
        | .error why => .error why
      | .error why, _ | _, .error why => .error why

/-- The classic rules, in the order they were created. -/
def byAge : List Classic := d.classic.insertionSort fun a b => a.created ≤ b.created

/-- A rule that names the branch exactly. -/
def namesBase (rule : Classic) : Bool :=
  match parse rule.pattern with
  | .ok tokens => exact tokens && rule.pattern == base
  | .error _ => false

/-- The first of the rules whose pattern matches, the ones with no wildcard passed over. -/
def firstMatching : List Classic → Except Text (Option Classic)
  | [] => .ok none
  | rule :: rest =>
    match parse rule.pattern with
    | .ok tokens =>
      if !exact tokens && matchesName tokens base then .ok (some rule) else firstMatching rest
    | .error why => .error (why.say rule.pattern)

/-- `classic_on`: the one classic rule the host applies to the base. -/
def classicOn : Except Text (Option Classic) :=
  match d.byAge.find? (namesBase base) with
  | some rule => .ok (some rule)
  | none => firstMatching base d.byAge

/-- `Declarations::on`: every check the declarations require of a merge into the base. -/
def on : Declared :=
  match d.ruled base d.rulesets with
  | .error why => .unknown why
  | .ok names =>
    match d.classicOn base with
    | .error why => .unknown why
    | .ok rule =>
      let names := collected (names ++ rule.elim [] Classic.contexts)
      if names.isEmpty then .nothing else .names names

variable (host : Text → Text → Bool)

/-- How the host reads a pattern of a ref. -/
def fits (spelled name : Text) : Bool :=
  match parse spelled with
  | .ok tokens => matchesName tokens name
  | .error _ => host spelled name

/-- Whether a ruleset's pattern applies to the base, at the host. -/
def appliesAt (spelled : Text) : Bool :=
  if spelled = "~ALL".toList then true
  else if spelled = "~DEFAULT_BRANCH".toList then d.defaultBranch == some base
  else fits host spelled (branchRef base)

/-- A ruleset applies to the base. -/
def Ruleset.appliesAt (ruleset : Ruleset) : Bool :=
  ruleset.include_.any (d.appliesAt base host) && !ruleset.exclude.any (d.appliesAt base host)

/-- The one classic rule the host applies: one that names the branch, or else the oldest that
matches it. -/
def classicAt : Option Classic :=
  (d.byAge.find? (namesBase base)).or
    (d.byAge.find? fun rule => fits host rule.pattern base)

/-- Every check the host requires of a merge into the base. -/
def requires : List Text :=
  (d.rulesets.filter (Ruleset.appliesAt d base host)).flatMap Ruleset.checks ++
    (d.classicAt base host).elim [] Classic.contexts

variable {d base} {host}

theorem applies_ok (host : Text → Text → Bool) {spelled : Text} {answer : Bool} (h : d.applies base spelled = .ok answer) :
    d.appliesAt base host spelled = answer := by
  unfold applies at h
  unfold appliesAt fits
  split
  · next hall =>
    rw [if_pos hall] at h
    exact Except.ok.inj h
  · next hall =>
    rw [if_neg hall] at h
    split
    · next hdefault =>
      rw [if_pos hdefault] at h
      exact Except.ok.inj h
    · next hdefault =>
      rw [if_neg hdefault] at h
      cases hparse : parse spelled with
      | ok tokens =>
        rw [hparse] at h
        exact Except.ok.inj h
      | error why =>
        rw [hparse] at h
        cases h

theorem anyApplies_ok (host : Text → Text → Bool) {patterns : List Text} {unevaluable : Option Text} {answer : Bool}
    (h : d.anyApplies base unevaluable patterns = .ok answer) :
    (answer = true ∨ unevaluable = none) ∧ patterns.any (d.appliesAt base host) = answer := by
  induction patterns generalizing unevaluable with
  | nil =>
    cases unevaluable with
    | none => exact ⟨Or.inr rfl, Except.ok.inj h⟩
    | some why => cases h
  | cons spelled rest ih =>
    rw [anyApplies] at h
    cases happlies : d.applies base spelled with
    | error why =>
      rw [happlies] at h
      obtain ⟨hknown, hrest⟩ := ih h
      -- only a later pattern that applies makes the answer one
      have hanswer : answer = true := by
        rcases hknown with hanswer | hnone
        · exact hanswer
        · cases unevaluable <;> cases hnone
      subst hanswer
      exact ⟨Or.inl rfl, by simp [hrest]⟩
    | ok applied =>
      rw [happlies] at h
      have hat := applies_ok host happlies
      cases applied with
      | true =>
        obtain rfl := Except.ok.inj h
        exact ⟨Or.inl rfl, by simp [hat]⟩
      | false =>
        obtain ⟨hknown, hrest⟩ := ih h
        exact ⟨hknown, by simp [hat, hrest]⟩

/-- The checks of the rulesets that are found to apply are those of the ones that do. -/
theorem ruled_ok {rulesets : List Ruleset} {names : List Text}
    (h : d.ruled base rulesets = .ok names) :
    (rulesets.filter (Ruleset.appliesAt d base host)).flatMap Ruleset.checks = names := by
  induction rulesets generalizing names with
  | nil => exact Except.ok.inj h
  | cons ruleset rest ih =>
    rw [ruled] at h
    split at h
    · next hempty =>
      have hnone : ruleset.checks = [] := List.isEmpty_iff.mp hempty
      by_cases happlies : Ruleset.appliesAt d base host ruleset = true
      · rw [List.filter_cons_of_pos happlies, List.flatMap_cons, hnone, List.nil_append]
        exact ih h
      · rw [List.filter_cons_of_neg happlies]
        exact ih h
    · split at h
      · next hinclude =>
        have hat := (anyApplies_ok host hinclude).2
        rw [List.filter_cons_of_neg (by simp [Ruleset.appliesAt, hat])]
        exact ih h
      · next _ hexclude _ =>
        have hat := (anyApplies_ok host hexclude).2
        rw [List.filter_cons_of_neg (by simp [Ruleset.appliesAt, hat])]
        exact ih h
      · next hinclude hexclude =>
        have hin := (anyApplies_ok host hinclude).2
        have hout := (anyApplies_ok host hexclude).2
        rw [List.filter_cons_of_pos (by simp [Ruleset.appliesAt, hin, hout]), List.flatMap_cons]
        cases hrest : d.ruled base rest with
        | error why =>
          rw [hrest] at h
          cases h
        | ok later =>
          rw [hrest] at h
          obtain rfl := Except.ok.inj h
          rw [ih hrest]
      · cases h
      · cases h

theorem namesBase_of_fits {rule : Classic} {tokens : List Token}
    (hparse : parse rule.pattern = .ok tokens) (hexact : exact tokens = true)
    (hfits : fits host rule.pattern base = true) : namesBase base rule = true := by
  rw [fits, hparse] at hfits
  have heq := (matches_of_exact hparse hexact base).mp hfits
  rw [namesBase, hparse]
  simp [hexact, heq]

/-- Where no rule names the base, the first that matches it is the first the host reads so. -/
theorem firstMatching_ok {rules : List Classic} {answer : Option Classic}
    (hnone : ∀ rule ∈ rules, namesBase base rule = false)
    (h : firstMatching base rules = .ok answer) :
    rules.find? (fun rule => fits host rule.pattern base) = answer := by
  induction rules with
  | nil => exact Except.ok.inj h
  | cons rule rest ih =>
    rw [List.forall_mem_cons] at hnone
    rw [firstMatching] at h
    cases hparse : parse rule.pattern with
    | error why =>
      rw [hparse] at h
      cases h
    | ok tokens =>
      rw [hparse] at h
      dsimp only at h
      split at h
      · next hmatch =>
        simp only [Bool.and_eq_true] at hmatch
        rw [List.find?_cons_of_pos (by simp [fits, hparse, hmatch.2])]
        exact Except.ok.inj h
      · next hmatch =>
        rw [List.find?_cons_of_neg]
        · exact ih hnone.2 h
        · intro hfits
          -- the rule matches, so it is one of those passed over: it names the base
          have hexact : exact tokens = true := by
            rw [fits, hparse] at hfits
            simpa [hfits] using hmatch
          cases (namesBase_of_fits hparse hexact hfits).symm.trans hnone.1

theorem classicOn_eq {answer : Option Classic} (h : d.classicOn base = .ok answer) :
    d.classicAt base host = answer := by
  rw [classicOn] at h
  cases hfind : d.byAge.find? (namesBase base) with
  | some rule =>
    rw [hfind] at h
    obtain rfl := Except.ok.inj h
    rw [classicAt, hfind, Option.some_or]
  | none =>
    rw [hfind] at h
    have hnone : ∀ rule ∈ d.byAge, namesBase base rule = false := by
      intro rule hrule
      simpa using List.find?_eq_none.mp hfind rule hrule
    rw [classicAt, hfind, Option.none_or]
    exact firstMatching_ok hnone h

/-- What the code reads of the declarations: nothing where the host requires nothing, else what
it requires, and otherwise that it cannot say. -/
theorem on_read (d : Declarations) (base : Text) :
    (∃ why, d.on base = .unknown why) ∨
      (d.on base = .nothing ∧ d.requires base host = []) ∨
        ∃ names, d.on base = .names names ∧ names ≠ [] ∧
          ∀ name, name ∈ names ↔ name ∈ d.requires base host := by
  unfold on
  cases hruled : d.ruled base d.rulesets with
  | error why => exact Or.inl ⟨why, rfl⟩
  | ok ruled =>
    cases hclassic : d.classicOn base with
    | error why => exact Or.inl ⟨why, rfl⟩
    | ok rule =>
      have hmem : ∀ name, name ∈ collected (ruled ++ rule.elim [] Classic.contexts) ↔
          name ∈ d.requires base host := by
        intro name
        rw [mem_collected, requires, ruled_ok hruled, classicOn_eq hclassic]
      dsimp only
      by_cases hempty : collected (ruled ++ rule.elim [] Classic.contexts) = []
      · refine Or.inr (Or.inl ⟨by simp [hempty], ?_⟩)
        rw [List.eq_nil_iff_forall_not_mem]
        intro name hname
        rw [← hmem, hempty] at hname
        cases hname
      · exact Or.inr (Or.inr ⟨_, by simp [hempty], hempty, hmem⟩)

end Declarations

end Onevcs.Standings
