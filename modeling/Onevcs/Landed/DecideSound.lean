import Onevcs.Foundations.Outcome
import Onevcs.Landed.Decide

/-!
# What an answer about a landing says

A yes is a landing some tier found, and merging the branch into it changes nothing; an answer in
part is that of the most certain tier that found one, and none that was found accounts for the
branch; a no is from a history that reaches where the base is known to stand.
-/

namespace Onevcs.Landings

open Foundations (Text bind_eq_ok bind_ite_eq_ok)
open Retire (mergeBase knownToReach)

section

variable {κ ε : Type} [DecidableEq κ] [DecidableEq ε] {G : Repository κ ε} {repo : Asked κ}
  {compared tip fork : κ} {parseUrl : Text → Option Review.ParsedUrl} {branch : Text}
  {known : Option κ} {recorded : Recorded κ} {trailers : Trailers}

omit [DecidableEq κ] in
theorem ask_eq_ok {α : Type} {question : Retire.Question κ} {answer given : α}
    (h : repo.toView.ask question answer = .ok given) : given = answer := by
  unfold Retire.View.ask at h
  split at h
  · cases h
  · exact (Except.ok.inj h).symm

omit [DecidableEq κ] in
theorem query_eq_ok {α : Type} {question : Query κ} {answer given : α}
    (h : query repo question answer = .ok given) : given = answer := by
  unfold query at h
  split at h
  · cases h
  · exact (Except.ok.inj h).symm

omit [DecidableEq ε] in
theorem shown_iff {ancestor descendant : κ} {answer : Bool}
    (h : knownToReach G.toCommits repo.toView ancestor descendant = .ok answer) :
    answer = true ↔ Shown G repo descendant ancestor := by
  unfold knownToReach at h
  unfold Shown
  split at h
  · next hhas =>
    rw [Bool.and_eq_true] at hhas
    rw [ask_eq_ok h, decide_eq_true_iff]
    exact ⟨fun hreaches => ⟨hhas.1, hhas.2, hreaches⟩, fun hshown => hshown.2.2⟩
  · next hnot =>
    obtain rfl := Except.ok.inj h
    refine iff_of_false Bool.false_ne_true fun hshown => hnot ?_
    rw [hshown.1, hshown.2.1]
    rfl

theorem integrates_iff {landing commit : κ} {answer : Bool}
    (h : alreadyIntegrates G repo landing commit = .ok answer) :
    answer = true ↔ Integrates G landing commit := by
  rw [query_eq_ok h, decide_eq_true_iff]

omit [DecidableEq ε] in
theorem logMessages_eq {base : κ} {history : List (κ × Text)}
    (h : logMessages G repo base tip = .ok history) : history = messages G base tip := ask_eq_ok h

omit [DecidableEq ε] in
theorem reaches_of_mem_messages {base commit : κ} {message : Text}
    (h : (commit, message) ∈ messages G base tip) : G.history.Reaches tip commit := by
  unfold messages at h
  split at h
  · obtain ⟨listed, hlisted, hrecord⟩ := List.mem_filterMap.mp h
    obtain ⟨text, -, heq⟩ := Option.map_eq_some_iff.mp hrecord
    obtain ⟨rfl, -⟩ := Prod.mk.inj heq
    exact (Foundations.History.mem_beyond.mp ((G.log_perm base tip).mem_iff.mp hlisted)).1
  · cases h

omit [DecidableEq κ] in
theorem mem_history_of_namesTheChange {history : List (κ × Text)} {url : Text} {commit : κ}
    (h : namesTheChange parseUrl history url branch = some commit) :
    ∃ message, (commit, message) ∈ history := by
  unfold namesTheChange at h
  obtain ⟨repository, -, h⟩ := Option.bind_eq_some_iff.mp h
  obtain ⟨⟨owner, number⟩, -, h⟩ := Option.bind_eq_some_iff.mp h
  obtain ⟨⟨found, message⟩, hfound, h⟩ := Option.bind_eq_some_iff.mp h
  obtain rfl : found = commit := Option.some.inj h
  exact ⟨message, List.mem_of_find?_eq_some hfound⟩

omit [DecidableEq ε] in
theorem mem_carriers_iff {history : List (κ × Text)} {commit carried : κ} :
    (commit, carried) ∈ carriers G trailers history ↔
      ∃ message, (commit, message) ∈ history ∧
        carried ∈ G.trailerValues message trailers.landed := by
  unfold carriers
  rw [List.mem_flatMap]
  constructor
  · rintro ⟨⟨listed, message⟩, hlisted, hcarried⟩
    obtain ⟨value, hvalue, heq⟩ := List.mem_map.mp hcarried
    obtain ⟨rfl, rfl⟩ := Prod.mk.inj heq
    exact ⟨message, hlisted, hvalue⟩
  · rintro ⟨message, hlisted, hcarried⟩
    exact ⟨(commit, message), hlisted, List.mem_map.mpr ⟨carried, hcarried, rfl⟩⟩

omit [DecidableEq ε] in
theorem reaches_of_found {evidence : Evidence κ}
    (h : Found G repo compared tip parseUrl branch recorded trailers evidence) :
    G.history.Reaches compared evidence.commit := by
  cases evidence with
  | recordedLanding commit => exact h.2.2.2
  | changeRequest commit url =>
    obtain ⟨-, fork, -, hnames⟩ := h
    obtain ⟨message, hmem⟩ := mem_history_of_namesTheChange hnames
    exact reaches_of_mem_messages hmem
  | trailer commit =>
    obtain ⟨fork, -, carried, hcarried, -⟩ := h
    obtain ⟨message, hmem, -⟩ := mem_carriers_iff.mp hcarried
    exact reaches_of_mem_messages hmem

/-! ## Weighing what the tiers find -/

/-- None of the landings considered accounts for the branch, and what is kept is of the most
certain tier of theirs. -/
structure Weighed (G : Repository κ ε) (tip : κ) (considered : Evidence κ → Prop)
    (kept : Option (Evidence κ)) : Prop where
  found : ∀ evidence, kept = some evidence → considered evidence
  declined : ∀ evidence, considered evidence → ¬ Integrates G evidence.commit tip
  first : ∀ evidence, considered evidence → ∃ best, kept = some best ∧ best.tier ≤ evidence.tier

variable {considered wider : Evidence κ → Prop} {kept : Option (Evidence κ)}
  {evidence : Evidence κ}

omit [DecidableEq ε] in
theorem Weighed.nothing (h : ∀ evidence, ¬ considered evidence) : Weighed G tip considered none where
  found := nofun
  declined evidence hconsidered := absurd hconsidered (h evidence)
  first evidence hconsidered := absurd hconsidered (h evidence)

omit [DecidableEq ε] in
theorem Weighed.congr (h : Weighed G tip considered kept)
    (hiff : ∀ evidence, considered evidence ↔ wider evidence) : Weighed G tip wider kept where
  found evidence hkept := (hiff evidence).mp (h.found evidence hkept)
  declined evidence hwider := h.declined evidence ((hiff evidence).mpr hwider)
  first evidence hwider := h.first evidence ((hiff evidence).mpr hwider)

omit [DecidableEq ε] in
theorem Weighed.add (h : Weighed G tip considered kept) (hnot : ¬ Integrates G evidence.commit tip)
    (hlast : ∀ other, considered other → other.tier ≤ evidence.tier) :
    Weighed G tip (fun other => considered other ∨ other = evidence) (kept.or (some evidence)) := by
  refine ⟨fun other hother => ?_, fun other hother => ?_, fun other hother => ?_⟩
  · cases hkept : kept with
    | some best =>
      rw [hkept, Option.some_or] at hother
      exact .inl (h.found other (hkept.trans hother))
    | none =>
      rw [hkept, Option.none_or] at hother
      exact .inr (Option.some.inj hother).symm
  · rcases hother with hconsidered | rfl
    · exact h.declined other hconsidered
    · exact hnot
  · cases hkept : kept with
    | some best =>
      refine ⟨best, Option.some_or, ?_⟩
      rcases hother with hconsidered | rfl
      · obtain ⟨first, hfirst, hle⟩ := h.first other hconsidered
        obtain rfl := Option.some.inj (hkept.symm.trans hfirst)
        exact hle
      · exact hlast best (h.found best hkept)
    | none =>
      refine ⟨evidence, Option.none_or, ?_⟩
      rcases hother with hconsidered | rfl
      · obtain ⟨first, hfirst, -⟩ := h.first other hconsidered
        rw [hkept] at hfirst
        cases hfirst
      · exact Nat.le_refl _

theorem weigh_cases {verdict : Verdict κ} (h : weigh G repo tip kept evidence = .ok verdict) :
    (verdict = .yes evidence ∧ Integrates G evidence.commit tip) ∨
      (verdict = .kept (kept.or (some evidence)) ∧ ¬ Integrates G evidence.commit tip) := by
  unfold weigh at h
  rcases bind_ite_eq_ok.mp h with ⟨hyes, hverdict⟩ | ⟨hno, hverdict⟩
  · exact .inl ⟨(Except.ok.inj hverdict).symm, (integrates_iff hyes).mp rfl⟩
  · refine .inr ⟨(Except.ok.inj hverdict).symm, fun hintegrates => ?_⟩
    cases (integrates_iff hno).mpr hintegrates

omit [DecidableEq κ] in
theorem orElse_eq_ok {verdict : Except String (Verdict κ)}
    {next : Option (Evidence κ) → Except String (Landed κ)} {answer : Landed κ}
    (h : Verdict.orElse verdict next = .ok answer) :
    (∃ evidence, verdict = .ok (.yes evidence) ∧ answer = .yes evidence) ∨
      ∃ kept, verdict = .ok (.kept kept) ∧ next kept = .ok answer := by
  obtain ⟨outcome, hverdict, h⟩ := bind_eq_ok.mp h
  cases outcome with
  | yes evidence => exact .inl ⟨evidence, hverdict, (Except.ok.inj h).symm⟩
  | kept kept => exact .inr ⟨kept, hverdict, h⟩

section Tiers

/-- A tier up to some level finds a landing. -/
def FoundBy (G : Repository κ ε) (repo : Asked κ) (compared tip : κ)
    (parseUrl : Text → Option Review.ParsedUrl) (branch : Text) (recorded : Recorded κ)
    (trailers : Trailers) (level : ℕ) (evidence : Evidence κ) : Prop :=
  Found G repo compared tip parseUrl branch recorded trailers evidence ∧ evidence.tier ≤ level

theorem recordedTier_yes (h : recordedTier G repo compared tip recorded = .ok (.yes evidence)) :
    Found G repo compared tip parseUrl branch recorded trailers evidence ∧
      Integrates G evidence.commit tip := by
  unfold recordedTier at h
  split at h
  · cases h
  · next landing hlanding =>
    rcases bind_ite_eq_ok.mp h with ⟨hreach, hweigh⟩ | ⟨-, hkept⟩
    · rcases weigh_cases hweigh with ⟨heq, hintegrates⟩ | ⟨heq, -⟩
      · cases heq
        exact ⟨⟨⟨landing, hlanding, rfl⟩, (shown_iff hreach).mp rfl⟩, hintegrates⟩
      · cases heq
    · cases hkept

theorem recordedTier_kept (h : recordedTier G repo compared tip recorded = .ok (.kept kept)) :
    Weighed G tip (FoundBy G repo compared tip parseUrl branch recorded trailers 1) kept := by
  -- Only a recorded landing is of the first tier.
  have honly : ∀ evidence, FoundBy G repo compared tip parseUrl branch recorded trailers 1 evidence →
      ∃ landing, recorded.landing = some landing ∧ evidence = .recordedLanding landing.commit ∧
        Shown G repo compared landing.commit := by
    rintro (commit | ⟨commit, url⟩ | commit) ⟨hfound, htier⟩
    · obtain ⟨⟨landing, hlanding, rfl⟩, hshown⟩ := hfound
      exact ⟨landing, hlanding, rfl, hshown⟩
    · exact absurd htier (show ¬ 2 ≤ 1 by decide)
    · exact absurd htier (show ¬ 3 ≤ 1 by decide)
  unfold recordedTier at h
  split at h
  · next hnone =>
    cases h
    refine Weighed.nothing fun evidence hevidence => ?_
    obtain ⟨landing, hlanding, -⟩ := honly evidence hevidence
    rw [hnone] at hlanding
    cases hlanding
  · next landing hlanding =>
    rcases bind_ite_eq_ok.mp h with ⟨hreach, hweigh⟩ | ⟨hreach, hkept⟩
    · rcases weigh_cases hweigh with ⟨heq, -⟩ | ⟨heq, hnot⟩
      · cases heq
      · cases heq
        have hadd : Weighed G tip (fun other => False ∨ other = .recordedLanding landing.commit)
            (none.or (some (.recordedLanding landing.commit))) :=
          (Weighed.nothing fun _ => id).add hnot fun _ => False.elim
        refine hadd.congr fun evidence => ?_
        rw [false_or]
        constructor
        · rintro rfl
          exact ⟨⟨⟨landing, hlanding, rfl⟩, (shown_iff hreach).mp rfl⟩, Nat.le_refl 1⟩
        · intro hevidence
          obtain ⟨other, hother, rfl, -⟩ := honly evidence hevidence
          rw [Option.some.inj (hlanding.symm.trans hother)]
    · cases hkept
      refine Weighed.nothing fun evidence hevidence => ?_
      obtain ⟨other, hother, -, hshown⟩ := honly evidence hevidence
      obtain rfl := Option.some.inj (hlanding.symm.trans hother)
      cases (shown_iff hreach).mpr hshown

omit [DecidableEq ε] in
theorem foundBy_two_iff (hfork : G.history.mergeBase compared tip = some fork) :
    FoundBy G repo compared tip parseUrl branch recorded trailers 2 evidence ↔
      FoundBy G repo compared tip parseUrl branch recorded trailers 1 evidence ∨
        ∃ url commit, recorded.change = some url ∧
          namesTheChange parseUrl (messages G fork compared) url branch = some commit ∧
          evidence = .changeRequest commit url := by
  constructor
  · rintro ⟨hfound, htier⟩
    cases evidence with
    | recordedLanding commit => exact .inl ⟨hfound, Nat.le_refl 1⟩
    | changeRequest commit url =>
      obtain ⟨hchange, other, hother, hnames⟩ := hfound
      obtain rfl := Option.some.inj (hfork.symm.trans hother)
      exact .inr ⟨url, commit, hchange, hnames, rfl⟩
    | trailer commit => exact absurd htier (show ¬ 3 ≤ 2 by decide)
  · rintro (⟨hfound, htier⟩ | ⟨url, commit, hchange, hnames, rfl⟩)
    · exact ⟨hfound, htier.trans (by decide)⟩
    · exact ⟨⟨hchange, fork, hfork, hnames⟩, Nat.le_refl 2⟩

theorem changeTier_yes (hfork : G.history.mergeBase compared tip = some fork)
    (h : changeTier G repo tip parseUrl branch recorded (messages G fork compared) kept =
      .ok (.yes evidence)) :
    Found G repo compared tip parseUrl branch recorded trailers evidence ∧
      Integrates G evidence.commit tip := by
  unfold changeTier at h
  split at h
  · cases h
  · next url hchange =>
    split at h
    · cases h
    · next commit hnames =>
      rcases weigh_cases h with ⟨heq, hintegrates⟩ | ⟨heq, -⟩
      · cases heq
        exact ⟨⟨hchange, fork, hfork, hnames⟩, hintegrates⟩
      · cases heq

theorem changeTier_kept {later : Option (Evidence κ)}
    (hfork : G.history.mergeBase compared tip = some fork)
    (hkept : Weighed G tip (FoundBy G repo compared tip parseUrl branch recorded trailers 1) kept)
    (h : changeTier G repo tip parseUrl branch recorded (messages G fork compared) kept =
      .ok (.kept later)) :
    Weighed G tip (FoundBy G repo compared tip parseUrl branch recorded trailers 2) later := by
  unfold changeTier at h
  split at h
  · next hnone =>
    cases h
    refine hkept.congr fun evidence => ?_
    rw [foundBy_two_iff hfork, hnone]
    simp
  · next url hchange =>
    split at h
    · next hnone =>
      cases h
      refine hkept.congr fun evidence => ?_
      rw [foundBy_two_iff hfork, hchange]
      simp [hnone]
    · next commit hnames =>
      rcases weigh_cases h with ⟨heq, -⟩ | ⟨heq, hnot⟩
      · cases heq
      · cases heq
        refine (hkept.add hnot fun other hother => hother.2.trans (show 1 ≤ 2 by decide)).congr
          fun evidence => ?_
        rw [foundBy_two_iff hfork, hchange]
        simp [hnames]

theorem trailerTier_yes {pairs : List (κ × κ)}
    (h : trailerTier G repo tip kept pairs = .ok (.yes evidence)) :
    (∃ pair ∈ pairs, Shown G repo tip pair.2 ∧ evidence = .trailer pair.1) ∧
      Integrates G evidence.commit tip := by
  induction pairs generalizing kept with
  | nil => cases h
  | cons pair rest ih =>
    have hrest : ∀ {kept : Option (Evidence κ)},
        trailerTier G repo tip kept rest = .ok (.yes evidence) →
          (∃ other ∈ pair :: rest, Shown G repo tip other.2 ∧ evidence = .trailer other.1) ∧
            Integrates G evidence.commit tip := by
      intro kept hrest
      obtain ⟨⟨other, hother, hfound⟩, hintegrates⟩ := ih hrest
      exact ⟨⟨other, List.mem_cons_of_mem _ hother, hfound⟩, hintegrates⟩
    rcases bind_ite_eq_ok.mp h with ⟨hreach, hnext⟩ | ⟨-, hnext⟩
    · obtain ⟨verdict, hweigh, hnext⟩ := bind_eq_ok.mp hnext
      rcases weigh_cases hweigh with ⟨rfl, hintegrates⟩ | ⟨rfl, -⟩
      · cases hnext
        exact ⟨⟨pair, List.mem_cons_self, (shown_iff hreach).mp rfl, rfl⟩, hintegrates⟩
      · exact hrest hnext
    · exact hrest hnext

/-- The loop of the third tier, over what is left of the trailers. -/
theorem trailerTier_kept {pairs : List (κ × κ)} {later : Option (Evidence κ)}
    (hkept : Weighed G tip considered kept) (htier : ∀ other, considered other → other.tier ≤ 3)
    (h : trailerTier G repo tip kept pairs = .ok (.kept later)) :
    Weighed G tip (fun other => considered other ∨
      ∃ pair ∈ pairs, Shown G repo tip pair.2 ∧ other = .trailer pair.1) later := by
  induction pairs generalizing kept considered with
  | nil =>
    cases h
    exact hkept.congr fun other => by simp
  | cons pair rest ih =>
    rcases bind_ite_eq_ok.mp h with ⟨hreach, hnext⟩ | ⟨hreach, hnext⟩
    · have hshown := (shown_iff hreach).mp rfl
      obtain ⟨verdict, hweigh, hnext⟩ := bind_eq_ok.mp hnext
      rcases weigh_cases hweigh with ⟨rfl, -⟩ | ⟨rfl, hnot⟩
      · cases hnext
      · have hlast : ∀ other, (considered other ∨ other = .trailer pair.1) → other.tier ≤ 3 := by
          rintro other (hother | rfl)
          · exact htier other hother
          · exact Nat.le_refl 3
        refine (ih (hkept.add hnot htier) hlast hnext).congr fun other => ?_
        rw [List.exists_mem_cons_iff, or_assoc]
        simp only [hshown, true_and]
    · have hnot : ¬ Shown G repo tip pair.2 := fun hshown => by
        cases (shown_iff hreach).mpr hshown
      refine (ih hkept htier hnext).congr fun other => ?_
      rw [List.exists_mem_cons_iff]
      simp only [hnot, false_and, false_or]

omit [DecidableEq ε] in
theorem found_iff (hfork : G.history.mergeBase compared tip = some fork) :
    Found G repo compared tip parseUrl branch recorded trailers evidence ↔
      FoundBy G repo compared tip parseUrl branch recorded trailers 2 evidence ∨
        ∃ pair ∈ carriers G trailers (messages G fork compared),
          Shown G repo tip pair.2 ∧ evidence = .trailer pair.1 := by
  constructor
  · intro hfound
    cases evidence with
    | recordedLanding commit => exact .inl ⟨hfound, show 1 ≤ 2 by decide⟩
    | changeRequest commit url => exact .inl ⟨hfound, Nat.le_refl 2⟩
    | trailer commit =>
      obtain ⟨other, hother, carried, hcarried, hshown⟩ := hfound
      obtain rfl := Option.some.inj (hfork.symm.trans hother)
      exact .inr ⟨(commit, carried), hcarried, hshown, rfl⟩
  · rintro (⟨hfound, -⟩ | ⟨⟨commit, carried⟩, hcarried, hshown, rfl⟩)
    · exact hfound
    · exact ⟨fork, hfork, carried, hcarried, hshown⟩

end Tiers

theorem unlandedWalk_eq {landing : κ} {commits : List κ} {count : ℕ}
    (h : unlandedWalk G repo landing commits = .ok count) :
    count = (commits.takeWhile fun commit => ¬ Integrates G landing commit).length := by
  induction commits generalizing count with
  | nil => exact (Except.ok.inj h).symm
  | cons commit rest ih =>
    rcases bind_ite_eq_ok.mp h with ⟨hyes, hzero⟩ | ⟨hno, hnext⟩
    · have hintegrates := (integrates_iff hyes).mp rfl
      rw [List.takeWhile_cons_of_neg (by simpa using hintegrates)]
      exact (Except.ok.inj hzero).symm
    · have hnot : ¬ Integrates G landing commit := fun hintegrates => by
        cases (integrates_iff hno).mpr hintegrates
      obtain ⟨above, habove, hcount⟩ := bind_eq_ok.mp hnext
      rw [List.takeWhile_cons_of_pos (by simpa using hnot), List.length_cons, ← ih habove]
      exact (Except.ok.inj hcount).symm

theorem unlandedAbove_eq {landing : κ} {count : ℕ+}
    (h : unlandedAbove G repo tip fork landing = .ok count) :
    (count : ℕ) = 1 + ((((messages G fork tip).map Prod.fst).reverse.drop 1).takeWhile
      fun commit => ¬ Integrates G landing commit).length := by
  obtain ⟨history, hhistory, hwalk⟩ := bind_eq_ok.mp h
  obtain rfl := logMessages_eq hhistory
  obtain ⟨above, habove, hcount⟩ := bind_eq_ok.mp hwalk
  obtain rfl : above.succPNat = count := Except.ok.inj hcount
  rw [Nat.succPNat_coe, unlandedWalk_eq habove, Nat.succ_eq_add_one, Nat.add_comm]

/-- An answer of the comparison of content: not a yes, and a no only of a history that reaches
where the base is known to stand. -/
def Unproved (G : Repository κ ε) (repo : Asked κ) (compared : κ) (known : Option κ)
    (answer : Landed κ) : Prop :=
  answer = .unknown ∨ (answer = .no ∧ ∀ base, known = some base → Shown G repo compared base)

omit [DecidableEq ε] in
theorem unproved_unresolved {answer : Landed κ}
    (h : unresolved G repo compared known = .ok answer) :
    Unproved G repo compared known answer := by
  unfold unresolved at h
  split at h
  · cases h
    exact .inr ⟨rfl, nofun⟩
  · next base =>
    rcases bind_ite_eq_ok.mp h with ⟨hreach, hno⟩ | ⟨-, hunknown⟩
    · cases hno
      refine .inr ⟨rfl, fun other hother => ?_⟩
      obtain rfl := Option.some.inj hother
      exact (shown_iff hreach).mp rfl
    · cases hunknown
      exact .inl rfl

omit [DecidableEq ε] in
theorem unproved_inferred {carried : Bool} {answer : Landed κ}
    (h : inferred G repo compared known carried = .ok answer) :
    Unproved G repo compared known answer := by
  cases carried with
  | true => exact .inl (Except.ok.inj h).symm
  | false => exact unproved_unresolved h

theorem unproved_compareContent {history : List (κ × Text)} {answer : Landed κ}
    (h : compareContent G repo compared tip known trailers fork history = .ok answer) :
    Unproved G repo compared known answer := by
  rcases bind_ite_eq_ok.mp h with ⟨-, hunknown⟩ | ⟨-, h⟩
  · exact .inl (Except.ok.inj hunknown).symm
  · rcases bind_ite_eq_ok.mp h with ⟨-, hunknown⟩ | ⟨-, h⟩
    · exact .inl (Except.ok.inj hunknown).symm
    · exact unproved_unresolved h

/-! ## Deciding -/

/-- What an answer says: a yes is a landing on the base that some tier found, and merging the
branch into it changes nothing. A no is of a history that reaches where the base is known to
stand. An answer in part is of the most certain tier that found a landing, where none found
accounts for the branch; it counts the tip, and the commits under it up to the first that the
landing integrates. Where no tier finds anything the answer is neither. -/
structure Sound (G : Repository κ ε) (repo : Asked κ) (compared tip : κ)
    (parseUrl : Text → Option Review.ParsedUrl) (branch : Text) (known : Option κ)
    (recorded : Recorded κ) (trailers : Trailers) (answer : Landed κ) : Prop where
  yes : ∀ evidence, answer = .yes evidence →
    Found G repo compared tip parseUrl branch recorded trailers evidence ∧
      G.history.Reaches compared evidence.commit ∧ Integrates G evidence.commit tip
  no : answer = .no → ∀ base, known = some base → Shown G repo compared base
  inPart : ∀ evidence unlanded, answer = .inPart evidence unlanded →
    Found G repo compared tip parseUrl branch recorded trailers evidence ∧
      (∀ other, Found G repo compared tip parseUrl branch recorded trailers other →
        evidence.tier ≤ other.tier ∧ ¬ Integrates G other.commit tip) ∧
      1 ≤ unlanded ∧ ∃ fork, G.history.mergeBase compared tip = some fork ∧
        (unlanded : ℕ) = 1 + ((((messages G fork tip).map Prod.fst).reverse.drop 1).takeWhile
          fun commit => ¬ Integrates G evidence.commit commit).length
  content : (∀ evidence, ¬ Found G repo compared tip parseUrl branch recorded trailers evidence) →
    answer = .no ∨ answer = .unknown

theorem Unproved.sound {answer : Landed κ} (h : Unproved G repo compared known answer) :
    Sound G repo compared tip parseUrl branch known recorded trailers answer := by
  rcases h with rfl | ⟨rfl, hknown⟩
  · exact ⟨nofun, nofun, nofun, fun _ => .inr rfl⟩
  · exact ⟨nofun, fun _ => hknown, nofun, fun _ => .inl rfl⟩

theorem sound_yes (hfound : Found G repo compared tip parseUrl branch recorded trailers evidence)
    (hintegrates : Integrates G evidence.commit tip) :
    Sound G repo compared tip parseUrl branch known recorded trailers (.yes evidence) := by
  refine ⟨fun other hother => ?_, nofun, nofun, fun hnone => absurd hfound (hnone evidence)⟩
  obtain rfl := Landed.yes.inj hother
  exact ⟨hfound, reaches_of_found hfound, hintegrates⟩

theorem sound_conclude {answer : Landed κ} {history : List (κ × Text)}
    (hfork : G.history.mergeBase compared tip = some fork)
    (hkept : Weighed G tip (Found G repo compared tip parseUrl branch recorded trailers) kept)
    (h : conclude G repo compared tip known trailers fork history kept = .ok answer) :
    Sound G repo compared tip parseUrl branch known recorded trailers answer := by
  cases kept with
  | none => exact (unproved_compareContent h).sound
  | some evidence =>
    obtain ⟨unlanded, hunlanded, h⟩ := bind_eq_ok.mp h
    obtain rfl : Landed.inPart evidence unlanded = answer := Except.ok.inj h
    have hfound := hkept.found evidence rfl
    refine ⟨nofun, nofun, fun other count hother => ?_, fun hnone => absurd hfound (hnone _)⟩
    obtain ⟨rfl, rfl⟩ := Landed.inPart.inj hother
    refine ⟨hfound, fun other hother => ⟨?_, hkept.declined other hother⟩, one_le,
      fork, hfork, unlandedAbove_eq hunlanded⟩
    obtain ⟨best, hbest, hle⟩ := hkept.first other hother
    obtain rfl := Option.some.inj hbest
    exact hle

theorem sound_decideFrom {answer : Landed κ}
    (hfork : G.history.mergeBase compared tip = some fork)
    (h : decideFrom G repo compared tip parseUrl branch known recorded trailers fork = .ok answer) :
    Sound G repo compared tip parseUrl branch known recorded trailers answer := by
  rcases orElse_eq_ok h with ⟨evidence, hyes, rfl⟩ | ⟨first, hfirst, h⟩
  · obtain ⟨hfound, hintegrates⟩ := recordedTier_yes hyes
    exact sound_yes hfound hintegrates
  obtain ⟨history, hhistory, h⟩ := bind_eq_ok.mp h
  obtain rfl := logMessages_eq hhistory
  have hfirst : Weighed G tip
      (FoundBy G repo compared tip parseUrl branch recorded trailers 1) first :=
    recordedTier_kept hfirst
  rcases orElse_eq_ok h with ⟨evidence, hyes, rfl⟩ | ⟨second, hsecond, h⟩
  · obtain ⟨hfound, hintegrates⟩ := changeTier_yes hfork hyes
    exact sound_yes hfound hintegrates
  have hsecond := changeTier_kept hfork hfirst hsecond
  rcases orElse_eq_ok h with ⟨evidence, hyes, rfl⟩ | ⟨third, hthird, h⟩
  · obtain ⟨hpair, hintegrates⟩ := trailerTier_yes hyes
    exact sound_yes ((found_iff hfork).mpr (.inr hpair)) hintegrates
  · have hthird := trailerTier_kept hsecond (fun other hother => hother.2.trans (by decide)) hthird
    exact sound_conclude hfork (hthird.congr fun evidence => (found_iff hfork).symm) h


/-- Whatever is answered is sound. -/
theorem sound_decide {answer : Landed κ}
    (h : Landed.decide G repo compared tip parseUrl branch known recorded trailers = .ok answer) :
    Sound G repo compared tip parseUrl branch known recorded trailers answer := by
  obtain ⟨base, hbase, h⟩ := bind_eq_ok.mp h
  cases base with
  | none =>
    obtain ⟨differ, -, hinferred⟩ := bind_eq_ok.mp h
    exact (unproved_inferred hinferred).sound
  | some fork => exact sound_decideFrom (ask_eq_ok hbase).symm h

end

section Undone

/-- A branch of three commits, the last of which undoes the second, and a squash of the first on
the base. -/
def squashedParents : ℕ → List ℕ
  | 1 => [0]
  | 2 => [1]
  | 3 => [2]
  | 4 => [0]
  | _ => []

theorem squashedParents_lt (commit parent : ℕ) (h : parent ∈ squashedParents commit) :
    parent < commit := by
  unfold squashedParents at h
  split at h <;> simp at h <;> omega

def squashed : Foundations.History ℕ where
  parents := squashedParents
  generation commit := commit
  older := squashedParents_lt

/-- The first commit adds one file, the second another, which the third removes. -/
def treeAt : ℕ → List (Retire.Path × ℕ)
  | 0 => []
  | 2 => [([.text "a"], 1), ([.text "b"], 2)]
  | _ => [([.text "a"], 1)]

/-- What two commits that edit no file both have or one of them added. -/
def mergeAt (landing commit : ℕ) : List (Retire.Path × ℕ) :=
  let base := ((squashed.mergeBase landing commit).map treeAt).getD []
  (treeAt landing).filter (fun entry => entry ∈ treeAt commit ∨ entry ∉ base) ++
    (treeAt commit).filter fun entry => entry ∉ treeAt landing ∧ entry ∉ base

/-- The id of the first commit, as the trailer of the squash spells it. -/
def firstId : Text := List.replicate 40 '1'

def undone : Repository ℕ ℕ where
  history := squashed
  tree := treeAt
  message
    | 4 => some ("feat: a\n\nOnevcs-Landed-Commit: ".toList ++ firstId)
    | _ => some "feat: a".toList
  objectId text := if text = firstId then some 1 else none
  spell _ := ""
  mergeTree landing commit := some (mergeAt landing commit)
  log base branch := (squashed.beyond [base] branch).insertionSort fun commit next => commit ≤ next
  log_perm _ _ := List.perm_insertionSort _ _

/-- A repository that has every commit and answers every question. -/
def answering : Asked ℕ where
  has _ := true
  refuses _ := none
  declines _ := none

theorem decide_undone :
    Landed.decide undone answering 4 3 (fun _ => none) "topic".toList none ⟨none, none⟩
      ⟨"Onevcs-".toList⟩ = .ok (.yes (.trailer 4)) := by
  rfl

/-- The squash is answered for the branch, though it does not integrate the second commit. -/
theorem undone_yes :
    Landed.decide undone answering 4 3 (fun _ => none) "topic".toList none ⟨none, none⟩
        ⟨"Onevcs-".toList⟩ = .ok (.yes (.trailer 4)) ∧
      undone.history.mergeBase 4 3 = some 0 ∧
      ∃ commit ∈ undone.history.beyond [0] 3, ¬ Integrates undone 4 commit :=
  ⟨decide_undone, by decide +kernel, 2, by decide +kernel, by decide +kernel⟩

theorem sound_decide_undone :
    Sound undone answering 4 3 (fun _ => none) "topic".toList none ⟨none, none⟩
      ⟨"Onevcs-".toList⟩ (.yes (.trailer 4)) := sound_decide decide_undone

end Undone

end Onevcs.Landings
