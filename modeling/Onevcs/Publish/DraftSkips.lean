import Onevcs.Foundations.Transition
import Onevcs.Publish.Watch

/-!
# What a draft's watch settles on

The watch of a draft over a whole run: `settle_draft`, and `settle_after_early_lift` after an
early lift. A skipped run reported while the change was a draft is no verdict, so the watch is
held to settle only where each required check has passed or was skipped by a run attached
after the lift.

The watch reads the names of the required checks off what is left once the draft's skips are
set aside, and it tells a run attached after the lift from the last reading of the draft
alone. It settles rightly in exactly the runs where neither loses a required check.
-/

namespace Onevcs.Publish

open Foundations (System Text)

/-! ## The watch of a draft -/

/-- Where the watch of a draft is. -/
inductive DraftPhase
  | draft
  | lifted (declared : Declared) (snapshot : List Check)
  | settled
  | ended
  deriving DecidableEq

/-- The watch of a draft, with every check reported while it was one and what the last
reading holds. -/
structure DraftWatch where
  watcher : Watcher
  phase : DraftPhase
  draftEra : List Check
  last : List Check

namespace DraftWatch

def start (base pushed : Text) : DraftWatch where
  watcher := .new base pushed
  phase := .draft
  draftEra := []
  last := []

/-- What a look's answer holds about the pushed commit. -/
def reads (s : DraftWatch) (look : Look) : List Check :=
  match look.checks with
  | .ok answered => (s.watcher.read answered).reported.checks
  | .error _ => []

/-- Where a turn leaves the watch. -/
def after (phase : DraftPhase) : After → DraftPhase
  | .again => phase
  | .liftedEarly declared snapshot => .lifted declared snapshot
  | .settled _ => .settled
  | .landed _ | .resettle | .refused _ => .ended

def step (s : DraftWatch) (look : Look) : Option DraftWatch :=
  match s.phase with
  | .draft =>
    let turn := settleDraft s.watcher look
    some
      { watcher := turn.watcher
        phase := after s.phase turn.after
        draftEra := s.draftEra ++ s.reads look
        last := s.reads look }
  | .lifted declared snapshot =>
    let turn := settleAfterEarlyLift s.watcher declared snapshot look
    some
      { watcher := turn.watcher
        phase := after s.phase turn.after
        draftEra := s.draftEra
        last := s.reads look }
  | .settled | .ended => none

end DraftWatch

/-- The watch of a draft, over every answer of the host and the clock. -/
def draftWatch (base pushed : Text) : System DraftWatch Look where
  Initial s := s = .start base pushed
  step := DraftWatch.step

/-- A check has a verdict: it passed, or it was skipped by a run that no run reported on the
draft accounts for, and none of its entries is red or running. -/
def Verified (draftEra checks : List Check) (name : Text) : Prop :=
  (∃ check ∈ checks, check.name = name ∧ (check.state = .passed ∨
    check.state = .skipped ∧ ranAfterTheLift check draftEra = true)) ∧
  ∀ check ∈ checks, check.name = name → check.state ≠ .failed ∧ check.state ≠ .pending

instance (draftEra checks : List Check) (name : Text) :
    Decidable (Verified draftEra checks name) :=
  inferInstanceAs (Decidable (_ ∧ _))

/-- A settled watch settled in a reading where every required check has a verdict. -/
def SettledOnVerdicts (s : DraftWatch) : Prop :=
  s.phase = .settled → ∀ declared ∈ s.watcher.declaration,
    ∀ name ∈ requiredNames s.last declared, Verified s.draftEra s.last name

/-- A reading after an early lift lets the change through: a required check re-ran, and none
that is counted holds it. -/
def lifts (checks snapshot : List Check) (declared : Declared) : Bool :=
  let standing := standings (counted checks snapshot) declared
  rerun checks snapshot standing && standing.all Standing.through

/-- Where a reading after an early lift lets the change through, it keeps every required
check: a check that stands at a skip has one no run of the draft accounts for, and a check
whose entries the host marks required are all set aside as the draft's skips has a verdict
from its others. -/
def KeepsRequired (s : DraftWatch) (look : Look) : Prop :=
  match s.phase with
  | .lifted declared snapshot =>
    lifts (s.reads look) snapshot declared = true →
      (∀ standing ∈ standings (counted (s.reads look) snapshot) declared,
        standing.state = some .skipped → ∃ check ∈ s.reads look, check.name = standing.name ∧
          check.state = .skipped ∧ ranAfterTheLift check s.draftEra = true) ∧
      ∀ name ∈ requiredNames (s.reads look) declared,
        name ∉ requiredNames (counted (s.reads look) snapshot) declared →
          Verified s.draftEra (s.reads look) name
  | .draft | .settled | .ended => True

section Turns

variable {watcher : Watcher} {look : Look} {declared : Declared} {snapshot checks : List Check}

theorem Watcher.waits_after (watcher : Watcher) (look : Look) (skipped : List Text) :
    (watcher.waits look skipped).after = .again ∨
      ∃ refusal, (watcher.waits look skipped).after = .refused refusal := by
  unfold Watcher.waits
  split
  · exact .inr ⟨_, rfl⟩
  · split
    · exact .inr ⟨_, rfl⟩
    · exact .inl rfl

@[simp] theorem Watcher.waits_ne_settled (watcher : Watcher) (look : Look) (skipped : List Text)
    (green : Bool) : (watcher.waits look skipped).after ≠ .settled green := by
  rcases watcher.waits_after look skipped with h | ⟨refusal, h⟩ <;> rw [h] <;> nofun

@[simp] theorem Watcher.waits_ne_liftedEarly (watcher : Watcher) (look : Look)
    (skipped : List Text) (declared : Declared) (snapshot : List Check) :
    (watcher.waits look skipped).after ≠ .liftedEarly declared snapshot := by
  rcases watcher.waits_after look skipped with h | ⟨refusal, h⟩ <;> rw [h] <;> nofun

theorem Watcher.waits_declaration (watcher : Watcher) (look : Look) (skipped : List Text) :
    (watcher.waits look skipped).watcher.declaration = watcher.declaration := by
  unfold Watcher.waits
  split
  · rfl
  · split <;> rfl

theorem Watcher.afterStillRunning_declaration (watcher : Watcher) (look : Look)
    (reading : Reading) :
    (watcher.afterStillRunning look reading).declaration = watcher.declaration := by
  unfold Watcher.afterStillRunning
  split <;> rfl

theorem Declared.given_of_ne_nothing {reading : Reading}
    (h : declared.given reading ≠ .nothing) : declared.given reading = declared := by
  unfold Declared.given at h ⊢
  split
  · rename_i checks hreported
    rw [hreported] at h
    unfold Declared.sharpened at h ⊢
    split
    · rename_i because
      split
      · rename_i hnone
        exact absurd (if_pos hnone) h
      · rfl
    · rfl
    · rfl
  · rfl

/-- Where a reading leaves nothing required, nothing the host declares or marks in it is. -/
theorem requiredNames_of_given_nothing {reading : Reading}
    (h : declared.given reading = .nothing) :
    requiredNames reading.reported.checks declared = [] := by
  cases declared with
  | nothing => rfl
  | names names =>
    rw [Declared.given] at h
    split at h <;> cases h
  | unknown because =>
    cases hreported : reading.reported with
    | notYet => rfl
    | about checks =>
      simp only [Declared.given, hreported, Declared.sharpened, ite_eq_left_iff] at h
      have hnone : checks.all (fun check => !check.required) = true := by
        by_contra hsome
        exact absurd (h (by simp [hsome])) nofun
      have hfilter : checks.filter (fun check => check.required) = [] := by
        simpa [List.filter_eq_nil_iff] using hnone
      simp [requiredNames, Reported.checks, hfilter, collected]

theorem settleDraft_declaration (watcher : Watcher) (look : Look) :
    (settleDraft watcher look).watcher.declaration = some (watcher.declared look) := by
  fun_cases settleDraft watcher look <;>
    first
      | rfl
      | rw [Watcher.waits_declaration, Watcher.afterStillRunning_declaration]; rfl
      | rw [Watcher.waits_declaration]; rfl
      | exact Watcher.afterStillRunning_declaration _ _ _

/-- A watch that settles a draft read that nothing is required, every required check passed,
or none marked required where what is required is read off the marking. -/
theorem settleDraft_settled {green : Bool}
    (h : (settleDraft watcher look).after = .settled green) :
    ∃ answered, look.checks = .ok answered ∧
      (let declared := (watcher.declared look).given (watcher.read answered)
       let standing := standings (watcher.read answered).reported.checks declared
       declared = .nothing ∨ allPassed standing = true ∨ unseen declared standing = true) := by
  revert h
  fun_cases settleDraft watcher look <;> intro h
  case case2 _ answered hchecks _ _ hnothing => exact ⟨answered, hchecks, .inl hnothing⟩
  case case4 _ answered hchecks _ _ _ _ _ _ hpassed =>
    exact ⟨answered, hchecks, .inr (.inl hpassed)⟩
  case case5 _ answered hchecks _ _ _ _ _ _ _ hunseen =>
    simp only [Bool.and_eq_true, and_assoc] at hunseen
    exact ⟨answered, hchecks, .inr (.inr hunseen.1)⟩
  all_goals simp at h

theorem settleDraft_liftedEarly
    (h : (settleDraft watcher look).after = .liftedEarly declared snapshot) :
    declared = watcher.declared look := by
  revert h
  fun_cases settleDraft watcher look <;> intro h
  case case8 _ _ _ _ _ hdeclared _ _ _ _ _ _ _ _ _ =>
    obtain ⟨hgiven, -⟩ := After.liftedEarly.inj h
    rw [← hgiven]
    exact Declared.given_of_ne_nothing hdeclared
  all_goals simp at h

theorem settleAfterEarlyLift_declaration (watcher : Watcher) (declared : Declared)
    (snapshot : List Check) (look : Look) :
    (settleAfterEarlyLift watcher declared snapshot look).watcher.declaration =
      watcher.declaration := by
  fun_cases settleAfterEarlyLift watcher declared snapshot look <;>
    first
      | rfl
      | rw [Watcher.waits_declaration, Watcher.afterStillRunning_declaration]
      | rw [Watcher.waits_declaration]
      | exact Watcher.afterStillRunning_declaration _ _ _

theorem red_eq_none {standing : List Standing} (h : standing.all Standing.through = true) :
    red standing = none := by
  have hnone : standing.find? (fun standing => standing.state == some .failed) = none := by
    rw [List.find?_eq_none]
    intro standing hmem hfailed
    have hthrough := List.all_eq_true.mp h standing hmem
    simp_all [Standing.through]
  rw [red, hnone, Option.bind_none]

theorem settleAfterEarlyLift_of_lifts {answered : ChangeChecks}
    (hchecks : look.checks = .ok answered)
    (h : lifts (watcher.read answered).reported.checks snapshot declared = true) :
    (settleAfterEarlyLift watcher declared snapshot look).after = .settled false := by
  unfold lifts at h
  have hthrough := (Bool.and_eq_true_iff.mp h).2
  simp only [settleAfterEarlyLift, hchecks, red_eq_none hthrough]
  rw [if_pos h]

/-- A skipped check holds nothing back, and one that is running does. -/
example : letsThrough [⟨"lint".toList, some .skipped, none⟩] .nothing = true ∧
    letsThrough [⟨"lint".toList, some .pending, none⟩] .nothing = false := by decide +kernel

/-- After an early lift the watch settles only at a reading that lets the change through. -/
theorem lifts_of_settleAfterEarlyLift {green : Bool}
    (h : (settleAfterEarlyLift watcher declared snapshot look).after = .settled green) :
    ∃ answered, look.checks = .ok answered ∧
      lifts (watcher.read answered).reported.checks snapshot declared = true := by
  revert h
  fun_cases settleAfterEarlyLift watcher declared snapshot look <;> intro h
  case case3 answered hchecks _ _ _ _ hlifts => exact ⟨answered, hchecks, hlifts⟩
  all_goals simp at h

theorem settleAfterEarlyLift_ne_liftedEarly {declared' : Declared} {snapshot' : List Check} :
    (settleAfterEarlyLift watcher declared snapshot look).after ≠
      .liftedEarly declared' snapshot' := by
  fun_cases settleAfterEarlyLift watcher declared snapshot look <;> simp

end Turns

section Readings

variable {declared : Declared} {snapshot draftEra checks : List Check} {name : Text}

theorem verified_of_passed {standing : Standing} (h : standing ∈ standings checks declared)
    (hpassed : standing.state = some .passed) : Verified draftEra checks standing.name := by
  obtain ⟨check, hcheck, hname, hstate⟩ := exists_of_state h hpassed
  have hthrough : standing.through = true := by simp [Standing.through, hpassed]
  exact ⟨⟨check, hcheck, hname, .inl hstate⟩,
    fun other hother hothername => not_red_of_through h hthrough hother hothername⟩

theorem exists_standing (h : name ∈ requiredNames checks declared) :
    ∃ standing ∈ standings checks declared, standing.name = name :=
  ⟨_, List.mem_map_of_mem h, rfl⟩

theorem verified_of_draft {reading : Reading}
    (h : declared.given reading = .nothing ∨
      allPassed (standings reading.reported.checks (declared.given reading)) = true ∨
      unseen (declared.given reading)
        (standings reading.reported.checks (declared.given reading)) = true)
    (hname : name ∈ requiredNames reading.reported.checks declared) :
    Verified draftEra reading.reported.checks name := by
  by_cases hnothing : declared.given reading = .nothing
  · rw [requiredNames_of_given_nothing hnothing] at hname
    cases hname
  rw [Declared.given_of_ne_nothing hnothing] at h
  obtain ⟨standing, hstanding, rfl⟩ := exists_standing hname
  rcases h with h | h | h
  · rw [h] at hname
    cases hname
  · rw [allPassed, Bool.and_eq_true] at h
    exact verified_of_passed hstanding (by simpa using List.all_eq_true.mp h.2 standing hstanding)
  · rw [unseen, Bool.and_eq_true, List.isEmpty_iff] at h
    rw [h.2] at hstanding
    cases hstanding

theorem mem_counted {check : Check} :
    check ∈ counted checks snapshot ↔
      check ∈ checks ∧ (check.state = .skipped → ranAfterTheLift check snapshot = true) := by
  rw [counted, List.mem_filter]
  cases ranAfterTheLift check snapshot <;> simp

theorem requiredNames_counted_subset :
    requiredNames (counted checks snapshot) declared ⊆ requiredNames checks declared := by
  intro name hname
  cases declared with
  | nothing => exact hname
  | names names => exact hname
  | unknown because =>
    rw [mem_requiredNames_unknown] at hname ⊢
    obtain ⟨check, hcheck, hrequired⟩ := hname
    exact ⟨check, (mem_counted.mp hcheck).1, hrequired⟩

/-- A check that lets the change through once the draft's skips are set aside has no red and
no running entry among all of them. -/
theorem not_red_of_counted {standing : Standing}
    (h : standing ∈ standings (counted checks snapshot) declared)
    (hthrough : standing.through = true) {check : Check} (hcheck : check ∈ checks)
    (hname : check.name = standing.name) :
    check.state ≠ .failed ∧ check.state ≠ .pending := by
  by_cases hskipped : check.state = .skipped
  · rw [hskipped]
    exact ⟨nofun, nofun⟩
  · exact not_red_of_through h hthrough (mem_counted.mpr ⟨hcheck, (absurd · hskipped)⟩) hname

theorem not_passed_of_skipped {standing : Standing}
    (h : standing ∈ standings checks declared) (hskipped : standing.state = some .skipped)
    {check : Check} (hcheck : check ∈ checks) (hname : check.name = standing.name) :
    check.state ≠ .passed := by
  intro hpassed
  obtain ⟨-, -, hat⟩ := mem_standings.mp h
  obtain ⟨entry, hdecided⟩ := decided_of_mem hcheck hname
  have hentry : entry.state = .skipped := by
    simpa [hdecided, hskipped, eq_comm] using hat
  have hle := decided_le hdecided hcheck hname
  rw [hentry, hpassed] at hle
  exact absurd hle (by decide)

/-- A reading after an early lift that lets the change through shows a verdict of every
required check exactly where it keeps them all. -/
theorem verified_iff_of_lifts (hlifts : lifts checks snapshot declared = true) :
    (∀ name ∈ requiredNames checks declared, Verified draftEra checks name) ↔
      (∀ standing ∈ standings (counted checks snapshot) declared,
        standing.state = some .skipped → ∃ check ∈ checks, check.name = standing.name ∧
          check.state = .skipped ∧ ranAfterTheLift check draftEra = true) ∧
      ∀ name ∈ requiredNames checks declared,
        name ∉ requiredNames (counted checks snapshot) declared →
          Verified draftEra checks name := by
  rw [lifts, Bool.and_eq_true] at hlifts
  have hthrough := List.all_eq_true.mp hlifts.2
  constructor
  · intro hverified
    refine ⟨fun standing hstanding hskipped => ?_, fun name hname _ => hverified name hname⟩
    have hname := requiredNames_counted_subset (mem_standings.mp hstanding).1
    obtain ⟨⟨check, hcheck, hcheckname, hpassed | hstate⟩, -⟩ := hverified _ hname
    · refine absurd hpassed (not_passed_of_skipped hstanding hskipped ?_ hcheckname)
      exact mem_counted.mpr ⟨hcheck, fun h => by rw [h] at hpassed; cases hpassed⟩
    · exact ⟨check, hcheck, hcheckname, hstate⟩
  · rintro ⟨hskips, hoverlooked⟩ name hname
    by_cases hcounted : name ∈ requiredNames (counted checks snapshot) declared
    · obtain ⟨standing, hstanding, rfl⟩ := exists_standing hcounted
      have hdecided := hthrough standing hstanding
      refine ⟨?_, fun check hcheck hcheckname =>
        not_red_of_counted hstanding hdecided hcheck hcheckname⟩
      rw [Standing.through, Bool.or_eq_true, beq_iff_eq, beq_iff_eq] at hdecided
      rcases hdecided with hpassed | hskipped
      · obtain ⟨check, hcheck, hcheckname, hstate⟩ := exists_of_state hstanding hpassed
        exact ⟨check, (mem_counted.mp hcheck).1, hcheckname, .inl hstate⟩
      · obtain ⟨check, hcheck, hcheckname, hstate⟩ := hskips standing hstanding hskipped
        exact ⟨check, hcheck, hcheckname, .inr hstate⟩
    · exact hoverlooked name hname hcounted

end Readings

section Runs

variable {s next : DraftWatch} {look : Look} {base pushed : Text}

/-- What a watch lifted early goes on with is what the host declared. -/
def LiftedAsDeclared (s : DraftWatch) : Prop :=
  ∀ declared snapshot, s.phase = .lifted declared snapshot →
    s.watcher.declaration = some declared

theorem DraftWatch.after_eq_lifted {phase : DraftPhase} {after : After} {declared : Declared}
    {snapshot : List Check} (h : DraftWatch.after phase after = .lifted declared snapshot) :
    after = .liftedEarly declared snapshot ∨
      after = .again ∧ phase = .lifted declared snapshot := by
  cases after <;> simp_all [DraftWatch.after]

theorem DraftWatch.after_eq_settled {phase : DraftPhase} {after : After}
    (h : DraftWatch.after phase after = .settled) :
    (∃ green, after = .settled green) ∨ after = .again ∧ phase = .settled := by
  cases after <;> simp_all [DraftWatch.after]

theorem liftedAsDeclared_step (hinv : LiftedAsDeclared s) (hstep : s.step look = some next) :
    LiftedAsDeclared next := by
  intro declared snapshot hphase
  revert hstep
  fun_cases DraftWatch.step s look <;> intro hstep
  case case1 hdraft _ =>
    obtain rfl := Option.some.inj hstep
    rcases DraftWatch.after_eq_lifted hphase with hlifted | ⟨-, hagain⟩
    · rw [settleDraft_liftedEarly hlifted]
      exact settleDraft_declaration s.watcher look
    · rw [hdraft] at hagain
      cases hagain
  case case2 =>
    obtain rfl := Option.some.inj hstep
    rcases DraftWatch.after_eq_lifted hphase with hlifted | ⟨-, hagain⟩
    · exact absurd hlifted settleAfterEarlyLift_ne_liftedEarly
    · rw [settleAfterEarlyLift_declaration]
      exact hinv _ _ hagain
  all_goals cases hstep

theorem DraftWatch.reads_of_ok {answered : ChangeChecks} (h : look.checks = .ok answered) :
    s.reads look = (s.watcher.read answered).reported.checks := by
  rw [DraftWatch.reads, h]

theorem settledOnVerdicts_of_draft (hphase : s.phase = .draft) (hstep : s.step look = some next) :
    SettledOnVerdicts next := by
  rw [DraftWatch.step, hphase] at hstep
  obtain rfl := Option.some.inj hstep
  intro hsettled declared hdeclared name hname
  rcases DraftWatch.after_eq_settled hsettled with ⟨green, hgreen⟩ | ⟨-, hagain⟩
  · obtain ⟨answered, hchecks, hshown⟩ := settleDraft_settled hgreen
    obtain rfl : s.watcher.declared look = declared :=
      Option.some.inj ((settleDraft_declaration s.watcher look).symm.trans hdeclared)
    rw [DraftWatch.reads_of_ok hchecks] at hname ⊢
    exact verified_of_draft hshown hname
  · cases hagain

/-- A turn after an early lift settles on verdicts exactly where its reading keeps every
required check. -/
theorem settledOnVerdicts_of_lifted {declared : Declared} {snapshot : List Check}
    (hphase : s.phase = .lifted declared snapshot) (hinv : LiftedAsDeclared s)
    (hstep : s.step look = some next) :
    SettledOnVerdicts next ↔ KeepsRequired s look := by
  have hdeclaration : next.watcher.declaration = some declared ∧ next.last = s.reads look ∧
      next.draftEra = s.draftEra ∧ next.phase = DraftWatch.after s.phase
        (settleAfterEarlyLift s.watcher declared snapshot look).after := by
    rw [DraftWatch.step, hphase] at hstep
    obtain rfl := Option.some.inj hstep
    rw [settleAfterEarlyLift_declaration, hphase]
    exact ⟨hinv _ _ hphase, rfl, rfl, rfl⟩
  obtain ⟨hdeclared, hlast, hera, hafter⟩ := hdeclaration
  simp only [SettledOnVerdicts, KeepsRequired, hphase, hdeclared, hlast, hera, hafter,
    Option.mem_some_iff, forall_eq']
  cases hlifts : lifts (s.reads look) snapshot declared with
  | true =>
    have hsettled : (settleAfterEarlyLift s.watcher declared snapshot look).after =
        .settled false := by
      cases hchecks : look.checks with
      | ok answered =>
        rw [DraftWatch.reads_of_ok hchecks] at hlifts
        exact settleAfterEarlyLift_of_lifts hchecks hlifts
      | error error =>
        rw [DraftWatch.reads, hchecks] at hlifts
        cases hlifts
    rw [hsettled]
    simp only [DraftWatch.after, forall_const]
    exact verified_iff_of_lifts hlifts
  | false =>
    refine iff_of_true (fun hsettled => ?_) nofun
    rcases DraftWatch.after_eq_settled hsettled with ⟨green, hgreen⟩ | ⟨-, hagain⟩
    · obtain ⟨answered, hchecks, hshown⟩ := lifts_of_settleAfterEarlyLift hgreen
      rw [← DraftWatch.reads_of_ok hchecks, hlifts] at hshown
      cases hshown
    · cases hagain

theorem settledOnVerdicts_step (hinv : LiftedAsDeclared s) (hstep : s.step look = some next) :
    SettledOnVerdicts next ↔ KeepsRequired s look := by
  cases hphase : s.phase with
  | draft =>
    simp only [KeepsRequired, hphase, iff_true]
    exact settledOnVerdicts_of_draft hphase hstep
  | lifted declared snapshot => exact settledOnVerdicts_of_lifted hphase hinv hstep
  | settled =>
    rw [DraftWatch.step, hphase] at hstep
    cases hstep
  | ended =>
    rw [DraftWatch.step, hphase] at hstep
    cases hstep

end Runs

/-- The watch of a draft settles only in readings where every required check has a verdict,
in exactly the runs where each reading after an early lift keeps them all. -/
theorem draft_settles_on_verdicts (base pushed : Text) (looks : List Look) :
    (draftWatch base pushed).Throughout SettledOnVerdicts (.start base pushed) looks ↔
      (draftWatch base pushed).RunMeets KeepsRequired (.start base pushed) looks := by
  have hstart : LiftedAsDeclared (.start base pushed) := by
    intro declared snapshot hphase
    cases hphase
  have hsettled : SettledOnVerdicts (.start base pushed) := by
    intro hphase
    cases hphase
  have hdisabled : ∀ s look, (draftWatch base pushed).step s look = none →
      KeepsRequired s look := by
    intro s look hstep
    change s.step look = none at hstep
    rw [KeepsRequired]
    split
    · rename_i declared snapshot hphase
      rw [DraftWatch.step, hphase] at hstep
      cases hstep
    all_goals trivial
  exact System.throughout_iff_runMeets_of_invariant (P := SettledOnVerdicts)
    (fun s look next hinv _ _ hstep => liftedAsDeclared_step hinv hstep)
    (fun s look next hinv _ hstep => settledOnVerdicts_step hinv hstep)
    (fun s look _ _ hstep => hdisabled s look hstep) hstart hsettled looks

instance : DecidablePred SettledOnVerdicts := fun s =>
  inferInstanceAs (Decidable (s.phase = .settled → _))

/-- A look at a host that will not say what it requires, once the grace window is over. -/
def markedLook (checks : List Check) : Look where
  requiredChecks := .error ⟨false, []⟩
  checks := .ok ⟨checks, true⟩
  graceElapsed := true
  outOfTime := false
  busyIsFresh := false
  headActivity := .error ⟨true, []⟩
  readyForReview := .ok ()
  merge := .error ⟨true, []⟩
  mergedAfterRefusal := .error ⟨true, []⟩
  mergedAt := .error ⟨true, []⟩
  mergeability := .error ⟨true, []⟩
  cancelled := false

/-- A completed run of a required check. -/
def completedRun (name conclusion startedAt : String) : Check where
  name := name.toList
  status := "completed".toList
  conclusion := some conclusion.toList
  required := true
  head := none
  startedAt := some startedAt.toList

/-- The host marks two checks required, both skipped on the draft. One of them re-runs after
the early lift and passes, and the change settles with the other skipped by the draft's run
alone. -/
theorem skipped_check_settles :
    ¬ (draftWatch [] []).Throughout SettledOnVerdicts (.start [] [])
      [markedLook [completedRun "lint" "skipped" "1", completedRun "test" "skipped" "1"],
        markedLook [completedRun "lint" "skipped" "1", completedRun "test" "success" "2"]] := by
  decide +kernel

end Onevcs.Publish
