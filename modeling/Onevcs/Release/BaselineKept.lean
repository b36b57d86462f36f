import Onevcs.Release.StatusSound

/-!
# Keeping a release baseline

Whether a baseline, once it is established, is in the record for good, over every order of
the steps of captures and statuses of one landing.

A capture writes a baseline only where there is none. A status that read no established
baseline, and was then told that nothing is released, writes that nothing was whatever the
record holds by the time it takes the lock. So the one baseline that is ever lost is a
version, captured between the two.
-/

set_option linter.unusedSectionVars false

namespace Onevcs.Release

open Foundations (System)

section Kept

variable {π V : Type} [DecidableEq π] [LinearOrder V] {parse : String → Option V}
  {call : π → Call} {s s' : World π} {p : π} {baseline : Baseline}

/-- The record holds this established baseline. -/
def World.Holds (baseline : Baseline) (s : World π) : Prop :=
  s.record.baseline = some (.established baseline)

instance (baseline : Baseline) (s : World π) : Decidable (s.Holds baseline) :=
  inferInstanceAs (Decidable (s.record.baseline = some (.established baseline)))

/-- The baseline that is recorded is a version. -/
def World.holdsVersion (s : World π) : Bool :=
  match s.record.baseline with
  | some (.established (.at _)) => true
  | _ => false

/-- The step establishes no late baseline over a version. -/
def World.Spares (s : World π) : Label π → Prop
  | .act p (.update false) => s.phase p = .establishing → s.holdsVersion = false
  | _ => True

instance (s : World π) : (label : Label π) → Decidable (s.Spares label)
  | .act p (.update false) =>
    inferInstanceAs (Decidable (s.phase p = .establishing → s.holdsVersion = false))
  | .act _ (.update true) | .act _ (.read ..) | .act _ (.ask ..) | .publish _ | .yank _
  | .acknowledge _ => inferInstanceAs (Decidable True)

theorem World.Holds.noRelease_or (h : s.Holds baseline) :
    baseline = .noRelease ∨ s.holdsVersion = true := by
  have heq : s.record.baseline = some (.established baseline) := h
  cases baseline with
  | noRelease => exact .inl rfl
  | «at» version =>
    apply Or.inr
    rw [World.holdsVersion, heq]

/-- A process that establishes a late baseline leaves the record holding that nothing was
released, and no other step changes a baseline that is established. -/
theorem World.Holds.act (h : s.Holds baseline) {act : Act}
    (hs : s.act parse call p act = some s') :
    s'.Holds baseline ∨ act = .update false ∧ s.phase p = .establishing ∧
      s'.Holds .noRelease := by
  have heq : s.record.baseline = some (.established baseline) := h
  cases World.acts_of_act hs with
  | establishes hphase => exact .inr ⟨rfl, hphase, rfl⟩
  | @keeps record hphase =>
    apply Or.inl
    calc (s.writeBaseline p record).record.baseline
        = s.record.baseline.or (some record) := rfl
      _ = some (.established baseline) := by rw [heq, Option.some_or]
  | _ => exact .inl h

/-- What is established is kept by exactly the steps that spare a version. -/
theorem World.Holds.step (h : s.Holds baseline) {label : Label π}
    (hs : s.step parse call label = some s') : s'.Holds baseline ↔ s.Spares label := by
  cases label with
  | act p act =>
    constructor
    · intro hkept
      cases act with
      | update fails =>
        cases fails with
        | true => trivial
        | false =>
          intro hphase
          have hs' : some (s.establish p) = some s' := by
            rw [← hs]
            simp [World.step, World.act, hphase]
          obtain rfl := Option.some.inj hs'
          have hnone : baseline = .noRelease := by
            injection hkept with hkept
            injection hkept with hkept
            exact hkept.symm
          have heq : s.record.baseline = some (.established baseline) := h
          rw [World.holdsVersion, heq, hnone]
      | _ => trivial
    · intro hspares
      rcases h.act hs with hkept | ⟨rfl, hphase, hnone⟩
      · exact hkept
      · rcases h.noRelease_or with rfl | hversion
        · exact hnone
        · rw [hspares hphase] at hversion
          cases hversion
  | publish version =>
    obtain rfl := Option.some.inj hs
    exact iff_of_true h trivial
  | yank version =>
    obtain rfl := Option.some.inj hs
    exact iff_of_true h trivial
  | acknowledge version =>
    obtain rfl := Option.some.inj hs
    exact iff_of_true h trivial

theorem World.Spares.of_disabled {label : Label π} (hs : s.step parse call label = none) :
    s.Spares label := by
  cases label with
  | act p act =>
    cases act with
    | update fails =>
      cases fails with
      | true => trivial
      | false =>
        intro hphase
        simp [World.step, World.act, hphase] at hs
    | _ => trivial
  | _ => trivial

/-- Once a baseline is established, every later state of the record holds it exactly where
no status of the run establishes a late one over a version. -/
theorem baseline_kept_iff (h : s.Holds baseline) (labels : List (Label π)) :
    (releasing parse call).Throughout (World.Holds baseline) s labels ↔
      (releasing parse call).RunMeets (fun s label => s.Spares label) s labels :=
  System.throughout_iff_runMeets (fun _ _ _ h hs => h.step hs)
    (fun _ _ _ hs => .of_disabled hs) h labels

end Kept

/-- The change lands before anything was published. -/
def overNothing : World ℕ where
  record := ⟨none, none, none⟩
  out := []
  landing := ⟨[], []⟩
  phase := fun _ => .idle
  said := []

theorem overNothing_initial : (releasing ordered landed).Initial overNothing :=
  ⟨rfl, rfl, fun _ => rfl, rfl⟩

/-- A status is told that nothing is released, 1.0.0 is published, and the capture records
it. -/
def capturing : List (Label ℕ) :=
  [.act 1 (.read false "t1"), .act 1 (.ask .noRelease "t1"), .publish "1.0.0",
    .act 0 (.read false "t0"), .act 0 (.ask (.released "1.0.0") "t0"), .act 0 (.update false)]

theorem capturing_runs : ((releasing ordered landed).run overNothing capturing).isSome := by
  decide

def captured : World ℕ :=
  ((releasing ordered landed).run overNothing capturing).get capturing_runs

theorem baseline_kept_iff_captured :
    (releasing ordered landed).Throughout (World.Holds (.at "1.0.0")) captured
      [.act 2 (.read false "t2"), .act 1 (.update true), .act 2 (.ask .noRelease "t2")] :=
  (baseline_kept_iff (by decide) _).mpr (by decide)

/-- The version that was captured is gone once the status establishes what it was told. -/
theorem captured_replaced :
    (releasing ordered landed).Reachable captured ∧ captured.Holds (.at "1.0.0") ∧
      ¬(releasing ordered landed).Throughout (World.Holds (.at "1.0.0")) captured
        [.act 1 (.update false)] :=
  ⟨System.reachable_of_run overNothing_initial (Option.some_get capturing_runs).symm,
    by decide, by decide⟩

end Onevcs.Release
