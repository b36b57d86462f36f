import Onevcs.Release.Status

/-!
# Status over the history of a target

What a status may report as the release that carries a change, over everything that was
published and yanked since the change landed. A version that was already published then
does not carry it, in either sense of the words: out when the change landed, or published
at some time before. A baseline is good for the comparison where it covers them: nothing
was published, or nothing greater than the version it holds.

Nothing in the code makes a baseline cover what was published. A baseline is established
late from a target that has no release, which one whose releases were yanked has not
either; and one captured holds the version the probe named, which need not be the
greatest of those that were published.
-/

set_option linter.unusedSectionVars false

namespace Onevcs.Release

open Foundations (System)

/-- The two senses in which a version was already published when the change landed. -/
inductive Sense
  | out
  | published

/-- The versions already published when the change landed. -/
def Landing.already (landing : Landing) : Sense → List String
  | .out => landing.out
  | .published => landing.published

section Soundness

variable {π V : Type} [DecidableEq π] [LinearOrder V]

/-- No version already published when the change landed passes the baseline. -/
def Landing.Covers (landing : Landing) (sense : Sense) (parse : String → Option V) :
    Baseline → Prop
  | .noRelease => landing.already sense = []
  | .at version => ∀ other ∈ landing.already sense, ∀ a ∈ parse other, ∀ b ∈ parse version, a ≤ b

instance (landing : Landing) (sense : Sense) (parse : String → Option V) :
    (baseline : Baseline) → Decidable (landing.Covers sense parse baseline)
  | .noRelease => inferInstanceAs (Decidable (landing.already sense = []))
  | .at version => inferInstanceAs (Decidable (∀ other ∈ landing.already sense,
      ∀ a ∈ parse other, ∀ b ∈ parse version, a ≤ b))

theorem Landing.Covers.not_already {landing : Landing} {sense : Sense}
    {parse : String → Option V} {baseline : Baseline} {version : String}
    (h : landing.Covers sense parse baseline) (hpasses : Passes parse baseline version) :
    version ∉ landing.already sense := by
  intro hmem
  cases baseline with
  | noRelease =>
    have hnil : landing.already sense = [] := h
    rw [hnil] at hmem
    cases hmem
  | «at» atLanding =>
    obtain ⟨b, a, hb, ha, hlt⟩ := hpasses
    exact absurd (h version hmem a ha b hb) (not_le.mpr hlt)

/-- A baseline the step records covers what was already published. -/
def World.RecordsCovering (s : World π) (sense : Sense) (parse : String → Option V) :
    Label π → Prop
  | .act p (.update false) =>
    match s.phase p with
    | .establishing => s.landing.Covers sense parse .noRelease
    | .keeping (.established baseline) =>
      s.record.baseline = none → s.landing.Covers sense parse baseline
    | _ => True
  | _ => True

instance (s : World π) (sense : Sense) (parse : String → Option V) (label : Label π) :
    Decidable (s.RecordsCovering sense parse label) := by
  unfold World.RecordsCovering
  split
  · split
    · infer_instance
    · infer_instance
    · infer_instance
  · infer_instance

/-- What a process has in hand is sound. -/
def Phase.Sound (landing : Landing) (sense : Sense) (parse : String → Option V) : Phase → Prop
  | .asking (some (.established baseline)) => landing.Covers sense parse baseline
  | .observing version => version ∉ landing.already sense
  | _ => True

/-- What is recorded, in hand and said is sound. -/
structure Sound (sense : Sense) (parse : String → Option V) (s : World π) : Prop where
  record : ∀ baseline, s.record.baseline = some (.established baseline) →
    s.landing.Covers sense parse baseline
  phases : ∀ p, (s.phase p).Sound s.landing sense parse
  said : ∀ entry ∈ s.said, ∀ version, entry.2 = .released version .probed →
    version ∉ s.landing.already sense

variable {sense : Sense} {parse : String → Option V} {call : π → Call} {s s' : World π} {p : π}
  {phase : Phase}

theorem Sound.goto (h : Sound sense parse s) (hphase : phase.Sound s.landing sense parse) :
    Sound sense parse (s.goto p phase) := by
  refine ⟨h.record, fun q => ?_, h.said⟩
  by_cases hq : q = p
  · subst hq
    simpa [World.goto] using hphase
  · simpa [World.goto, hq] using h.phases q

theorem Sound.say (h : Sound sense parse s) {answer : Option ReleaseAnswer}
    {status : ReleaseStatus} (hstatus : ∀ version, status = .released version .probed →
      version ∉ s.landing.already sense) : Sound sense parse (s.say p answer status) := by
  have hgone : Sound sense parse (s.goto p .done) := h.goto trivial
  refine ⟨hgone.record, hgone.phases, fun entry hentry => ?_⟩
  rcases List.mem_append.mp hentry with hentry | hentry
  · exact h.said entry hentry
  · obtain rfl := List.mem_singleton.mp hentry
    exact hstatus

theorem Sound.recorded (h : Sound sense parse s) {record : Record}
    (hrecord : ∀ baseline, record.baseline = some (.established baseline) →
      s.landing.Covers sense parse baseline) :
    Sound sense parse { s with record := record } :=
  ⟨hrecord, h.phases, h.said⟩

theorem Sound.act (h : Sound sense parse s) {act : Act}
    (hcovers : s.RecordsCovering sense parse (.act p act))
    (hs : s.act parse call p act = some s') : Sound sense parse s' := by
  have hp := h.phases p
  cases World.acts_of_act hs with
  | done => exact h.goto trivial
  | acknowledged version hacknowledged => exact h.say (by rintro _ ⟨⟩)
  | asks =>
    apply h.goto
    cases hbaseline : s.record.baseline with
    | none => trivial
    | some found =>
      cases found with
      | established baseline => exact h.record baseline hbaseline
      | unestablished reason attemptedAt => trivial
  | captures => exact h.goto trivial
  | answers hphase hdecide =>
    apply h.say
    rintro version rfl
    exact absurd hdecide (decide_not_released _ _ version)
  | finds hphase hdecide =>
    obtain ⟨established, rfl, -, hpasses⟩ := decide_release hdecide
    rw [hphase] at hp
    have hin : s.landing.Covers sense parse established := hp
    exact h.goto (hin.not_already hpasses)
  | findsNone => exact h.goto trivial
  | establishes hphase =>
    simp only [World.RecordsCovering, hphase] at hcovers
    refine (h.say (by rintro _ ⟨⟩)).recorded fun baseline heq => ?_
    obtain rfl : .noRelease = baseline := by
      injection heq with heq
      injection heq
    exact hcovers
  | observes hphase =>
    rw [hphase] at hp
    refine (h.say fun found heq => ?_).recorded h.record
    obtain ⟨rfl, -⟩ := ReleaseStatus.released.inj heq
    exact hp
  | reads record => exact h.goto trivial
  | keeps hphase =>
    simp only [World.RecordsCovering, hphase] at hcovers
    have hdone : Sound sense parse (s.goto p .done) := h.goto trivial
    refine hdone.recorded fun baseline heq => ?_
    cases hbaseline : s.record.baseline with
    | some found =>
      simp only [hbaseline, Option.some_or] at heq
      exact h.record baseline (by rw [hbaseline, heq])
    | none =>
      simp only [hbaseline, Option.none_or] at heq
      obtain rfl := Option.some.inj heq
      exact hcovers hbaseline

theorem Sound.step (h : Sound sense parse s) {label : Label π}
    (hcovers : s.RecordsCovering sense parse label)
    (hs : s.step parse call label = some s') : Sound sense parse s' := by
  cases label with
  | act p act => exact h.act hcovers hs
  | publish version =>
    obtain rfl := Option.some.inj hs
    exact ⟨h.record, h.phases, h.said⟩
  | yank version =>
    obtain rfl := Option.some.inj hs
    exact ⟨h.record, h.phases, h.said⟩
  | acknowledge version =>
    obtain rfl := Option.some.inj hs
    exact ⟨h.record, h.phases, h.said⟩

theorem Sound.of_initial (h : (releasing parse call).Initial s) : Sound sense parse s := by
  obtain ⟨hrecord, -, hphase, hsaid⟩ := h
  refine ⟨?_, fun p => ?_, ?_⟩
  · rw [hrecord]
    rintro _ ⟨⟩
  · rw [hphase p]
    trivial
  · rw [hsaid]
    intro entry hentry
    cases hentry

/-- A probe that failed came to no status but that it was not answered. -/
def Honest (entry : Option ReleaseAnswer × ReleaseStatus) : Prop :=
  ∀ reason, entry.1 = some (.notAnswered reason) → ∃ why, entry.2 = .notAnswered why

theorem Honest.of_no_failure {answer : Option ReleaseAnswer} {status : ReleaseStatus}
    (h : ∀ reason, answer ≠ some (.notAnswered reason)) : Honest (answer, status) := by
  intro reason heq
  exact absurd heq (h reason)

theorem World.act_said {act : Act} (hs : s.act parse call p act = some s') :
    s'.said = s.said ∨ ∃ entry, Honest entry ∧ s'.said = s.said ++ [entry] := by
  cases World.acts_of_act hs with
  | acknowledged version hacknowledged =>
    exact .inr ⟨_, .of_no_failure (by rintro _ ⟨⟩), rfl⟩
  | @answers baseline answer now status hphase hdecide =>
    refine .inr ⟨_, fun reason heq => ?_, rfl⟩
    obtain rfl : answer = .notAnswered reason := Option.some.inj heq
    obtain ⟨why, hwhy⟩ :
        ∃ why, decide parse baseline (.notAnswered reason) = .answer (.notAnswered why) :=
      decide_notAnswered baseline reason
    exact ⟨why, Next.answer.inj (hdecide.symm.trans hwhy)⟩
  | establishes hphase => exact .inr ⟨_, .of_no_failure (by rintro _ ⟨⟩), rfl⟩
  | observes hphase => exact .inr ⟨_, .of_no_failure (by rintro _ ⟨⟩), rfl⟩
  -- the others say nothing
  | _ => exact .inl rfl

theorem Honest.step {label : Label π} (h : ∀ entry ∈ s.said, Honest entry)
    (hs : s.step parse call label = some s') : ∀ entry ∈ s'.said, Honest entry := by
  cases label with
  | act p act =>
    rcases World.act_said hs with hsame | ⟨said, hhonest, hsaid⟩
    · rw [hsame]
      exact h
    · rw [hsaid]
      intro entry hentry
      rcases List.mem_append.mp hentry with hentry | hentry
      · exact h entry hentry
      · obtain rfl := List.mem_singleton.mp hentry
        exact hhonest
  | publish version =>
    obtain rfl := Option.some.inj hs
    exact h
  | yank version =>
    obtain rfl := Option.some.inj hs
    exact h
  | acknowledge version =>
    obtain rfl := Option.some.inj hs
    exact h

theorem failed_notAnswered (hreach : (releasing parse call).Reachable s) :
    ∀ entry ∈ s.said, Honest entry :=
  hreach.invariant
    (fun s hinit => by
      obtain ⟨-, -, -, hsaid⟩ := hinit
      rw [hsaid]
      intro entry hentry
      cases hentry)
    fun _ _ _ h _ hs => Honest.step h hs

/-- Where each baseline covers what was already published when it is recorded, a status
reports as the release of a probe only a version that was not. -/
theorem released_sound {s : World π}
    (hreach : (releasing parse call).ReachableBy
      (fun s label => s.RecordsCovering sense parse label) s) :
    (∀ entry ∈ s.said, ∀ version, entry.2 = .released version .probed →
      version ∉ s.landing.already sense) ∧
    ∀ entry ∈ s.said, ∀ reason, entry.1 = some (.notAnswered reason) →
      ∃ why, entry.2 = .notAnswered why := by
  have hsound : Sound sense parse s :=
    hreach.invariant (fun _ => Sound.of_initial) fun _ _ _ h hcovers hs => h.step hcovers hs
  exact ⟨hsound.said, failed_notAnswered (hreach.mono fun _ _ _ => trivial)⟩

end Soundness

/-! ### A landing over a release, and over one that is yanked and comes back -/

def ordered : String → Option ℕ
  | "1.0.0" => some 100
  | "2.0.0" => some 200
  | _ => none

/-- The first process is the landing's own capture, and the others ask for a status. -/
def landed : ℕ → Call
  | 0 => .capture none
  | _ => .status

/-- The change lands while 1.0.0 is out. -/
def overRelease : World ℕ where
  record := ⟨none, none, none⟩
  out := ["1.0.0"]
  landing := ⟨["1.0.0"], ["1.0.0"]⟩
  phase := fun _ => .idle
  said := []

theorem overRelease_initial : (releasing ordered landed).Initial overRelease :=
  ⟨rfl, rfl, fun _ => rfl, rfl⟩

/-- The baseline is captured, 2.0.0 is published, and a status finds it. -/
def publishing : List (Label ℕ) :=
  [.act 0 (.read false "t0"), .act 0 (.ask (.released "1.0.0") "t0"), .act 0 (.update false),
    .publish "2.0.0", .act 1 (.read false "t1"), .act 1 (.ask (.released "2.0.0") "t1"),
    .act 1 (.update false)]

theorem publishing_runs : ((releasing ordered landed).run overRelease publishing).isSome := by
  decide

def passed : World ℕ :=
  ((releasing ordered landed).run overRelease publishing).get publishing_runs

theorem released_sound_passed : "2.0.0" ∉ passed.landing.already .published :=
  (released_sound (Foundations.System.reachableBy_of_run overRelease_initial (by decide)
    (Option.some_get publishing_runs).symm)).1
      (some (.released "2.0.0"), .released "2.0.0" .probed) (by decide) "2.0.0" rfl

/-- The capture's probe fails, 1.0.0 is yanked, a status establishes that nothing was
released, and 1.0.0 is published again before another status. -/
def unyanking : List (Label ℕ) :=
  [.act 0 (.read false "t0"), .act 0 (.ask (.notAnswered "timed out") "t0"),
    .act 0 (.update false), .yank "1.0.0", .act 1 (.read false "t1"),
    .act 1 (.ask .noRelease "t1"), .act 1 (.update false), .publish "1.0.0",
    .act 2 (.read false "t2"), .act 2 (.ask (.released "1.0.0") "t2"), .act 2 (.update false)]

theorem unyanking_runs : ((releasing ordered landed).run overRelease unyanking).isSome := by
  decide

def unyanked : World ℕ :=
  ((releasing ordered landed).run overRelease unyanking).get unyanking_runs

/-- The release that was out when the change landed is reported to carry it. -/
theorem unyanked_released : (releasing ordered landed).Reachable unyanked ∧
    ∃ entry ∈ unyanked.said, ∃ version, entry.2 = .released version .probed ∧
      ∀ sense, version ∈ unyanked.landing.already sense :=
  ⟨Foundations.System.reachable_of_run overRelease_initial
      (Option.some_get unyanking_runs).symm,
    (some (.released "1.0.0"), .released "1.0.0" .probed), by decide, "1.0.0", rfl, by
      intro sense
      cases sense with
      | out => decide
      | published => decide⟩

end Onevcs.Release
