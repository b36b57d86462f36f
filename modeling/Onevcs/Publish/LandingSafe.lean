import Onevcs.Foundations.Outcome
import Onevcs.Publish.DraftSkips
import Onevcs.Publish.Landing

/-!
# What an automated landing merges

Every merge a landing asks for is asked for under the identity's merge turn, of a change that
is no draft any more, and on what settled: what a re-verification of the same turn found, or a
wait that elapsed with no required check red or skipped. One look goes wrong: after an early
lift under a declaration that could not be read, a check whose every required marking is a
draft's skip is not among the checks read for a red one.
-/

namespace Onevcs.Publish

open Foundations (System Text)

section Standings

variable {checks : List Check} {declared : Declared}

theorem red_standings_eq_none (h : red (standings checks declared) = none) {standing : Standing}
    (hstanding : standing ∈ standings checks declared) : standing.state ≠ some .failed := by
  intro hfailed
  cases hfind : (standings checks declared).find? fun standing =>
      standing.state == some .failed with
  | none => exact absurd (by simpa using hfailed) (List.find?_eq_none.mp hfind _ hstanding)
  | some found =>
    obtain ⟨-, hcheck, hstate⟩ := mem_standings.mp (List.mem_of_find?_eq_some hfind)
    have hfound : found.state = some .failed := by
      simpa using List.find?_some hfind
    rw [red, hfind, Option.bind_some] at h
    rw [hstate, ← hcheck, h] at hfound
    cases hfound

theorem skippedIn_eq_nil {standing : List Standing} (h : skippedIn standing = [])
    {one : Standing} (hone : one ∈ standing) : one.state ≠ some .skipped := by
  intro hskipped
  have hmem : one.name ∈ skippedIn standing := by
    rw [skippedIn]
    exact List.mem_map_of_mem (List.mem_filter.mpr ⟨hone, by simpa using hskipped⟩)
  rw [h] at hmem
  cases hmem

/-- Sharpened by a reading, a declaration has the required checks stand where they stood. -/
theorem standings_given (reading : Reading) :
    standings reading.reported.checks (declared.given reading) =
      standings reading.reported.checks declared := by
  by_cases hnothing : declared.given reading = .nothing
  · rw [hnothing, standings, standings, requiredNames_of_given_nothing hnothing]
    rfl
  · rw [Declared.given_of_ne_nothing hnothing]

theorem noneRedOrSkipped_of_red (hred : red (standings checks declared) = none)
    (hskipped : skippedIn (standings checks declared) = []) :
    NoneRedOrSkipped (standings checks declared) :=
  fun _ hstanding => ⟨red_standings_eq_none hred hstanding, skippedIn_eq_nil hskipped hstanding⟩

theorem red_standings_nil : red (standings [] declared) = none := by
  have hnone : (standings [] declared).find? (fun standing => standing.state == some .failed) =
      none := by
    rw [List.find?_eq_none]
    intro standing hstanding
    obtain ⟨-, -, hstate⟩ := mem_standings.mp hstanding
    rw [hstate]
    simp [decided]
  rw [red, hnone, Option.bind_none]

theorem eq_nil_of_pushNew {names more : List Text} (h : pushNew names more = []) :
    names = [] ∧ more = [] := by
  induction more generalizing names with
  | nil => exact ⟨h, rfl⟩
  | cons name more ih =>
    rw [pushNew, List.foldl_cons] at h
    obtain ⟨hnames, -⟩ := ih h
    split at hnames
    · rename_i hcontains
      rw [hnames] at hcontains
      simp at hcontains
    · simp at hnames

end Standings

section Turns

variable {watcher : Watcher} {look : Look}

@[simp] theorem Watcher.remembering_pushed (watcher : Watcher) (look : Look) :
    (watcher.remembering look).pushed = watcher.pushed := rfl

@[simp] theorem Watcher.remembering_armed (watcher : Watcher) (look : Look) :
    (watcher.remembering look).armed = watcher.armed := rfl

@[simp] theorem Watcher.remembering_elapsed (watcher : Watcher) (look : Look) :
    (watcher.remembering look).elapsed = watcher.elapsed := rfl

@[simp] theorem Watcher.afterStillRunning_pushed (watcher : Watcher) (look : Look)
    (reading : Reading) :
    (watcher.afterStillRunning look reading).pushed = watcher.pushed := by
  unfold Watcher.afterStillRunning
  split <;> rfl

@[simp] theorem Watcher.afterStillRunning_armed (watcher : Watcher) (look : Look)
    (reading : Reading) :
    (watcher.afterStillRunning look reading).armed = watcher.armed := by
  unfold Watcher.afterStillRunning
  split <;> rfl

@[simp] theorem Watcher.afterStillRunning_elapsed (watcher : Watcher) (look : Look)
    (reading : Reading) :
    (watcher.afterStillRunning look reading).elapsed = watcher.elapsed := by
  unfold Watcher.afterStillRunning
  split <;> rfl

/-- What a turn of a loop that settles keeps of the watch: the head, whether the merge is
armed on it, and that no merge is asked for. Only the refusal that says so leaves it elapsed. -/
structure Watcher.Keeps (watcher : Watcher) (turn : Turn) : Prop where
  pushed : turn.watcher.pushed = watcher.pushed
  armed : turn.watcher.armed = watcher.armed
  calls : turn.calls = [] ∨ turn.calls = [.lifted]
  elapsed : turn.watcher.elapsed = true →
    watcher.elapsed = true ∨ turn.after = .refused .checksUnsettled

theorem Watcher.Keeps.waits {before : Watcher} (skipped : List Text)
    (hpushed : watcher.pushed = before.pushed) (harmed : watcher.armed = before.armed)
    (helapsed : watcher.elapsed = before.elapsed) :
    before.Keeps (watcher.waits look skipped) := by
  have hkept (h : watcher.elapsed = true) : before.elapsed = true := helapsed.symm.trans h
  unfold Watcher.waits
  split
  · exact ⟨hpushed, harmed, .inl rfl, fun _ => .inr rfl⟩
  · split <;> exact ⟨hpushed, harmed, .inl rfl, fun h => .inl (hkept h)⟩

theorem settleReady_keeps (watcher : Watcher) (look : Look) :
    watcher.Keeps (settleReady watcher look) := by
  fun_cases settleReady watcher look <;>
    first
      | exact ⟨rfl, rfl, .inl rfl, .inl⟩
      | exact .waits _ rfl rfl rfl

theorem settleDraft_keeps (watcher : Watcher) (look : Look) :
    watcher.Keeps (settleDraft watcher look) := by
  have hpushed (reading : Reading) := (watcher.remembering look).afterStillRunning_pushed look reading
  have harmed (reading : Reading) := (watcher.remembering look).afterStillRunning_armed look reading
  have helapsed (reading : Reading) :=
    (watcher.remembering look).afterStillRunning_elapsed look reading
  fun_cases settleDraft watcher look
  case case6 => exact .waits _ (hpushed _) (harmed _) (helapsed _)
  case case7 => exact ⟨hpushed _, harmed _, .inl rfl, fun h => .inl ((helapsed _).symm.trans h)⟩
  case case8 => exact ⟨hpushed _, harmed _, .inr rfl, fun h => .inl ((helapsed _).symm.trans h)⟩
  case case9 => exact .waits _ rfl rfl rfl
  all_goals exact ⟨rfl, rfl, .inl rfl, .inl⟩

theorem settleAfterEarlyLift_keeps (watcher : Watcher) (declared : Declared)
    (snapshot : List Check) (look : Look) :
    watcher.Keeps (settleAfterEarlyLift watcher declared snapshot look) := by
  have hpushed (reading : Reading) := watcher.afterStillRunning_pushed look reading
  have harmed (reading : Reading) := watcher.afterStillRunning_armed look reading
  have helapsed (reading : Reading) := watcher.afterStillRunning_elapsed look reading
  fun_cases settleAfterEarlyLift watcher declared snapshot look
  case case4 => exact .waits _ (hpushed _) (harmed _) (helapsed _)
  case case5 => exact ⟨hpushed _, harmed _, .inl rfl, fun h => .inl ((helapsed _).symm.trans h)⟩
  case case6 => exact .waits _ rfl rfl rfl
  all_goals exact ⟨rfl, rfl, .inl rfl, .inl⟩

theorem settles_keeps (watcher : Watcher) (phase : Settling) (look : Look) :
    watcher.Keeps (Landing.settles watcher phase look) := by
  cases phase with
  | draft => exact settleDraft_keeps watcher look
  | lifted declared snapshot => exact settleAfterEarlyLift_keeps watcher declared snapshot look
  | ready => exact settleReady_keeps watcher look

theorem settleDraft_lifts {declared : Declared} {snapshot : List Check}
    (h : (settleDraft watcher look).after = .liftedEarly declared snapshot) :
    (settleDraft watcher look).calls = [.lifted] := by
  revert h
  fun_cases settleDraft watcher look <;> intro h
  case case8 => rfl
  all_goals simp at h

theorem settleDraft_green {green : Bool} (h : (settleDraft watcher look).after = .settled green) :
    green = true := by
  revert h
  fun_cases settleDraft watcher look <;> intro h
  case case2 => exact (After.settled.inj h).symm
  case case4 => exact (After.settled.inj h).symm
  case case5 => exact (After.settled.inj h).symm
  all_goals simp at h

theorem settleReady_ne_liftedEarly {declared : Declared} {snapshot : List Check} :
    (settleReady watcher look).after ≠ .liftedEarly declared snapshot := by
  fun_cases settleReady watcher look <;>
    first
      | exact Watcher.waits_ne_liftedEarly _ _ _ _ _
      | nofun

theorem settleReady_declaration (watcher : Watcher) (look : Look) :
    (settleReady watcher look).watcher.declaration = some (watcher.declared look) := by
  fun_cases settleReady watcher look <;>
    first
      | rfl
      | exact Watcher.waits_declaration _ _ _

/-! ## What a wait that elapsed had read -/

theorem Watcher.waits_elapsed {skipped : List Text} (hbefore : watcher.elapsed = false)
    (h : (watcher.waits look skipped).watcher.elapsed = true) :
    look.outOfTime = true ∧ (watcher.waits look skipped).watcher.skippedAtElapse = skipped := by
  unfold Watcher.waits at h ⊢
  split
  · rename_i hbound
    exact ⟨hbound, rfl⟩
  · rename_i hbound
    rw [if_neg hbound] at h
    split at h <;> exact absurd h (by simp [hbefore])

/-- A wait that elapsed with no check skipped, over standings with none red, had read no
required check red or skipped. -/
theorem noneRedOrSkipped_of_waits {reading : Reading} {declared : Declared}
    (hbefore : watcher.elapsed = false)
    (hred : red (standings reading.reported.checks (declared.given reading)) = none)
    (h : (watcher.waits look (skippedIn
      (standings reading.reported.checks (declared.given reading)))).watcher.elapsed = true)
    (hskipped : (watcher.waits look (skippedIn
      (standings reading.reported.checks (declared.given reading)))).watcher.skippedAtElapse = []) :
    NoneRedOrSkipped (standings reading.reported.checks declared) := by
  obtain ⟨-, hnames⟩ := Watcher.waits_elapsed hbefore h
  rw [hnames] at hskipped
  rw [← standings_given]
  exact noneRedOrSkipped_of_red hred hskipped

theorem red_of_pending {required : List Standing} {declared : Declared} {names : List Text}
    (h : verdictOf required declared = .pending names) : red required = none := by
  have hnone : required.find? (fun standing => standing.state == some .failed) = none := by
    rw [List.find?_eq_none]
    intro standing hstanding hfailed
    rw [verdictOf, if_pos] at h
    · cases h
    · simp only [Bool.not_eq_true', List.isEmpty_eq_false_iff_exists_mem]
      exact ⟨_, List.mem_map_of_mem (List.mem_filter.mpr ⟨hstanding, hfailed⟩)⟩
  rw [red, hnone, Option.bind_none]

theorem settleReady_elapsed (hbefore : watcher.elapsed = false)
    (h : (settleReady watcher look).watcher.elapsed = true) :
    ∃ answered, look.checks = .ok answered ∧
      ((settleReady watcher look).watcher.skippedAtElapse = [] →
        NoneRedOrSkipped (standings (watcher.read answered).reported.checks
          (watcher.declared look))) := by
  revert h
  fun_cases settleReady watcher look <;> intro h
  case case2 _ answered hchecks _ _ _ _ hreported =>
    have hred : red (standings (watcher.read answered).reported.checks
        ((watcher.declared look).given (watcher.read answered))) = none := by
      change (watcher.read answered).reported = .notYet at hreported
      rw [hreported]
      exact red_standings_nil
    exact ⟨answered, hchecks, noneRedOrSkipped_of_waits hbefore hred h⟩
  case case3 _ answered hchecks _ _ _ _ _ _ _ hverdict =>
    exact ⟨answered, hchecks, noneRedOrSkipped_of_waits hbefore (red_of_pending hverdict) h⟩
  case case5 _ answered hchecks _ _ _ _ _ _ _ _ hred =>
    exact ⟨answered, hchecks, noneRedOrSkipped_of_waits hbefore hred h⟩
  all_goals cases hbefore.symm.trans h

theorem settleDraft_elapsed (hbefore : watcher.elapsed = false)
    (h : (settleDraft watcher look).watcher.elapsed = true) :
    ∃ answered, look.checks = .ok answered ∧
      ((settleDraft watcher look).watcher.skippedAtElapse = [] →
        NoneRedOrSkipped (standings (watcher.read answered).reported.checks
          (watcher.declared look))) := by
  have hasked (reading : Reading) :
      ((watcher.remembering look).afterStillRunning look reading).elapsed = false :=
    ((watcher.remembering look).afterStillRunning_elapsed look reading).trans hbefore
  revert h
  fun_cases settleDraft watcher look <;> intro h
  case case6 _ answered hchecks _ _ _ _ _ hred _ _ _ _ _ =>
    exact ⟨answered, hchecks, noneRedOrSkipped_of_waits (hasked _) hred h⟩
  case case9 _ answered hchecks _ _ _ _ _ hred _ _ _ =>
    exact ⟨answered, hchecks, noneRedOrSkipped_of_waits hbefore hred h⟩
  case case7 => cases (hasked _).symm.trans h
  case case8 => cases (hasked _).symm.trans h
  all_goals cases hbefore.symm.trans h

/-- A red check among all of a reading is red among what is counted, where it is required
there. -/
theorem failed_of_counted {checks snapshot : List Check} {declared : Declared}
    {standing : Standing} (h : standing ∈ standings checks declared)
    (hfailed : standing.state = some .failed)
    (hname : standing.name ∈ requiredNames (counted checks snapshot) declared) :
    red (standings (counted checks snapshot) declared) ≠ none := by
  intro hred
  obtain ⟨check, hcheck, hcheckname, hstate⟩ := exists_of_state h hfailed
  obtain ⟨other, hother, hothername⟩ := exists_standing hname
  have hmem : check ∈ counted checks snapshot := by
    refine mem_counted.mpr ⟨hcheck, fun hskipped => ?_⟩
    rw [hstate] at hskipped
    cases hskipped
  obtain ⟨entry, hentry⟩ := decided_of_mem hmem (hcheckname.trans hothername.symm)
  have hle := decided_le hentry hmem (hcheckname.trans hothername.symm)
  have hentrystate : entry.state = .failed := by
    rw [hstate] at hle
    cases hat : entry.state <;> rw [hat] at hle <;> first | rfl | exact absurd hle (by decide)
  refine red_standings_eq_none hred hother ?_
  rw [(mem_standings.mp hother).2.2, hentry, Option.map_some, hentrystate]

/-- A wait that elapsed after an early lift, where none was skipped, had read no required
check red or skipped but for a red one whose every required marking is set aside. -/
theorem settleAfterEarlyLift_elapsed {declared : Declared} {snapshot : List Check}
    (hbefore : watcher.elapsed = false)
    (h : (settleAfterEarlyLift watcher declared snapshot look).watcher.elapsed = true) :
    ∃ answered, look.checks = .ok answered ∧ look.outOfTime = true ∧
      ((settleAfterEarlyLift watcher declared snapshot look).watcher.skippedAtElapse = [] →
        (∀ standing ∈ standings (watcher.read answered).reported.checks declared,
          standing.state = some .failed → standing.name ∈ requiredNames
            (counted (watcher.read answered).reported.checks snapshot) declared) →
        NoneRedOrSkipped (standings (watcher.read answered).reported.checks declared)) := by
  have hasked (reading : Reading) :
      (watcher.afterStillRunning look reading).elapsed = false :=
    (watcher.afterStillRunning_elapsed look reading).trans hbefore
  have hwaited {checks : List Check}
      (hred : red (standings (counted checks snapshot) declared) = none)
      (hskipped : pushNew (skippedIn (standings (counted checks snapshot) declared))
        (skippedIn (standings checks declared)) = [])
      (hseen : ∀ standing ∈ standings checks declared, standing.state = some .failed →
        standing.name ∈ requiredNames (counted checks snapshot) declared) :
      NoneRedOrSkipped (standings checks declared) := by
    intro standing hstanding
    refine ⟨fun hfailed => ?_, skippedIn_eq_nil (eq_nil_of_pushNew hskipped).2 hstanding⟩
    exact failed_of_counted hstanding hfailed (hseen standing hstanding hfailed) hred
  revert h
  fun_cases settleAfterEarlyLift watcher declared snapshot look <;> intro h
  case case4 answered hchecks _ _ _ _ hred _ _ _ _ =>
    obtain ⟨hbound, hnames⟩ := Watcher.waits_elapsed (hasked _) h
    exact ⟨answered, hchecks, hbound, fun hskipped => hwaited hred (hnames.symm.trans hskipped)⟩
  case case6 answered hchecks _ _ _ _ hred _ _ =>
    obtain ⟨hbound, hnames⟩ := Watcher.waits_elapsed hbefore h
    exact ⟨answered, hchecks, hbound, fun hskipped => hwaited hred (hnames.symm.trans hskipped)⟩
  case case5 => cases (hasked _).symm.trans h
  all_goals cases hbefore.symm.trans h

/-- What a turn of `await_the_merge` keeps: the head, a merge that is armed, and a wait that
does not elapse before one is. It asks for a merge only where none is armed. -/
structure Watcher.Awaits (watcher : Watcher) (turn : Turn) : Prop where
  pushed : turn.watcher.pushed = watcher.pushed
  armed : watcher.armed = true → turn.watcher.armed = true
  elapsed : turn.watcher.elapsed = true → watcher.elapsed = true ∨
    turn.watcher.armed = true ∧ turn.after = .refused .checksUnsettled
  lifted : turn.calls.contains .lifted = false

theorem awaitArmed_awaits (calls : List HostCall) (hcalls : calls.contains .lifted = false)
    (harmed : watcher.armed = true) : watcher.Awaits (awaitArmed watcher look calls) := by
  fun_cases awaitArmed watcher look calls <;>
    first
      | exact ⟨rfl, fun _ => harmed, .inl, hcalls⟩
      | exact ⟨rfl, fun _ => harmed, fun _ => .inr ⟨harmed, rfl⟩, hcalls⟩

theorem awaitTheMerge_awaits (watcher : Watcher) (look : Look) :
    watcher.Awaits (awaitTheMerge watcher look) := by
  fun_cases awaitTheMerge watcher look
  case case1 harmed => exact awaitArmed_awaits [] rfl harmed
  case case2 => exact ⟨rfl, id, .inl, rfl⟩
  case case3 => exact ⟨rfl, fun _ => rfl, .inl, rfl⟩
  all_goals
    have h : { watcher with armed := true }.Awaits
        (awaitArmed { watcher with armed := true } look [.merge .changeAuto]) :=
      awaitArmed_awaits _ rfl rfl
    exact ⟨h.pushed, fun _ => h.armed rfl, h.elapsed, h.lifted⟩

end Turns

namespace Landing

variable {publication : Publication} {s next : Landing} {event : Event}

/-- A wait elapsed that armed no merge, with no required check red or skipped unless it named
the skipped ones. -/
def Waited (s : Landing) : Prop :=
  s.watcher.elapsed = true ∧ (s.watcher.armed = false → s.watcher.skippedAtElapse = [] →
    ∀ declared ∈ s.watcher.declaration, NoneRedOrSkipped (standings s.last declared))

/-- What a re-verification of this turn found holds. -/
def Verified (s : Landing) : Prop :=
  ∃ found ∈ s.found, found.turn = s.turn ∧ found.head = s.watcher.pushed ∧ found.Holds

/-- What a landing rests on where it is. -/
def StageHolds (s : Landing) : Prop :=
  match s.stage with
  | .opening => s.draft = false ∧ s.watcher.elapsed = false
  | .settling .draft => s.watcher.elapsed = false
  | .settling (.lifted declared _) =>
    s.draft = false ∧ s.watcher.elapsed = false ∧ s.watcher.declaration = some declared
  | .settling .ready => s.draft = false ∧ s.watcher.elapsed = false
  | .green => s.watcher.elapsed = false
  | .settled => s.draft = false ∧ s.watcher.elapsed = false
  | .waited => s.Waited
  | .verifying => s.draft = false ∧ s.watcher.elapsed = false ∧ s.turn.isSome = true
  | .merging =>
    s.draft = false ∧ s.watcher.elapsed = false ∧ s.turn.isSome = true ∧ s.Verified
  | .elapsing => s.turn.isSome = true ∧ s.Waited
  | .resettling | .resyncing _ => s.draft = false
  | .ended _ => True

/-- What every run of a landing keeps. -/
structure Sound (publication : Publication) (s : Landing) : Prop where
  merges : s.MergesWhatSettled
  taught : s.draft = true → publication.taught = true
  stage : s.StageHolds

theorem start_sound (publication : Publication) : (start publication).Sound publication where
  merges := by
    refine ⟨fun ask hask => ?_, fun harmed => ?_⟩
    · cases hask
    · cases harmed
  taught h := by cases h
  stage := ⟨rfl, rfl⟩

theorem Sound.ends (hsound : s.Sound publication) (ending : Ending) :
    (s.ends ending).Sound publication where
  merges := hsound.merges
  taught := hsound.taught
  stage := trivial

theorem Sound.refuses {elapsed : Stage} {refusal : Refusal}
    (hmerges : s.MergesWhatSettled) (htaught : s.draft = true → publication.taught = true)
    (hstage : s.watcher.elapsed = true → { s with stage := elapsed }.StageHolds) :
    (s.refuses elapsed refusal).Sound publication := by
  unfold Landing.refuses
  split
  · rename_i h
    exact ⟨hmerges, htaught, hstage h.2⟩
  · exact ⟨hmerges, htaught, trivial⟩

/-- A turn of a loop that settles asks for nothing, and keeps the head and what is armed. -/
theorem watched_merges {turn : Turn} (look : Look) (hmerges : s.MergesWhatSettled)
    (hkeeps : s.watcher.Keeps turn) : (s.watched look turn).MergesWhatSettled := by
  have hnone : turn.calls.any (fun call => call != .lifted) = false := by
    rcases hkeeps.calls with hcalls | hcalls <;> rw [hcalls] <;> rfl
  unfold Landing.watched
  rw [hnone]
  refine ⟨hmerges.1, fun harmed => ?_⟩
  change turn.watcher.armed = true at harmed
  rw [hkeeps.armed] at harmed
  simp [hkeeps.armed, hkeeps.pushed, hmerges.2 harmed]

theorem watched_draft {turn : Turn} {look : Look} :
    (s.watched look turn).draft = (s.draft && !turn.calls.contains .lifted) := rfl

theorem watched_watcher {turn : Turn} {look : Look} :
    (s.watched look turn).watcher = turn.watcher := rfl

theorem watched_stage {turn : Turn} {look : Look} : (s.watched look turn).stage = s.stage := by
  unfold Landing.watched
  split <;> rfl

theorem watched_turn {turn : Turn} {look : Look} : (s.watched look turn).turn = s.turn := by
  unfold Landing.watched
  split <;> rfl

theorem watched_found {turn : Turn} {look : Look} : (s.watched look turn).found = s.found := by
  unfold Landing.watched
  split <;> rfl

theorem watched_taught (turn : Turn) (look : Look)
    (htaught : s.draft = true → publication.taught = true)
    (h : (s.watched look turn).draft = true) : publication.taught = true :=
  htaught (Bool.and_eq_true_iff.mp h).1

/-- Where a turn of a loop that settles goes, by what it leaves. -/
theorem settlesOn_sound_of {turn : Turn} {look : Look} (hsound : s.Sound publication)
    (helapsed : s.watcher.elapsed = false) (hkeeps : s.watcher.Keeps turn)
    (hagain : turn.after = .again → turn.watcher.elapsed = false →
      (s.watched look turn).StageHolds)
    (hlifted : ∀ declared snapshot, turn.after = .liftedEarly declared snapshot →
      (s.watched look turn).draft = false ∧ turn.watcher.declaration = some declared)
    (hsettled : turn.after = .settled false → (s.watched look turn).draft = false)
    (hwaited : turn.watcher.elapsed = true → (s.watched look turn).Waited) :
    ((s.watched look turn).settlesOn turn.after).Sound publication := by
  have hmerges := watched_merges look hsound.merges hkeeps
  have htaught := watched_taught turn look hsound.taught
  have hkept (h : turn.after ≠ .refused .checksUnsettled) : turn.watcher.elapsed = false := by
    cases hturn : turn.watcher.elapsed with
    | false => rfl
    | true =>
      rcases hkeeps.elapsed hturn with hbefore | hrefused
      · cases helapsed.symm.trans hbefore
      · exact absurd hrefused h
  cases hafter : turn.after with
  | again => exact ⟨hmerges, htaught, hagain hafter (hkept (by rw [hafter]; nofun))⟩
  | liftedEarly declared snapshot =>
    obtain ⟨hdraft, hdeclared⟩ := hlifted _ _ hafter
    exact ⟨hmerges, htaught, hdraft, hkept (by rw [hafter]; nofun), hdeclared⟩
  | settled green =>
    have hbound := hkept (by rw [hafter]; nofun)
    cases green with
    | true => exact ⟨hmerges, htaught, hbound⟩
    | false => exact ⟨hmerges, htaught, hsettled hafter, hbound⟩
  | refused refusal => exact .refuses hmerges htaught fun h => hwaited h
  | landed sha => exact ⟨hmerges, htaught, trivial⟩
  | resettle => exact ⟨hmerges, htaught, trivial⟩

theorem watched_last {turn : Turn} {look : Look} {answered : ChangeChecks}
    (h : look.checks = .ok answered) :
    (s.watched look turn).last = (s.watcher.read answered).reported.checks := by
  simp [Landing.watched, h]

/-- What a turn of a loop that settles goes on with holds where it goes. -/
theorem settlesOn_sound {phase : Settling} {look : Look} (hsound : s.Sound publication)
    (hphase : s.stage = .settling phase) (hsees : s.SeesReds (.look look)) :
    ((s.watched look (settles s.watcher phase look)).settlesOn
      (settles s.watcher phase look).after).Sound publication := by
  have hkeeps := settles_keeps s.watcher phase look
  have hstage := hsound.stage
  rw [StageHolds, hphase] at hstage
  cases phase with
  | draft =>
    refine settlesOn_sound_of hsound hstage hkeeps ?_ ?_ ?_ ?_
    · intro _ helapsed
      rw [StageHolds, watched_stage, hphase]
      exact helapsed
    · intro declared snapshot hlifted
      refine ⟨?_, ?_⟩
      · rw [watched_draft, settles, settleDraft_lifts hlifted]
        exact Bool.and_false _
      · rw [settleDraft_liftedEarly hlifted]
        exact settleDraft_declaration s.watcher look
    · intro hsettled
      cases settleDraft_green hsettled
    · intro helapsed
      obtain ⟨answered, hchecks, hread⟩ := settleDraft_elapsed hstage helapsed
      refine ⟨helapsed, fun _ hskipped declared hdeclared => ?_⟩
      obtain rfl : s.watcher.declared look = declared :=
        Option.some.inj ((settleDraft_declaration s.watcher look).symm.trans hdeclared)
      rw [watched_last hchecks]
      exact hread hskipped
  | lifted declared snapshot =>
    obtain ⟨hdraft, hbound, hdeclaration⟩ := hstage
    simp only [SeesReds, hphase] at hsees
    have hundrafted : (s.watched look (settles s.watcher (.lifted declared snapshot) look)).draft =
        false := by
      rw [watched_draft, hdraft, Bool.false_and]
    have hkept : (settles s.watcher (.lifted declared snapshot) look).watcher.declaration =
        some declared :=
      (settleAfterEarlyLift_declaration s.watcher declared snapshot look).trans hdeclaration
    refine settlesOn_sound_of hsound hbound hkeeps ?_ ?_ ?_ ?_
    · intro _ helapsed
      rw [StageHolds, watched_stage, hphase]
      exact ⟨hundrafted, helapsed, hkept⟩
    · intro _ _ hlifted
      exact absurd hlifted settleAfterEarlyLift_ne_liftedEarly
    · exact fun _ => hundrafted
    · intro helapsed
      obtain ⟨answered, hchecks, hout, hread⟩ := settleAfterEarlyLift_elapsed hbound helapsed
      refine ⟨helapsed, fun _ hskipped declared' hdeclared => ?_⟩
      obtain rfl : declared = declared' := Option.some.inj (hkept.symm.trans hdeclared)
      rw [watched_last hchecks]
      refine hread hskipped ?_
      exact hsees hout answered (by rw [hchecks]; rfl)
  | ready =>
    obtain ⟨hdraft, hbound⟩ := hstage
    have hundrafted : (s.watched look (settles s.watcher .ready look)).draft = false := by
      rw [watched_draft, hdraft, Bool.false_and]
    refine settlesOn_sound_of hsound hbound hkeeps ?_ ?_ ?_ ?_
    · intro _ helapsed
      rw [StageHolds, watched_stage, hphase]
      exact ⟨hundrafted, helapsed⟩
    · intro _ _ hlifted
      exact absurd hlifted settleReady_ne_liftedEarly
    · exact fun _ => hundrafted
    · intro helapsed
      obtain ⟨answered, hchecks, hread⟩ := settleReady_elapsed hbound helapsed
      refine ⟨helapsed, fun _ hskipped declared hdeclared => ?_⟩
      obtain rfl : s.watcher.declared look = declared :=
        Option.some.inj ((settleReady_declaration s.watcher look).symm.trans hdeclared)
      rw [watched_last hchecks]
      exact hread hskipped

theorem asking_settled (hmerges : s.MergesWhatSettled) (hdraft : s.draft = false)
    (hturn : s.turn.isSome = true) (hverified : s.Verified) :
    ∀ ask ∈ (s.asking none).asks, ask.Settled := by
  intro ask hask
  rcases List.mem_append.mp hask with hask | hask
  · exact hmerges.1 ask hask
  · obtain rfl := List.mem_singleton.mp hask
    exact ⟨hturn, hdraft, .inl hverified⟩

theorem awaited_merges {turn : Turn} (look : Look) (hmerges : s.MergesWhatSettled)
    (hdraft : s.draft = false) (hturn : s.turn.isSome = true) (hverified : s.Verified)
    (hawaits : s.watcher.Awaits turn) : (s.watched look turn).MergesWhatSettled := by
  refine ⟨?_, fun harmed => ?_⟩
  · unfold Landing.watched
    split
    · exact asking_settled hmerges hdraft hturn hverified
    · exact hmerges.1
  · change turn.watcher.armed = true at harmed
    change (if turn.watcher.armed && !s.watcher.armed then some turn.watcher.pushed
      else s.armedOn) = some turn.watcher.pushed
    cases hbefore : s.watcher.armed with
    | false => simp [harmed]
    | true => simp [harmed, hawaits.pushed, hmerges.2 hbefore]

/-- What a turn of `await_the_merge` goes on with holds where it goes. -/
theorem awaitsOn_sound {look : Look} (hsound : s.Sound publication)
    (hstage : s.stage = .merging) :
    ((s.watched look (awaitTheMerge s.watcher look)).awaitsOn
      (awaitTheMerge s.watcher look).after).Sound publication := by
  have hawaits := awaitTheMerge_awaits s.watcher look
  have hholds := hsound.stage
  rw [StageHolds, hstage] at hholds
  obtain ⟨hdraft, hbound, hturn, hverified⟩ := hholds
  have hmerges := awaited_merges look hsound.merges hdraft hturn hverified hawaits
  have htaught := watched_taught (awaitTheMerge s.watcher look) look hsound.taught
  have hundrafted : (s.watched look (awaitTheMerge s.watcher look)).draft = false := by
    rw [watched_draft, hdraft, Bool.false_and]
  cases hafter : (awaitTheMerge s.watcher look).after with
  | again =>
    have hkept : (awaitTheMerge s.watcher look).watcher.elapsed = false := by
      cases helapsed : (awaitTheMerge s.watcher look).watcher.elapsed with
      | false => rfl
      | true =>
        rcases hawaits.elapsed helapsed with hbefore | ⟨-, hrefused⟩
        · cases hbound.symm.trans hbefore
        · cases hafter.symm.trans hrefused
    refine ⟨hmerges, htaught, ?_⟩
    rw [awaitsOn, StageHolds, watched_stage, hstage]
    refine ⟨hundrafted, hkept, by rw [watched_turn]; exact hturn, ?_⟩
    rw [Landing.Verified, watched_found, watched_turn, watched_watcher, hawaits.pushed]
    exact hverified
  | refused refusal =>
    refine .refuses hmerges htaught fun helapsed => ⟨?_, helapsed, fun hunarmed => ?_⟩
    · change (s.watched look _).turn.isSome = true
      rw [watched_turn]
      exact hturn
    · rcases hawaits.elapsed helapsed with hbefore | ⟨harmed, -⟩
      · cases hbound.symm.trans hbefore
      · cases hunarmed.symm.trans harmed
  | landed sha => exact ⟨hmerges, htaught, trivial⟩
  | resettle => exact ⟨hmerges, htaught, hundrafted⟩
  | liftedEarly declared snapshot => exact ⟨hmerges, htaught, trivial⟩
  | settled green => exact ⟨hmerges, htaught, trivial⟩

theorem git_eq_ok {α : Type} {answer : Except Text α} {value : α} :
    git answer = .ok value ↔ answer = .ok value := by
  cases answer <;> simp [git]

theorem headMoved_eq_none {pushed : Text} {answer : Except Text RemoteTip}
    (h : Publish.headMoved pushed answer = .ok none) : answer = .ok (.isAt pushed) := by
  obtain ⟨tip, htip, h⟩ := Foundations.bind_eq_ok.mp h
  rw [git_eq_ok.mp htip]
  cases tip with
  | isAt tip =>
    by_cases hsame : tip = pushed
    · rw [hsame]
    · simp [hsame, pure, Except.pure] at h
  | absent => cases h
  | unknown => cases h

/-- A branch that is gone is no branch at another tip. -/
example : Publish.headMoved "a".toList (.ok .absent) = .error .invalid ∧
    Publish.headMoved "a".toList (.ok (.isAt "b".toList)) = .ok (some "b".toList) := by decide +kernel

/-- What a re-verification that finds nothing moved had read. -/
theorem finds_of_reverify {read : Reverify} (h : Publish.reverify s.watcher read = .ok none) :
    ∃ found ∈ s.finds read, found.turn = s.turn ∧ found.head = s.watcher.pushed ∧
      found.Holds := by
  unfold Publish.reverify at h
  split at h
  · cases h
  rename_i answered hchecks
  obtain ⟨moved, hmoved, h⟩ := Foundations.bind_eq_ok.mp h
  cases moved with
  | some tip => cases h
  | none =>
    have hbranch := headMoved_eq_none hmoved
    by_cases hthrough : through (s.watcher.read answered)
        ((s.watcher.declared read.look).given (s.watcher.read answered)) = true
    · simp only [hthrough, Bool.not_true, Bool.false_eq_true, if_false] at h
      obtain ⟨base, -, h⟩ := Foundations.bind_eq_ok.mp h
      cases base with
      | absent => cases h
      | unknown => cases h
      | isAt baseTip =>
        have hcarried : read.carries = .ok true ∨
            mustBeUpToDate read.requiresUpToDate = false := by
          obtain ⟨carried, hcarries, h⟩ := Foundations.bind_eq_ok.mp h
          rw [git_eq_ok] at hcarries
          cases carried with
          | true => exact .inl hcarries
          | false =>
            cases hmust : mustBeUpToDate read.requiresUpToDate with
            | true => simp [hmust, pure, Except.pure] at h
            | false => exact .inr rfl
        refine ⟨_, by rw [Landing.finds, hchecks, hbranch]; rfl, rfl, rfl, hthrough, rfl, ?_⟩
        rcases hcarried with hcarries | hmust
        · exact .inl (by rw [hcarries])
        · exact .inr hmust
    · simp [hthrough, pure, Except.pure] at h

/-- A wait that elapsed asks for a merge only unarmed, with no check skipped, where the host
allows it. -/
theorem armOnElapse_asked {taught : Bool} {watcher : Watcher} {answers : ElapseAnswers}
    (h : (armOnElapse taught watcher answers).1 = true) :
    watcher.skippedAtElapse = [] ∧ watcher.armed = false ∧
      answers.allowsAutoMerge = .ok true := by
  revert h
  fun_cases armOnElapse taught watcher answers <;> intro h <;> simp_all

theorem elapses_sound {answers : ElapseAnswers} (hsound : s.Sound publication)
    (hstage : s.stage = .elapsing) : (s.elapses publication.taught answers).Sound publication := by
  have hholds := hsound.stage
  rw [StageHolds, hstage] at hholds
  obtain ⟨hturn, helapsed, hwaited⟩ := hholds
  unfold Landing.elapses
  split
  · exact hsound.ends _
  · rename_i ending harm
    obtain ⟨hskipped, harmed, hallows⟩ := armOnElapse_asked (by rw [harm])
    refine ⟨⟨fun ask hask => ?_, fun _ => rfl⟩, ?_, trivial⟩
    · rcases List.mem_append.mp hask with hask | hask
      · exact hsound.merges.1 ask hask
      · obtain rfl := List.mem_singleton.mp hask
        refine ⟨hturn, ?_, .inr ⟨_, rfl, helapsed, ?_, hwaited harmed hskipped⟩⟩
        · cases hdraft : s.draft with
          | false => rfl
          | true => rw [hsound.taught hdraft]; rfl
        · rw [hallows]
    · exact fun h => hsound.taught (Bool.and_eq_true_iff.mp h).1

theorem again_sound {moved : Moved} {answers : Resync} {pushed : Text}
    (hsound : s.Sound publication) (hdraft : s.draft = false)
    (h : Publish.resync publication.resumed s.watcher.pushed moved answers = .ok pushed) :
    (s.again publication moved pushed).Sound publication := by
  refine ⟨⟨hsound.merges.1, fun harmed => ?_⟩, hsound.taught, hdraft, rfl⟩
  obtain ⟨hbefore, hmoved⟩ := Bool.and_eq_true_iff.mp harmed
  rw [beq_iff_eq] at hmoved
  rw [hmoved] at h
  rw [← Except.ok.inj h]
  exact hsound.merges.2 hbefore

theorem taught_of_awaitAsDraft {taught : Bool} {answers : LiftAnswers}
    (h : awaitAsDraft taught answers = .ok true) : taught = true := by
  cases taught with
  | true => rfl
  | false => cases h

theorem takes_sound {stage : Stage} {answer : Except Refusal Unit} (hsound : s.Sound publication)
    (hstage : (s.takes stage (.ok ())).StageHolds) :
    (s.takes stage answer).Sound publication := by
  cases answer with
  | error refusal => exact hsound.ends _
  | ok taken => exact ⟨hsound.merges, hsound.taught, hstage⟩

theorem mergesDirectly_sound {outcome : Except HostError MergeOutcome}
    (hsound : s.Sound publication) (hstage : s.stage = .merging) :
    ((s.asking none).mergesDirectly outcome).Sound publication := by
  have hholds := hsound.stage
  rw [StageHolds, hstage] at hholds
  obtain ⟨hdraft, -, hturn, hverified⟩ := hholds
  have hsettled := asking_settled hsound.merges hdraft hturn hverified
  fun_cases Landing.mergesDirectly (s.asking none) outcome <;>
    exact ⟨⟨hsettled, hsound.merges.2⟩, hsound.taught, trivial⟩

theorem Sound.step (hsound : s.Sound publication) (hsees : s.SeesReds event)
    (hstep : s.step publication event = some next) : next.Sound publication := by
  have hholds := hsound.stage
  revert hstep
  fun_cases Landing.step publication s event <;> intro hstep
  case case23 => cases hstep
  all_goals obtain rfl := Option.some.inj hstep
  -- The change is opened.
  case case1 => exact hsound.ends _
  case case2 hstage _ hdraft =>
    rw [StageHolds, hstage] at hholds
    exact ⟨hsound.merges, fun _ => taught_of_awaitAsDraft hdraft, hholds.2⟩
  case case3 hstage _ _ =>
    rw [StageHolds, hstage] at hholds
    exact ⟨hsound.merges, hsound.taught, hholds⟩
  case case4 => exact hsound.ends _
  case case5 hstage _ _ _ _ =>
    rw [StageHolds, hstage] at hholds
    exact ⟨hsound.merges, hsound.taught, hholds⟩
  case case6 hstage _ _ =>
    rw [StageHolds, hstage] at hholds
    exact ⟨hsound.merges, hsound.taught, hholds⟩
  -- Its checks settle.
  case case7 hstage _ => exact settlesOn_sound hsound hstage hsees
  case case8 => exact hsound.ends _
  case case9 hstage =>
    rw [StageHolds, hstage] at hholds
    exact ⟨hsound.merges, nofun, rfl, hholds⟩
  case case10 hstage =>
    rw [StageHolds, hstage] at hholds
    exact takes_sound hsound ⟨hholds.1, hholds.2, rfl⟩
  case case11 hstage =>
    rw [StageHolds, hstage] at hholds
    exact takes_sound hsound ⟨rfl, hholds⟩
  -- Under the turn.
  case case12 => exact ⟨hsound.merges, hsound.taught, trivial⟩
  case case13 hstage _ _ _ =>
    rw [StageHolds, hstage] at hholds
    exact ⟨hsound.merges, hsound.taught, hholds.1⟩
  case case14 hstage _ hnone =>
    rw [StageHolds, hstage] at hholds
    obtain ⟨hdraft, helapsed, hturn⟩ := hholds
    exact ⟨hsound.merges, hsound.taught, hdraft, helapsed, hturn, finds_of_reverify hnone⟩
  case case15 hstage _ _ => exact awaitsOn_sound hsound hstage
  case case16 hstage _ => exact mergesDirectly_sound hsound hstage
  case case17 hstage => exact elapses_sound hsound hstage
  -- The turn is let go.
  case case18 => exact hsound.ends _
  case case19 hstage _ _ =>
    rw [StageHolds, hstage] at hholds
    exact ⟨hsound.merges, hsound.taught, hholds⟩
  case case20 hstage _ =>
    rw [StageHolds, hstage] at hholds
    exact ⟨hsound.merges, hsound.taught, hholds⟩
  case case21 => exact hsound.ends _
  case case22 hstage _ hpushed =>
    rw [StageHolds, hstage] at hholds
    exact again_sound hsound hholds hpushed

end Landing

/-- Every merge a landing asks for is asked for under its turn, of a change that is no draft
any more, on what settled, and a merge is taken for armed only on the head it was armed on, in
every run where a watch that runs out of time after an early lift sees each red check as
required. -/
theorem merges_what_settled {publication : Publication} {s : Landing}
    (h : (landing publication).ReachableBy Landing.SeesReds s) : s.MergesWhatSettled :=
  (h.invariant
    (fun _ hstart => hstart ▸ Landing.start_sound publication)
    (fun _ _ _ hsound hsees hstep => hsound.step hsees hstep)).merges

namespace Landing

instance : DecidablePred Found.Holds := fun _ => inferInstanceAs (Decidable (_ ∧ _ ∧ (_ ∨ _)))

instance : DecidablePred NoneRedOrSkipped := fun required =>
  inferInstanceAs (Decidable (∀ standing ∈ required, _ ∧ _))

instance : DecidablePred Elapse.Holds := fun _ => inferInstanceAs (Decidable (_ ∧ _ ∧ _))

instance : DecidablePred Ask.Settled := fun _ => inferInstanceAs (Decidable (_ ∧ _ ∧ (_ ∨ _)))

instance : DecidablePred MergesWhatSettled := fun _ => inferInstanceAs (Decidable (_ ∧ (_ → _)))

/-- A change opened as a draft awaiting its checks, under `change-auto`. -/
def drafted : Publication where
  base := []
  pushed := []
  effective := .changeAuto
  taught := true
  lifecycle := true
  adopted := false
  resumed := false

/-- A run that no required marking is on. -/
def unmarkedRun (name conclusion startedAt : String) : Check :=
  { completedRun name conclusion startedAt with required := false }

/-- A run of a required check that has not completed. -/
def pendingRun (name startedAt : String) : Check :=
  { completedRun name "" startedAt with status := "in_progress".toList, conclusion := none }

/-- What a host answers that has lifted the draft and allows auto-merge. -/
def allowing : ElapseAnswers where
  allowsAutoMerge := .ok true
  lift := ⟨.ok false, .ok ()⟩
  merge := .ok .queued

/-- After an early lift a check fails in a run that is not marked required, its marked run
being the draft's skip, and the wait elapses on another. -/
def failsUnmarked : List Event :=
  [.opened ⟨.ok true, .ok ()⟩,
    .look (markedLook [completedRun "lint" "skipped" "1", completedRun "test" "skipped" "1"]),
    .look
      { markedLook [completedRun "lint" "skipped" "1", unmarkedRun "lint" "failure" "2",
          pendingRun "test" "2"] with outOfTime := true },
    .turn (.ok ()), .elapse allowing]

/-- A ready change whose check passes, merged by the host under the turn. -/
def passes : List Event :=
  let green := markedLook [completedRun "test" "success" "1"]
  [.opened ⟨.ok false, .ok ()⟩, .look green, .turn (.ok ()),
    .reverify ⟨green, .ok (.isAt []), .ok (.isAt []), .ok true, .ok true⟩,
    .look { green with merge := .ok .queued, mergedAt := .ok (some []) }]

theorem failsUnmarked_runs :
    ((landing drafted).run (start drafted) failsUnmarked).isSome = true := by
  rfl

theorem passes_runs : ((landing drafted).run (start drafted) passes).isSome = true := by
  rfl

theorem seesReds_of_inTime {s : Landing} {look : Look} (h : look.outOfTime = false) :
    s.SeesReds (.look look) := by
  unfold SeesReds
  split
  · rename_i heq
    cases heq
    exact fun hout => nomatch h.symm.trans hout
  · trivial

theorem passes_sees : ∀ event ∈ passes, ∀ s : Landing, s.SeesReds event := by
  intro event hevent s
  simp only [passes, List.mem_cons, List.not_mem_nil, or_false] at hevent
  obtain rfl | rfl | rfl | rfl | rfl := hevent
  case inr.inl => exact seesReds_of_inTime rfl
  case inr.inr.inr.inr => exact seesReds_of_inTime rfl
  all_goals
    unfold SeesReds
    split
    · rename_i heq
      cases heq
    · trivial

end Landing

/-- A change whose checks pass is merged, on what settled. -/
theorem merges_what_settled_green :
    (((landing Landing.drafted).run (.start Landing.drafted) Landing.passes).get
        Landing.passes_runs).asks.length = 1 ∧
      (((landing Landing.drafted).run (.start Landing.drafted) Landing.passes).get
        Landing.passes_runs).MergesWhatSettled :=
  ⟨by decide +kernel, merges_what_settled (System.reachableBy_of_run rfl
    (System.runMeets_of_forall Landing.passes_sees _)
    (Option.some_get Landing.passes_runs).symm)⟩

/-- A required check concluded red in the last reading, and the host's merge is armed. -/
theorem red_check_armed :
    ¬ ∀ s, (landing Landing.drafted).Reachable s → s.MergesWhatSettled := by
  intro h
  have hmerges := h _ (System.reachable_of_run rfl (Option.some_get Landing.failsUnmarked_runs).symm)
  revert hmerges
  decide +kernel

end Onevcs.Publish
