import Onevcs.Publish.Double
import Onevcs.Publish.DraftSkips

/-!
# The testing provider's watch ends as the polled one does

What the testing provider reads off one reading of the host for each phase is what the polled
watch comes to over a host that stands still. Both decide by the same standings, so the testing
provider's functions are first said in the polled watch's own words. A turn of the polled watch
then either goes on, unchanged in all a later turn reads, or ends as the testing provider does.

The polled watch reads its clock at intervals. It agrees with the testing provider where no
reading after an early lift finds the whole wait over before the grace window of the lift is.
-/

namespace Onevcs.Publish

open Foundations (Text)

/-- Two declarations that differ at most in how the host's refusal is said. -/
def Declared.Alike (declared other : Declared) : Prop :=
  declared = other ∨ declared.isUnknown = true ∧ other.isUnknown = true

section Alike

variable {declared other : Declared} {checks : List Check}

theorem Declared.Alike.isUnknown_eq (h : declared.Alike other) :
    other.isUnknown = declared.isUnknown := by
  rcases h with rfl | ⟨hleft, hright⟩
  · rfl
  · rw [hleft, hright]

theorem Declared.Alike.nothing_iff (h : declared.Alike other) :
    other = .nothing ↔ declared = .nothing := by
  rcases h with rfl | ⟨hleft, hright⟩
  · rfl
  · constructor
    · rintro rfl
      cases hright
    · rintro rfl
      cases hleft

theorem Declared.Alike.requiredNames_eq (h : declared.Alike other) :
    requiredNames checks other = requiredNames checks declared := by
  rcases h with rfl | ⟨hleft, hright⟩
  · rfl
  · cases declared <;> cases hleft
    cases other <;> cases hright
    rfl

theorem declaredRequired_alike (base : Text) (answer : Except HostError RequiredChecks) :
    (declaredRequired base answer).Alike (Double.declaredRequired base answer) := by
  cases answer with
  | error refused => exact .inl rfl
  | ok answer =>
    simp only [declaredRequired, Double.declaredRequired]
    split
    · exact .inl rfl
    · split
      · exact .inl rfl
      · exact .inr ⟨rfl, rfl⟩

theorem sharpened_alike (h : declared.Alike other) (complete : Bool) :
    (declared.sharpened checks complete).Alike (Double.given other complete checks) := by
  have hsame : Double.given declared complete checks = declared.sharpened checks complete := by
    cases declared <;> simp [Double.given, Declared.sharpened, Declared.isUnknown, and_assoc]
  rcases h with rfl | ⟨hleft, hright⟩
  · exact .inl hsame.symm
  · rw [← hsame, Double.given, Double.given, hleft, hright]
    split
    · exact .inl rfl
    · exact .inr ⟨hleft, hright⟩

end Alike

/-! ## The testing provider's standings -/

theorem rank_injective {left right : CheckState} (h : left.rank = right.rank) :
    left = right := by
  cases left <;> cases right <;> first | rfl | cases h

theorem Double.stateOf_eq (checks : List Check) (name : Text) :
    Double.stateOf checks name = (decided checks name).map Check.state := by
  rw [Double.stateOf, decided]
  generalize checks.filter (fun check => check.name == name) = entries
  cases hleast : entries.argmin fun check => check.state.rank with
  | none =>
    rw [List.argmin_eq_none] at hleast
    rw [hleast]
    rfl
  | some check =>
    have hmem : check ∈ entries := List.argmin_mem hleast
    cases hstate : (entries.map Check.state).argmin CheckState.rank with
    | none =>
      rw [List.argmin_eq_none, List.map_eq_nil_iff] at hstate
      rw [hstate] at hmem
      cases hmem
    | some state =>
      obtain ⟨other, hother, rfl⟩ := List.mem_map.mp (List.argmin_mem hstate)
      have hfirst : other.state.rank ≤ check.state.rank :=
        List.le_of_mem_argmin (f := CheckState.rank) (List.mem_map_of_mem hmem) hstate
      have hsecond : check.state.rank ≤ other.state.rank :=
        List.le_of_mem_argmin (f := fun check : Check => check.state.rank) hother hleast
      rw [Option.map_some, rank_injective (Nat.le_antisymm hfirst hsecond)]

/-- A required check's name and state, as the testing provider carries them. -/
def Standing.entry (standing : Standing) : Text × Option CheckState :=
  (standing.name, standing.state)

theorem Double.standings_eq {declared other : Declared} (h : declared.Alike other)
    (checks : List Check) :
    Double.standings checks other =
      (Publish.standings checks declared).map Standing.entry := by
  rw [Double.standings, h.requiredNames_eq, Publish.standings, List.map_map]
  exact List.map_congr_left fun name _ => congrArg (Prod.mk name) (Double.stateOf_eq checks name)

section Standings

variable {declared other : Declared}

theorem Double.skipped_eq (standing : List Standing) :
    Double.skipped (standing.map Standing.entry) = skippedIn standing := by
  simp only [Double.skipped, skippedIn, List.filter_map, List.map_map]
  rfl

theorem Double.through_eq (h : declared.Alike other) (standing : List Standing) :
    Double.through (standing.map Standing.entry) other = letsThrough standing declared := by
  have hnothing : (other == .nothing) = (declared == .nothing) := by
    rw [Bool.eq_iff_iff, beq_iff_eq, beq_iff_eq]
    exact h.nothing_iff
  simp only [Double.through, letsThrough, hnothing, List.isEmpty_map, List.all_map]
  rfl

/-- A required check that concluded red has an entry that did, and the name of the first is
the name the watch refuses. -/
theorem Double.red_eq (checks : List Check) (declared : Declared) :
    Double.red checks ((Publish.standings checks declared).map Standing.entry) =
      (Publish.red (Publish.standings checks declared)).map Check.name := by
  rw [Double.red, Publish.red, List.find?_map]
  have hsame : ((fun entry : Text × Option CheckState => entry.2 == some .failed) ∘
      Standing.entry) = fun standing => standing.state == some .failed := rfl
  rw [hsame]
  cases hfind : (Publish.standings checks declared).find?
      fun standing => standing.state == some .failed with
  | none => rfl
  | some standing =>
    have hmem := List.mem_of_find?_eq_some hfind
    have hfailed := List.find?_some hfind
    rw [beq_iff_eq] at hfailed
    obtain ⟨-, hcheck, hstate⟩ := mem_standings.mp hmem
    rw [hstate, Option.map_eq_some_iff] at hfailed
    obtain ⟨check, hdecided, hred⟩ := hfailed
    obtain ⟨hentry, hname⟩ := decided_mem hdecided
    obtain ⟨first, hfirst⟩ : ∃ first, checks.find? (fun check =>
        check.name == standing.name && check.state == .failed) = some first := by
      rw [← Option.isSome_iff_exists, List.find?_isSome]
      exact ⟨check, hentry, by simp [hname, hred]⟩
    have hfound := List.find?_some hfirst
    simp only [Bool.and_eq_true, beq_iff_eq] at hfound
    simp [Standing.entry, hcheck, hdecided, hfirst, hname, hfound.1]

theorem Double.named_eq : Double.named = pushNew := by
  funext names more
  rw [Double.named, pushNew]
  congr 1
  funext names name
  cases names.contains name <;> rfl

end Standings

section Closed

variable {base pushed : Text} {host : StillHost} {answered : ChangeChecks}

/-- What the host declares, sharpened by the one reading of the phase. -/
def StillHost.declared (host : StillHost) (base : Text) (answered : ChangeChecks) : Declared :=
  (declaredRequired base host.before.requiredChecks).sharpened answered.checks answered.complete

theorem StillHost.declared_alike (host : StillHost) (base : Text) (answered : ChangeChecks) :
    (host.declared base answered).Alike
      (Double.given (Double.declaredRequired base host.before.requiredChecks)
        answered.complete answered.checks) :=
  sharpened_alike (declaredRequired_alike base _) _

theorem Double.watchReady_eq (h : host.before.checks = .ok answered) :
    Double.watchReady base host =
      let declared := host.declared base answered
      let standing := Publish.standings answered.checks declared
      match Publish.red standing with
      | some failed => ⟨[], .red failed.name⟩
      | none =>
        if letsThrough standing declared then
          ⟨[recordSettled (skippedIn standing) declared.isUnknown], .greenReady⟩
        else ⟨[], .elapsed (skippedIn standing)⟩ := by
  have halike := host.declared_alike base answered
  simp only [Double.watchReady, h, Double.standings_eq halike, Double.red_eq,
    Double.skipped_eq, Double.through_eq halike, halike.isUnknown_eq]
  cases Publish.red (Publish.standings answered.checks (host.declared base answered)) with
  | some failed => rfl
  | none =>
    cases letsThrough (Publish.standings answered.checks (host.declared base answered))
      (host.declared base answered) <;> rfl

theorem Double.watchLifted_eq {declared other : Declared} (halike : declared.Alike other)
    {snapshot : List Check} {emissions : List Emission}
    (h : host.after.checks = .ok answered) :
    Double.watchLifted pushed host other snapshot emissions =
      let standing := Publish.standings (counted answered.checks snapshot) declared
      let skipped :=
        pushNew (skippedIn standing) (skippedIn (Publish.standings answered.checks declared))
      match Publish.red standing with
      | some failed => ⟨emissions, .red failed.name⟩
      | none =>
        if rerun answered.checks snapshot standing && standing.all Standing.through then
          ⟨emissions ++ [recordSettled (skippedIn standing) declared.isUnknown], .greenReady⟩
        else if !rerun answered.checks snapshot standing &&
            !Double.stillRunning pushed host.after answered.checks then
          ⟨emissions, .didNotRerun⟩
        else ⟨emissions, .elapsed skipped⟩ := by
  simp only [Double.watchLifted, h, Double.standings_eq halike, Double.red_eq,
    Double.skipped_eq, Double.named_eq, halike.isUnknown_eq]
  have hrerun : (answered.checks.any fun check => ranAfterTheLift check snapshot &&
      (((Publish.standings (counted answered.checks snapshot) declared).map
          Standing.entry).isEmpty ||
        ((Publish.standings (counted answered.checks snapshot) declared).map
          Standing.entry).any fun entry => entry.1 == check.name)) =
      rerun answered.checks snapshot
        (Publish.standings (counted answered.checks snapshot) declared) := by
    simp only [rerun, List.isEmpty_map, List.any_map]
    rfl
  have hthrough : ((Publish.standings (counted answered.checks snapshot) declared).map
      Standing.entry).all Double.holdsNothing =
      (Publish.standings (counted answered.checks snapshot) declared).all Standing.through := by
    rw [List.all_map]
    rfl
  rw [hrerun, hthrough]
  cases Publish.red (Publish.standings (counted answered.checks snapshot) declared) with
  | some failed => rfl
  | none =>
    cases rerun answered.checks snapshot
        (Publish.standings (counted answered.checks snapshot) declared) <;>
      cases (Publish.standings (counted answered.checks snapshot) declared).all
          Standing.through <;>
        cases Double.stillRunning pushed host.after answered.checks <;> rfl

theorem Double.watchDraft_eq (base pushed : Text) (h : host.before.checks = .ok answered) :
    ∃ other, (host.declared base answered).Alike other ∧
      Double.watchDraft base pushed host =
        let checks := answered.checks
        let declared := host.declared base answered
        let standing := Publish.standings checks declared
        if declared = .nothing then ⟨[recordSettled [] false], .greenOnTheDraft⟩
        else
          match Publish.red standing with
          | some failed => ⟨[], .red failed.name⟩
          | none =>
            if allPassed standing || unseen declared standing && ranUnskipped checks then
              ⟨[recordSettled [] declared.isUnknown], .greenOnTheDraft⟩
            else if !anyRunning standing &&
                (!(notRun standing).isEmpty || unseen declared standing) &&
                !Double.stillRunning pushed host.before checks then
              match host.readyForReview with
              | .error error => ⟨[], .host error⟩
              | .ok () =>
                Double.watchLifted pushed host other checks
                  [.draftLifted, .draftLiftedEarly (notRun standing)]
            else ⟨[], .elapsed (skippedIn standing)⟩ := by
  have halike := host.declared_alike base answered
  refine ⟨_, halike, ?_⟩
  simp only [Double.watchDraft, h, Double.standings_eq halike, Double.red_eq,
    Double.skipped_eq, halike.isUnknown_eq, halike.nothing_iff]
  generalize host.declared base answered = declared
  generalize Publish.standings answered.checks declared = standing
  have hpassed : (!(standing.map Standing.entry).isEmpty &&
      (standing.map Standing.entry).all fun entry => entry.2 == some .passed) =
      allPassed standing := by
    rw [allPassed, List.isEmpty_map, List.all_map]
    rfl
  have hnotRun : ((standing.map Standing.entry).filter fun entry =>
      entry.2 == none || entry.2 == some .skipped).map Prod.fst = notRun standing := by
    simp only [notRun, List.filter_map, List.map_map]
    rfl
  have hrunning : ((standing.map Standing.entry).any fun entry =>
      entry.2 == some .pending || entry.2 == some .noVerdict) = anyRunning standing := by
    rw [anyRunning, List.any_map]
    rfl
  have hunseen : (declared.isUnknown && (standing.map Standing.entry).isEmpty) =
      unseen declared standing := by
    rw [unseen, List.isEmpty_map]
  have hunskipped : (unseen declared standing && !answered.checks.isEmpty &&
      answered.checks.all fun check => check.state != .skipped) =
      (unseen declared standing && ranUnskipped answered.checks) := by
    rw [ranUnskipped, Bool.and_assoc]
  rw [hpassed, hnotRun, hrunning, hunseen, hunskipped]
  split
  · rfl
  cases Publish.red standing with
  | some failed => rfl
  | none =>
    cases allPassed standing <;> cases unseen declared standing <;>
      cases ranUnskipped answered.checks <;> cases anyRunning standing <;>
        cases (notRun standing).isEmpty <;>
          cases Double.stillRunning pushed host.before answered.checks <;> rfl

end Closed

/-! ## A turn of the polled watch

A turn over a host that stands still reads what every other turn of its phase reads. What a
later turn reads of the watch itself does not change: the pushed head, what the host declared,
and that an answer kept about work in progress is the answer the host would give again. -/

/-- The host's answer about work in progress on the pushed head, throughout a phase. -/
def Phase.busyOn (phase : Phase) (pushed : Text) : Bool :=
  match phase.headActivity with
  | .ok answer => answer.head == pushed && !answer.inProgress.isEmpty
  | .error _ => false

theorem Double.stillRunning_eq (pushed : Text) (phase : Phase) (checks : List Check) :
    Double.stillRunning pushed phase checks =
      (checks.any (fun check => !check.settled) || phase.busyOn pushed) := by
  cases hactivity : phase.headActivity <;>
    simp only [Double.stillRunning, Phase.busyOn, hactivity]

/-- A watch whose bound has not elapsed, that remembers nothing the phase would not answer. -/
structure Watcher.Steady (pushed : Text) (phase : Phase) (watcher : Watcher) : Prop where
  pushed_eq : watcher.pushed = pushed
  elapsed_eq : watcher.elapsed = false
  busy_imp : watcher.busy = true → phase.busyOn pushed = true

/-- A watch of a change into `base`, that asks what the host declares or remembers it. -/
structure Watcher.Declares (base : Text) (phase : Phase) (watcher : Watcher) : Prop where
  base_eq : watcher.base = base
  declaration_eq : ∀ declared, watcher.declaration = some declared →
    declared = declaredRequired base phase.requiredChecks

theorem Reported.of_about {answered : List Check} {pushed : Text}
    (h : ∀ check ∈ answered, isAbout check pushed = true) :
    Reported.of answered pushed = .about answered := by
  have hfilter : (answered.filter fun check => isAbout check pushed) = answered :=
    List.filter_eq_self.mpr h
  simp [Reported.of, hfilter]

section Turns

variable {timing : Timing} {host : StillHost} {phase : Phase} {base pushed : Text}
  {watcher : Watcher} {answered : ChangeChecks} {since turn : Nat}

theorem Watcher.Steady.read_eq (h : watcher.Steady pushed phase)
    (habout : phase.AboutPushed pushed) (hchecks : phase.checks = .ok answered) :
    watcher.read answered = ⟨.about answered.checks, answered.complete⟩ := by
  rw [Watcher.read, h.pushed_eq, Reported.of_about (habout answered hchecks)]

theorem Watcher.Steady.remembering (h : watcher.Steady pushed phase) (look : Look) :
    (watcher.remembering look).Steady pushed phase :=
  ⟨h.pushed_eq, h.elapsed_eq, h.busy_imp⟩

theorem Watcher.Steady.headBusy_eq (h : watcher.Steady pushed phase) {look : Look}
    (hlook : look.headActivity = phase.headActivity) :
    watcher.headBusy look = phase.busyOn pushed := by
  cases hactivity : phase.headActivity <;>
    simp only [Watcher.headBusy, Phase.busyOn, hlook, hactivity, h.pushed_eq]

theorem Watcher.Steady.stillRunning_eq (h : watcher.Steady pushed phase) {look : Look}
    (hlook : look.headActivity = phase.headActivity) (reading : Reading) :
    watcher.stillRunning look reading =
      Double.stillRunning pushed phase reading.reported.checks := by
  rw [Watcher.stillRunning, Watcher.knownRunning, h.headBusy_eq hlook, Double.stillRunning_eq]
  cases hbusy : watcher.busy with
  | false => simp
  | true => simp [h.busy_imp hbusy]

theorem Watcher.Steady.afterStillRunning (h : watcher.Steady pushed phase) {look : Look}
    (hlook : look.headActivity = phase.headActivity) (reading : Reading) :
    (watcher.afterStillRunning look reading).Steady pushed phase := by
  rw [Watcher.afterStillRunning]
  split
  · exact h
  · exact ⟨h.pushed_eq, h.elapsed_eq, fun hbusy => h.headBusy_eq hlook ▸ hbusy⟩

theorem Watcher.Steady.asked_idle (h : watcher.Steady pushed phase) {look : Look}
    {reading : Reading} (hidle : watcher.stillRunning look reading = false) (other : Phase) :
    (watcher.afterStillRunning look reading).Steady pushed other := by
  rw [Watcher.stillRunning, Bool.or_eq_false_iff] at hidle
  rw [Watcher.afterStillRunning, if_neg (by rw [hidle.1]; exact Bool.false_ne_true)]
  exact ⟨h.pushed_eq, h.elapsed_eq, fun hbusy => absurd (hidle.2.symm.trans hbusy) nofun⟩

theorem Watcher.Declares.declared_eq (h : watcher.Declares base phase) {look : Look}
    (hlook : look.requiredChecks = phase.requiredChecks) :
    watcher.declared look = declaredRequired base phase.requiredChecks := by
  rw [Watcher.declared, h.base_eq, hlook]
  cases hdeclaration : watcher.declaration with
  | none => rfl
  | some declared => exact h.declaration_eq declared hdeclaration

theorem Watcher.Declares.remembering (h : watcher.Declares base phase) {look : Look}
    (hlook : look.requiredChecks = phase.requiredChecks) :
    (watcher.remembering look).Declares base phase := by
  refine ⟨h.base_eq, fun declared hdeclared => ?_⟩
  rw [← Option.some.inj hdeclared]
  exact h.declared_eq hlook

theorem Watcher.Declares.afterStillRunning (h : watcher.Declares base phase) (look : Look)
    (reading : Reading) : (watcher.afterStillRunning look reading).Declares base phase := by
  rw [Watcher.afterStillRunning]
  split
  · exact h
  · exact ⟨h.base_eq, h.declaration_eq⟩

theorem Watcher.given_eq {look : Look} (hlook : look.requiredChecks = host.before.requiredChecks)
    (hsteady : watcher.Steady pushed host.before)
    (hdeclares : watcher.Declares base host.before)
    (habout : host.before.AboutPushed pushed) (hchecks : host.before.checks = .ok answered) :
    (watcher.declared look).given (watcher.read answered) = host.declared base answered := by
  rw [hdeclares.declared_eq hlook, hsteady.read_eq habout hchecks]
  rfl

theorem red_of_failed {standing : List Standing} {failed : Check}
    (h : red standing = some failed) (declared : Declared) :
    ∃ names, verdictOf standing declared = .failed names := by
  rw [red, Option.bind_eq_some_iff] at h
  obtain ⟨first, hfirst, -⟩ := h
  have hmem := List.mem_of_find?_eq_some hfirst
  have hfailed := List.find?_some hfirst
  have hsome : ((standing.filter fun standing => standing.state == some .failed).map
      Standing.name).isEmpty = false := by
    rw [List.isEmpty_eq_false_iff]
    exact List.ne_nil_of_mem (List.mem_map_of_mem (List.mem_filter.mpr ⟨hmem, hfailed⟩))
  exact ⟨_, by simp only [verdictOf, hsome]; rfl⟩

/-- Where no required check concluded red, the verdict is that of `lets_through`. -/
theorem verdictOf_of_red_none {checks : List Check} {declared : Declared}
    (h : red (standings checks declared) = none) :
    (letsThrough (standings checks declared) declared = true ∧
        ((verdictOf (standings checks declared) declared = .noneRequired) ∨
          (verdictOf (standings checks declared) declared = .passed) ∨
          ∃ names, verdictOf (standings checks declared) declared = .passedWithSkipped names)) ∨
      (letsThrough (standings checks declared) declared = false ∧
        ∃ names, verdictOf (standings checks declared) declared = .pending names) := by
  have hnone : (standings checks declared).filter
      (fun standing => standing.state == some .failed) = [] := by
    rw [List.filter_eq_nil_iff]
    intro standing hmem hfailed
    rw [red, Option.bind_eq_none_iff] at h
    cases hfind : (standings checks declared).find?
        fun standing => standing.state == some .failed with
    | none => exact List.find?_eq_none.mp hfind standing hmem hfailed
    | some first =>
      obtain ⟨-, hcheck, hstate⟩ := mem_standings.mp (List.mem_of_find?_eq_some hfind)
      have hfirst := List.find?_some hfind
      rw [hstate, ← hcheck, h first hfind] at hfirst
      cases hfirst
  simp only [verdictOf, hnone, List.map_nil, List.isEmpty_nil, Bool.not_true,
    Bool.false_eq_true, if_false]
  by_cases hnothing : declared = .nothing
  · subst hnothing
    exact .inl ⟨rfl, .inl rfl⟩
  · cases hthrough : letsThrough (standings checks declared) declared with
    | false => simp [hnothing]
    | true =>
      refine .inl ⟨rfl, ?_⟩
      cases (skippedIn (standings checks declared)).isEmpty <;> simp [hnothing]

/-- A turn goes on, or ends as another watch does, recording on top of `emissions` what that
one recorded. -/
def Turn.Follows (watched : Watched) (keeps : Watcher → Prop) (emissions : List Emission)
    (standing : List Standing) (declared : Declared) (turn : Turn) : Prop :=
  turn.after = .again ∧ keeps turn.watcher ∨
    turn.after ≠ .again ∧ turn.ended = some watched.ended ∧
      emissions ++ turn.records standing declared = watched.emissions

theorem Watcher.waits_follows {watched : Watched} {keeps : Watcher → Prop}
    {emissions : List Emission} {standing : List Standing} {declared : Declared}
    {skipped : List Text} (hkeeps : keeps watcher)
    (hlate : timing.outOfTime turn = true → watched = ⟨emissions, .elapsed skipped⟩) :
    (watcher.waits (timing.look host phase since turn) skipped).Follows watched keeps
      emissions standing declared := by
  cases htime : timing.outOfTime turn with
  | false => exact .inl (by simpa [Watcher.waits, Timing.look, htime] using hkeeps)
  | true =>
    rw [hlate htime]
    exact .inr (by simp [Watcher.waits, Timing.look, htime, Turn.ended, Turn.records])

theorem recordsOf_eq {sharpen : Reading → Declared} {declared : Declared}
    {kept : List Check → List Check} {taken : Turn} (hsteady : watcher.Steady pushed phase)
    (habout : phase.AboutPushed pushed) (hchecks : phase.checks = .ok answered)
    (hsharpen : sharpen (watcher.read answered) = declared) :
    Timing.recordsOf phase watcher sharpen kept taken =
      taken.records (standings (kept answered.checks) declared) declared := by
  simp only [Timing.recordsOf, hchecks]
  rw [hsharpen, hsteady.read_eq habout hchecks]
  rfl

variable (timing turn) in
/-- One turn of `settle_ready` goes on as it was, or ends as the testing provider's watch. -/
theorem readyTurn_follows (hsteady : watcher.Steady pushed host.before)
    (hdeclares : watcher.Declares base host.before) (habout : host.before.AboutPushed pushed)
    (hchecks : host.before.checks = .ok answered) :
    (timing.readyTurn host turn watcher).Follows (Double.watchReady base host)
      (fun kept => kept.Steady pushed host.before ∧ kept.Declares base host.before) []
      (standings answered.checks (host.declared base answered))
      (host.declared base answered) := by
  let look := timing.look host host.before timing.started turn
  have hlook : look.checks = .ok answered := hchecks
  have hrequired : look.requiredChecks = host.before.requiredChecks := rfl
  have hgiven := Watcher.given_eq hrequired hsteady hdeclares habout hchecks
  have hkept := hsteady.remembering look
  have hread := hkept.read_eq habout hchecks
  have hkeeps := And.intro hkept (hdeclares.remembering hrequired)
  rw [hsteady.read_eq habout hchecks] at hgiven
  rw [Timing.readyTurn]
  change (settleReady watcher look).Follows _ _ _ _ _
  simp only [settleReady, hlook, hread, hgiven, Reported.checks, Double.watchReady_eq hchecks]
  generalize host.declared base answered = declared
  cases hred : red (standings answered.checks declared) with
  | some failed =>
    obtain ⟨names, hverdict⟩ := red_of_failed hred declared
    rw [hverdict]
    exact .inr ⟨by rintro ⟨⟩, rfl, rfl⟩
  | none =>
    rcases verdictOf_of_red_none hred with
      ⟨hthrough, hverdict | hverdict | ⟨names, hverdict⟩⟩ | ⟨hthrough, names, hverdict⟩ <;>
      simp only [hverdict, hthrough, if_true, Bool.false_eq_true, if_false]
    · exact .inr ⟨by rintro ⟨⟩, rfl, rfl⟩
    · exact .inr ⟨by rintro ⟨⟩, rfl, rfl⟩
    · exact .inr ⟨by rintro ⟨⟩, rfl, rfl⟩
    · exact Watcher.waits_follows hkeeps fun _ => rfl

variable (timing turn) in
/-- One turn of `settle_after_early_lift` goes on as it was, or ends as the testing provider's
watch, where the lift's own grace window is over once the wait is. -/
theorem liftedTurn_follows {declared other : Declared} {snapshot : List Check}
    {emissions : List Emission} (hsteady : watcher.Steady pushed host.after)
    (habout : host.after.AboutPushed pushed) (hchecks : host.after.checks = .ok answered)
    (halike : declared.Alike other)
    (hwindow : timing.outOfTime turn = true → timing.graceOver since turn = true) :
    (timing.liftedTurn host since declared snapshot turn watcher).Follows
      (Double.watchLifted pushed host other snapshot emissions)
      (Watcher.Steady pushed host.after) emissions
      (standings (counted answered.checks snapshot) declared) declared := by
  let look := timing.look host host.after since turn
  have hlook : look.checks = .ok answered := hchecks
  have hhead : look.headActivity = host.after.headActivity := rfl
  have hgrace : look.graceElapsed = timing.graceOver since turn := rfl
  have hasked := hsteady.afterStillRunning hhead ⟨.about answered.checks, answered.complete⟩
  rw [Timing.liftedTurn]
  change (settleAfterEarlyLift watcher declared snapshot look).Follows _ _ _ _ _
  simp only [settleAfterEarlyLift, hlook, hsteady.read_eq habout hchecks,
    hsteady.stillRunning_eq hhead, hgrace, Reported.checks, Double.watchLifted_eq halike hchecks]
  generalize standings (counted answered.checks snapshot) declared = standing
  cases red standing with
  | some failed => exact .inr ⟨by rintro ⟨⟩, rfl, List.append_nil emissions⟩
  | none =>
    cases hlifts : rerun answered.checks snapshot standing &&
        standing.all Standing.through with
    | true => exact .inr ⟨by rintro ⟨⟩, rfl, rfl⟩
    | false =>
      simp only [Bool.false_eq_true, if_false]
      cases rerun answered.checks snapshot standing with
      | true => exact Watcher.waits_follows hsteady fun _ => rfl
      | false =>
        cases hover : timing.graceOver since turn with
        | false =>
          exact Watcher.waits_follows hsteady fun hlate =>
            absurd ((hwindow hlate).symm.trans hover) (by rintro ⟨⟩)
        | true =>
          cases Double.stillRunning pushed host.after answered.checks with
          | true => exact Watcher.waits_follows hasked fun _ => rfl
          | false =>
            refine .inr ⟨by rintro ⟨⟩, ?_, List.append_nil emissions⟩
            simp [Turn.ended, hasked.elapsed_eq]

/-- A reading of a draft leaves nothing to wait for but the lift. -/
def liftable (declared : Declared) (standing : List Standing) (checks : List Check)
    (running : Bool) : Bool :=
  declared != .nothing && (red standing).isNone && !allPassed standing &&
    !(unseen declared standing && ranUnskipped checks) &&
    (!anyRunning standing && (!(notRun standing).isEmpty || unseen declared standing) &&
      !running)

/-- The draft's one reading leaves nothing to wait for but the lift. -/
def StillHost.Lifts (host : StillHost) (base pushed : Text) (answered : ChangeChecks) : Bool :=
  liftable (host.declared base answered)
    (standings answered.checks (host.declared base answered)) answered.checks
    (Double.stillRunning pushed host.before answered.checks)

theorem skippedIn_of_allPassed {standing : List Standing} (h : allPassed standing = true) :
    skippedIn standing = [] := by
  rw [allPassed, Bool.and_eq_true, List.all_eq_true] at h
  rw [skippedIn, List.map_eq_nil_iff, List.filter_eq_nil_iff]
  intro required hmem hskipped
  rw [beq_iff_eq.mp (h.2 required hmem)] at hskipped
  cases hskipped

/-- What a later turn of `settle_draft` reads of the watch, and that no earlier turn waited out
the grace window of a draft there is nothing to wait for on. -/
structure Watcher.Waits (timing : Timing) (host : StillHost) (base pushed : Text)
    (answered : ChangeChecks) (turn : Nat) (watcher : Watcher) : Prop where
  steady : watcher.Steady pushed host.before
  declares : watcher.Declares base host.before
  early : host.Lifts base pushed answered = true → ∀ earlier < turn,
    timing.graceOver timing.started earlier = false

variable (timing turn) in
/-- One turn of `settle_draft` goes on as it was, ends as the testing provider's watch, or
lifts the draft as the testing provider does. -/
theorem draftTurn_cases (hwaits : watcher.Waits timing host base pushed answered turn)
    (habout : host.before.AboutPushed pushed) (hchecks : host.before.checks = .ok answered)
    (hwindow : timing.outOfTime turn = true →
      timing.graceOver timing.started turn = true) :
    (timing.draftTurn host turn watcher).Follows (Double.watchDraft base pushed host)
        (Watcher.Waits timing host base pushed answered (turn + 1)) []
        (standings answered.checks (host.declared base answered))
        (host.declared base answered) ∨
      (timing.draftTurn host turn watcher).after =
          .liftedEarly (host.declared base answered) answered.checks ∧
        (timing.draftTurn host turn watcher).watcher.Steady pushed host.after ∧
        timing.graceOver timing.started turn = true ∧
        host.Lifts base pushed answered = true ∧
        ∃ other, (host.declared base answered).Alike other ∧
          Double.watchDraft base pushed host =
            Double.watchLifted pushed host other answered.checks
              [.draftLifted, .draftLiftedEarly
                (notRun (standings answered.checks (host.declared base answered)))] := by
  let look := timing.look host host.before timing.started turn
  have hlook : look.checks = .ok answered := hchecks
  have hrequired : look.requiredChecks = host.before.requiredChecks := rfl
  have hhead : look.headActivity = host.before.headActivity := rfl
  have hgrace : look.graceElapsed = timing.graceOver timing.started turn := rfl
  have hready : look.readyForReview = host.readyForReview := rfl
  have hgiven := Watcher.given_eq hrequired hwaits.steady hwaits.declares habout hchecks
  have hkept := hwaits.steady.remembering look
  have hdeclares := hwaits.declares.remembering hrequired
  rw [hwaits.steady.read_eq habout hchecks] at hgiven
  have hasked := hkept.afterStillRunning hhead ⟨.about answered.checks, answered.complete⟩
  have hdeclared := hdeclares.afterStillRunning look
    ⟨.about answered.checks, answered.complete⟩
  have hstillRunning := hkept.stillRunning_eq hhead
    ⟨.about answered.checks, answered.complete⟩
  have hlifts : host.Lifts base pushed answered = liftable (host.declared base answered)
      (standings answered.checks (host.declared base answered)) answered.checks
      (Double.stillRunning pushed host.before answered.checks) := rfl
  -- The draft waits on where its grace window is not over, or where there is nothing to lift for.
  have hwaiting (kept : Watcher) (hkept : kept.Steady pushed host.before)
      (hdeclares : kept.Declares base host.before)
      (hwhy : timing.graceOver timing.started turn = false ∨
        host.Lifts base pushed answered = false) :
      kept.Waits timing host base pushed answered (turn + 1) := by
    refine ⟨hkept, hdeclares, fun hlift earlier hearlier => ?_⟩
    rcases Nat.lt_succ_iff_lt_or_eq.mp hearlier with hbefore | rfl
    · exact hwaits.early hlift earlier hbefore
    · exact hwhy.resolve_right (by simp [hlift])
  obtain ⟨other, halike, hdouble⟩ := Double.watchDraft_eq base pushed hchecks
  rw [Timing.draftTurn]
  change (settleDraft watcher look).Follows _ _ _ _ _ ∨ (settleDraft watcher look).after = _ ∧
    (settleDraft watcher look).watcher.Steady _ _ ∧ _
  simp only [settleDraft, hlook, hkept.read_eq habout hchecks, hgiven, Reported.checks,
    hstillRunning, hgrace, hready]
  rw [hdouble, hlifts]
  rw [hlifts] at hwaiting
  generalize hdeclaring : host.declared base answered = declared at *
  by_cases hnothing : declared = .nothing
  · subst hnothing
    exact .inl (.inr ⟨by rintro ⟨⟩, rfl, rfl⟩)
  rw [if_neg hnothing, if_neg hnothing]
  rw [liftable, bne_iff_ne.mpr hnothing] at hwaiting ⊢
  generalize hstanding : standings answered.checks declared = standing at *
  cases hred : red standing with
  | some failed => exact .inl (.inr ⟨by rintro ⟨⟩, rfl, rfl⟩)
  | none =>
    rw [hred] at hwaiting
    cases hpassed : allPassed standing with
    | true =>
      refine .inl (.inr ⟨by rintro ⟨⟩, rfl, ?_⟩)
      simp [Turn.records, skippedIn_of_allPassed hpassed]
    | false =>
      rw [hpassed] at hwaiting
      simp only [Bool.false_eq_true, if_false, Bool.false_or, Bool.not_false, Bool.true_and,
        Option.isNone_none] at hwaiting ⊢
      have hunseen : unseen declared standing = true → skippedIn standing = [] := by
        intro hunseen
        rw [unseen, Bool.and_eq_true, List.isEmpty_iff] at hunseen
        rw [hunseen.2]
        rfl
      cases hover : timing.graceOver timing.started turn with
      | false =>
        simp only [Bool.and_false, Bool.false_and, Bool.false_eq_true, if_false]
        exact .inl (Watcher.waits_follows (hwaiting _ hkept hdeclares (.inl hover))
          fun hlate => absurd ((hwindow hlate).symm.trans hover) (by rintro ⟨⟩))
      | true =>
        simp only [Bool.and_true, Bool.true_and]
        cases hgreen : unseen declared standing && ranUnskipped answered.checks with
        | true =>
          rw [Bool.and_eq_true] at hgreen
          refine .inl (.inr ⟨by rintro ⟨⟩, rfl, ?_⟩)
          simp [Turn.records, hunseen hgreen.1]
        | false =>
          rw [hgreen] at hwaiting
          simp only [Bool.false_eq_true, if_false, Bool.not_false, Bool.true_and]
            at hwaiting ⊢
          cases hlift : !anyRunning standing &&
              (!(notRun standing).isEmpty || unseen declared standing) with
          | false =>
            rw [hlift] at hwaiting
            exact .inl (Watcher.waits_follows
              (hwaiting _ hkept hdeclares (.inr rfl)) fun _ => rfl)
          | true =>
            rw [hlift] at hwaiting
            cases hstill : Double.stillRunning pushed host.before answered.checks with
            | true =>
              rw [hstill] at hwaiting
              exact .inl (Watcher.waits_follows
                (hwaiting _ hasked hdeclared (.inr rfl)) fun _ => rfl)
            | false =>
              cases host.readyForReview with
              | error error => exact .inl (.inr ⟨by rintro ⟨⟩, rfl, rfl⟩)
              | ok done =>
                exact .inr ⟨rfl, hkept.asked_idle (hstillRunning.trans hstill) _, trivial, rfl, other, halike, rfl⟩

end Turns

section Loops

variable {turns : Nat → Watcher → Turn} {keeps : Nat → Watcher → Prop}

/-- What each turn that goes on keeps holds of the watch at the turn that leaves the loop. -/
theorem Watcher.loop_keeps
    (hkeeps : ∀ turn watcher, keeps turn watcher → (turns turn watcher).after = .again →
      keeps (turn + 1) (turns turn watcher).watcher) :
    ∀ (fuel start : Nat) (watcher : Watcher) (turn : Nat) (last : Watcher),
      keeps start watcher → Watcher.loop turns fuel start watcher = some (turn, last) →
        keeps turn last ∧ (turns turn last).after ≠ .again := by
  intro fuel
  induction fuel with
  | zero => nofun
  | succ fuel ih =>
    intro start watcher turn last hstart hloop
    rw [Watcher.loop] at hloop
    split at hloop
    · rename_i hagain
      exact ih _ _ _ _ (hkeeps start watcher hstart hagain) hloop
    · rename_i hleaves
      cases hloop
      exact ⟨hstart, hleaves⟩

theorem Watcher.loop_isSome {last : Nat}
    (hlast : ∀ watcher, (turns last watcher).after ≠ .again) :
    ∀ (fuel start : Nat) (watcher : Watcher), start ≤ last → last < start + fuel →
      (Watcher.loop turns fuel start watcher).isSome = true := by
  intro fuel
  induction fuel with
  | zero =>
    intro start watcher hle hlt
    exact absurd hle (Nat.not_le.mpr hlt)
  | succ fuel ih =>
    intro start watcher hle hlt
    rw [Watcher.loop]
    split
    · rename_i hagain
      have hne : start ≠ last := by
        rintro rfl
        exact hlast watcher hagain
      exact ih _ _ (by omega) (by omega)
    · rfl

theorem Watcher.loop_lt :
    ∀ (fuel start : Nat) (watcher : Watcher) (turn : Nat) (last : Watcher),
      Watcher.loop turns fuel start watcher = some (turn, last) → turn < start + fuel := by
  intro fuel
  induction fuel with
  | zero => nofun
  | succ fuel ih =>
    intro start watcher turn last hloop
    rw [Watcher.loop] at hloop
    split at hloop
    · have := ih _ _ _ _ hloop
      omega
    · cases hloop
      omega

end Loops

namespace Timing

variable {timing : Timing} {host : StillHost} {base pushed : Text}

theorem readAt_le (timing : Timing) (turn : Nat) :
    timing.readAt turn ≤ timing.readAt (turn + 1) :=
  (timing.forward turn).1.trans (timing.forward turn).2

theorem outOfTime_iff {turn : Nat} :
    timing.outOfTime turn = true ↔ timing.started + timing.wait ≤ timing.readAt turn :=
  decide_eq_true_iff

theorem graceOver_iff {since turn : Nat} :
    timing.graceOver since turn = true ↔ since + timing.grace ≤ timing.readAt turn :=
  decide_eq_true_iff

theorem outOfTime_succ {turn : Nat} (h : timing.outOfTime turn = true) :
    timing.outOfTime (turn + 1) = true := by
  rw [outOfTime_iff] at h ⊢
  exact h.trans (timing.readAt_le turn)

theorem graceOver_of_outOfTime (hwait : 2 * timing.grace < timing.wait) {turn : Nat}
    (h : timing.outOfTime turn = true) : timing.graceOver timing.started turn = true := by
  rw [outOfTime_iff] at h
  rw [graceOver_iff]
  omega

theorem waits_ne_again {watcher : Watcher} {phase : Phase} {since turn : Nat}
    {skipped : List Text} (h : timing.outOfTime turn = true) :
    (watcher.waits (timing.look host phase since turn) skipped).after ≠ .again := by
  simp [Watcher.waits, look, h]

theorem readyTurn_ne_again (host : StillHost) {turn : Nat} (h : timing.outOfTime turn = true)
    (watcher : Watcher) : (timing.readyTurn host turn watcher).after ≠ .again := by
  rw [readyTurn]
  fun_cases settleReady watcher (timing.look host host.before timing.started turn) <;>
    first | exact waits_ne_again h | nofun

theorem draftTurn_ne_again (host : StillHost) {turn : Nat} (h : timing.outOfTime turn = true)
    (watcher : Watcher) : (timing.draftTurn host turn watcher).after ≠ .again := by
  rw [draftTurn]
  fun_cases settleDraft watcher (timing.look host host.before timing.started turn) <;>
    first | exact waits_ne_again h | rintro ⟨⟩

theorem liftedTurn_ne_again {turn since : Nat} {declared : Declared} {snapshot : List Check}
    (h : timing.outOfTime turn = true) (watcher : Watcher) :
    (timing.liftedTurn host since declared snapshot turn watcher).after ≠ .again := by
  rw [liftedTurn]
  fun_cases settleAfterEarlyLift watcher declared snapshot
      (timing.look host host.after since turn) <;>
    first | exact waits_ne_again h | rintro ⟨⟩

theorem new_steady (base pushed : Text) (phase : Phase) :
    (Watcher.new base pushed).Steady pushed phase :=
  ⟨rfl, rfl, nofun⟩

theorem new_declares (base pushed : Text) (phase : Phase) :
    (Watcher.new base pushed).Declares base phase :=
  ⟨rfl, nofun⟩

/-- The watch of a ready change, once its loop is left, ended as the testing provider's. -/
theorem settlesReady_of_loop (habout : host.before.AboutPushed pushed) {fuel turn : Nat}
    {watcher : Watcher}
    (hloop : Watcher.loop (timing.readyTurn host) fuel 0 (.new base pushed) =
      some (turn, watcher)) :
    timing.settlesReady host base pushed fuel = some (Double.watchReady base host) := by
  cases hchecks : host.before.checks with
  | error error =>
    simp [settlesReady, hloop, readyTurn, settleReady, look, hchecks, Turn.ended, recordsOf,
      Double.watchReady]
  | ok answered =>
    let keeps (_ : Nat) (watcher : Watcher) : Prop :=
      watcher.Steady pushed host.before ∧ watcher.Declares base host.before
    have hkeeps (turn : Nat) (watcher : Watcher) (hkept : keeps turn watcher)
        (hagain : (timing.readyTurn host turn watcher).after = .again) :
        keeps (turn + 1) (timing.readyTurn host turn watcher).watcher := by
      rcases readyTurn_follows timing turn hkept.1 hkept.2 habout hchecks with hon | hoff
      · exact hon.2
      · exact absurd hagain hoff.1
    have hstart : keeps 0 (.new base pushed) :=
      ⟨new_steady base pushed _, new_declares base pushed _⟩
    obtain ⟨⟨hsteady, hdeclares⟩, hleaves⟩ :=
      Watcher.loop_keeps hkeeps fuel 0 _ turn watcher hstart hloop
    rcases readyTurn_follows timing turn hsteady hdeclares habout hchecks with
      hon | ⟨-, hended, hrecords⟩
    · exact absurd hon.1 hleaves
    have hgiven : (watcher.declared (timing.look host host.before timing.started turn)).given
        (watcher.read answered) = host.declared base answered :=
      Watcher.given_eq rfl hsteady hdeclares habout hchecks
    rw [List.nil_append] at hrecords
    simp only [settlesReady, hloop, Option.bind_eq_bind, Option.bind_some, hended,
      recordsOf_eq hsteady habout hchecks hgiven, id_eq, hrecords, Option.pure_def]

/-- The watch of a draft lifted early, once its loop is left, ended as the testing
provider's. -/
theorem settlesLifted_of_loop (habout : host.after.AboutPushed pushed)
    {declared other : Declared} (halike : declared.Alike other) {snapshot : List Check}
    {emissions : List Emission} {fuel lift turn : Nat} {start watcher : Watcher}
    (hstart : start.Steady pushed host.after)
    (hwindow : ∀ later, lift < later → timing.outOfTime later = true →
      timing.graceOver (timing.liftedAt lift) later = true)
    (hloop : Watcher.loop (timing.liftedTurn host (timing.liftedAt lift) declared snapshot)
      fuel (lift + 1) start = some (turn, watcher)) :
    timing.settlesLifted host fuel lift start declared snapshot emissions =
      some (Double.watchLifted pushed host other snapshot emissions) := by
  cases hchecks : host.after.checks with
  | error error =>
    simp [settlesLifted, hloop, liftedTurn, settleAfterEarlyLift, look, hchecks, Turn.ended,
      recordsOf, Double.watchLifted]
  | ok answered =>
    let keeps (turn : Nat) (watcher : Watcher) : Prop :=
      lift < turn ∧ watcher.Steady pushed host.after
    let liftedTurn := timing.liftedTurn host (timing.liftedAt lift) declared snapshot
    have hturn (turn : Nat) (watcher : Watcher) (hkept : keeps turn watcher) :
        (liftedTurn turn watcher).Follows
          (Double.watchLifted pushed host other snapshot emissions)
          (Watcher.Steady pushed host.after) emissions
          (standings (counted answered.checks snapshot) declared) declared :=
      liftedTurn_follows timing turn hkept.2 habout hchecks halike (hwindow turn hkept.1)
    have hkeeps (turn : Nat) (watcher : Watcher) (hkept : keeps turn watcher)
        (hagain : (liftedTurn turn watcher).after = .again) :
        keeps (turn + 1) (liftedTurn turn watcher).watcher := by
      rcases hturn turn watcher hkept with hon | hoff
      · exact ⟨hkept.1.trans (Nat.lt_succ_self turn), hon.2⟩
      · exact absurd hagain hoff.1
    obtain ⟨hkept, hleaves⟩ := Watcher.loop_keeps hkeeps fuel (lift + 1) start turn watcher
      ⟨Nat.lt_succ_self lift, hstart⟩ hloop
    rcases hturn turn watcher hkept with hon | ⟨-, hended, hrecords⟩
    · exact absurd hon.1 hleaves
    have hrecorded : recordsOf host.after watcher (fun _ => declared) (counted · snapshot)
        (liftedTurn turn watcher) =
        (liftedTurn turn watcher).records
          (standings (counted answered.checks snapshot) declared) declared :=
      recordsOf_eq hkept.2 habout hchecks rfl
    simp only [liftedTurn] at hended hrecords hrecorded
    simp only [settlesLifted, hloop, Option.bind_eq_bind, Option.bind_some, hended,
      hrecorded, hrecords, Option.pure_def]

/-- The watch of a draft, once its loops are left, ended as the testing provider's. -/
theorem settlesDraft_of_loop (hbefore : host.before.AboutPushed pushed)
    (hafter : host.after.AboutPushed pushed) (hwait : 2 * timing.grace < timing.wait)
    (hsecond : timing.LeavesSecondWindow) {fuel turn : Nat} {watcher : Watcher}
    (hloop : Watcher.loop (timing.draftTurn host) fuel 0 (.new base pushed) =
      some (turn, watcher)) :
    timing.settlesDraft host base pushed fuel = some (Double.watchDraft base pushed host) ∨
      timing.settlesDraft host base pushed fuel = none ∧
        ∃ declared snapshot, Watcher.loop
          (timing.liftedTurn host (timing.liftedAt turn) declared snapshot) fuel (turn + 1)
          (timing.draftTurn host turn watcher).watcher = none := by
  cases hchecks : host.before.checks with
  | error error =>
    simp [settlesDraft, hloop, draftTurn, settleDraft, look, hchecks, Turn.ended,
      recordsOf, Double.watchDraft]
  | ok answered =>
    let keeps := Watcher.Waits timing host base pushed answered
    have hkeeps (turn : Nat) (watcher : Watcher) (hkept : keeps turn watcher)
        (hagain : (timing.draftTurn host turn watcher).after = .again) :
        keeps (turn + 1) (timing.draftTurn host turn watcher).watcher := by
      rcases draftTurn_cases timing turn hkept hbefore hchecks
        (graceOver_of_outOfTime hwait) with (hon | hoff) | hlifts
      · exact hon.2
      · exact absurd hagain hoff.1
      · exact absurd (hagain.symm.trans hlifts.1) nofun
    have hstart : keeps 0 (.new base pushed) :=
      ⟨new_steady base pushed _, new_declares base pushed _, fun _ _ h => absurd h (by omega)⟩
    obtain ⟨hkept, hleaves⟩ := Watcher.loop_keeps hkeeps fuel 0 _ turn watcher hstart hloop
    have hgiven : (watcher.declared (timing.look host host.before timing.started turn)).given
        (watcher.read answered) = host.declared base answered :=
      Watcher.given_eq rfl hkept.steady hkept.declares hbefore hchecks
    have hrecorded : recordsOf host.before watcher
        (watcher.declared (timing.look host host.before timing.started turn)).given id
        (timing.draftTurn host turn watcher) =
        (timing.draftTurn host turn watcher).records
          (standings answered.checks (host.declared base answered))
          (host.declared base answered) :=
      recordsOf_eq hkept.steady hbefore hchecks hgiven
    simp only [settlesDraft, hloop, Option.bind_eq_bind, Option.bind_some, hrecorded]
    rcases draftTurn_cases timing turn hkept hbefore hchecks
      (graceOver_of_outOfTime hwait) with
      (hon | ⟨-, hended, hrecords⟩) |
        ⟨hlifted, hsteady, hover, hlifts, other, halike, hdouble⟩
    · exact absurd hon.1 hleaves
    · left
      rw [List.nil_append] at hrecords
      cases hends : (timing.draftTurn host turn watcher).after with
      | liftedEarly declared snapshot =>
        rw [Turn.ended, hends] at hended
        cases hended
      | again | settled | landed | resettle | refused =>
        simp only [hended, Option.bind_some, hrecords, Option.pure_def]
    · have hwindow := hsecond turn
      simp only [hlifted, Turn.records]
      cases hrest : Watcher.loop (timing.liftedTurn host (timing.liftedAt turn)
          (host.declared base answered) answered.checks) fuel (turn + 1)
          (timing.draftTurn host turn watcher).watcher with
      | none => exact .inr ⟨by simp [settlesLifted, hrest], _, _, hrest⟩
      | some ended =>
        left
        rw [hdouble]
        exact settlesLifted_of_loop hafter halike hsteady
          (fun later => hwindow later hover (hkept.early hlifts)) hrest

theorem settles_eq (hbefore : host.before.AboutPushed pushed)
    (hafter : host.after.AboutPushed pushed) (hwait : 2 * timing.grace < timing.wait)
    (hsecond : timing.LeavesSecondWindow) (drafted : Bool) {fuel : Nat} {watched : Watched}
    (h : timing.settles host base pushed drafted fuel = some watched) :
    watched = Double.watch base pushed drafted host := by
  rw [settles] at h
  cases drafted with
  | false =>
    cases hloop : Watcher.loop (timing.readyTurn host) fuel 0 (.new base pushed) with
    | none => simp [settlesReady, hloop] at h
    | some ended =>
      simp only [Bool.false_eq_true, if_false, settlesReady_of_loop hbefore hloop] at h
      exact (Option.some.inj h).symm
  | true =>
    cases hloop : Watcher.loop (timing.draftTurn host) fuel 0 (.new base pushed) with
    | none => simp [settlesDraft, hloop] at h
    | some ended =>
      rw [if_pos rfl] at h
      rcases settlesDraft_of_loop hbefore hafter hwait hsecond hloop with hends | ⟨hnone, -⟩
      · exact Option.some.inj (h.symm.trans hends)
      · exact absurd (h.symm.trans hnone) nofun

/-- The polled watch ends: its bound elapses at some turn, and no turn goes on then. -/
theorem exists_settles (timing : Timing) (hbefore : host.before.AboutPushed pushed)
    (hafter : host.after.AboutPushed pushed) (hwait : 2 * timing.grace < timing.wait)
    (hsecond : timing.LeavesSecondWindow) (drafted : Bool) :
    ∃ fuel, timing.settles host base pushed drafted fuel =
      some (Double.watch base pushed drafted host) := by
  obtain ⟨last, hinstant⟩ := timing.unbounded (timing.started + timing.wait)
  have hlast : timing.outOfTime last = true := outOfTime_iff.mpr hinstant
  refine ⟨last + 2, ?_⟩
  rw [settles]
  cases drafted with
  | false =>
    have hleft := Watcher.loop_isSome (readyTurn_ne_again host hlast) (last + 2) 0
      (.new base pushed) (Nat.zero_le last) (by omega)
    obtain ⟨⟨turn, watcher⟩, hloop⟩ := Option.isSome_iff_exists.mp hleft
    exact settlesReady_of_loop hbefore hloop
  | true =>
    have hleft := Watcher.loop_isSome (draftTurn_ne_again host hlast) (last + 2) 0
      (.new base pushed) (Nat.zero_le last) (by omega)
    obtain ⟨⟨turn, watcher⟩, hloop⟩ := Option.isSome_iff_exists.mp hleft
    rcases settlesDraft_of_loop hbefore hafter hwait hsecond hloop with
      hends | ⟨-, declared, snapshot, hnone⟩
    · exact hends
    -- The loop after the lift starts no later than the turn its own bound elapses by.
    · have hlt := Watcher.loop_lt (last + 2) 0 _ turn watcher hloop
      have hlater := outOfTime_succ (outOfTime_succ hlast)
      have hrest : (Watcher.loop (timing.liftedTurn host (timing.liftedAt turn) declared
          snapshot) (last + 2) (turn + 1)
          (timing.draftTurn host turn watcher).watcher).isSome = true :=
        Watcher.loop_isSome (liftedTurn_ne_again hlater) _ _ _ (by omega) (by omega)
      rw [hnone] at hrest
      cases hrest

end Timing

/-! ## The two watches -/

/-- Over a host whose checks, declaration and head activity are constant before the lift and
constant after it, with every check about the pushed head, the polled watch ends, and what it
records and how it ends are what the testing provider's watch records and how that one ends:
for a wait longer than two grace windows that no reading after an early lift finds over before
the lift's own grace window is. -/
theorem watches_alike (timing : Timing) (host : StillHost) (base pushed : Text) (drafted : Bool)
    (hbefore : host.before.AboutPushed pushed) (hafter : host.after.AboutPushed pushed)
    (hwait : 2 * timing.grace < timing.wait) (hsecond : timing.LeavesSecondWindow) :
    (∃ fuel, timing.settles host base pushed drafted fuel =
      some (Double.watch base pushed drafted host)) ∧
    ∀ fuel watched, timing.settles host base pushed drafted fuel = some watched →
      watched = Double.watch base pushed drafted host :=
  ⟨timing.exists_settles hbefore hafter hwait hsecond drafted,
    fun _ _ h => Timing.settles_eq hbefore hafter hwait hsecond drafted h⟩

/-- A check the host requires, as a workflow that skips drafts reports it. -/
def gateSkipped : Check where
  name := ['g']
  status := "completed".toList
  conclusion := some "skipped".toList
  required := true
  head := some ['h']
  startedAt := some ['0']

/-- The same check, as the run after the lift reports it. -/
def gatePassed : Check :=
  { gateSkipped with conclusion := some "success".toList, startedAt := some ['1'] }

/-- A phase in which the host requires the one check and reports it, with nothing going on at
the pushed head. -/
def gatePhase (check : Check) : Phase where
  requiredChecks := .ok ⟨[['g']], []⟩
  checks := .ok ⟨[check], true⟩
  headActivity := .ok ⟨['h'], []⟩

/-- A host that skips the check on a draft, and after the lift reports `after`. -/
def draftSkipping (after : Check) : StillHost where
  before := gatePhase gateSkipped
  after := gatePhase after
  readyForReview := .ok ()

/-- The default grace window and wait, polled every thirty seconds: the draft is lifted at the
fifth reading, and read again at once. -/
def pollsByThirty : Timing where
  grace := 120
  wait := 3600
  started := 0
  readAt turn := 30 * (if turn ≤ 4 then turn else turn - 1)
  liftedAt turn := 30 * (if turn ≤ 4 then turn else turn - 1)
  reuses _ := true
  from_start := by simp
  forward turn := by
    refine ⟨Nat.le_refl _, Nat.mul_le_mul_left 30 ?_⟩
    split <;> split <;> omega
  unbounded instant := ⟨instant + 5, by rw [if_neg (by omega)]; omega⟩

/-- A wait just over two grace windows, polled every fifty seconds: the draft is lifted at the
fourth reading, and the wait is over before the grace window that begins there. -/
def pollsByFifty : Timing where
  grace := 120
  wait := 250
  started := 0
  readAt turn := 50 * (if turn ≤ 3 then turn else turn - 1)
  liftedAt turn := 50 * (if turn ≤ 3 then turn else turn - 1)
  reuses _ := true
  from_start := by simp
  forward turn := by
    refine ⟨Nat.le_refl _, Nat.mul_le_mul_left 50 ?_⟩
    split <;> split <;> omega
  unbounded instant := ⟨instant + 5, by rw [if_neg (by omega)]; omega⟩

theorem gatePhase_about (check : Check) (h : check.head = some ['h']) :
    (gatePhase check).AboutPushed ['h'] := by
  intro answered hanswered entry hentry
  cases hanswered
  rw [List.mem_singleton.mp hentry, isAbout, h]
  rfl

theorem pollsByThirty_leaves : pollsByThirty.LeavesSecondWindow := by
  intro turn later hover hfirst hlater hlate
  have hturn : turn ≤ 4 := by
    by_contra hafter
    exact absurd (hfirst 4 (by omega)) (by decide)
  have hlift : pollsByThirty.liftedAt turn ≤ 120 := by
    simp only [pollsByThirty, if_pos hturn]
    omega
  have hbound : 3600 ≤ pollsByThirty.readAt later := by
    simpa [pollsByThirty] using Timing.outOfTime_iff.mp hlate
  rw [Timing.graceOver_iff, show pollsByThirty.grace = 120 from rfl]
  omega

/-- A draft whose required check re-runs green after its early lift. -/
theorem watches_alike_lifted :
    2 * pollsByThirty.grace < pollsByThirty.wait ∧
    Double.watch ['m'] ['h'] true (draftSkipping gatePassed) =
      ⟨[.draftLifted, .draftLiftedEarly [['g']], recordSettled [] false], .greenReady⟩ ∧
    ∃ fuel, pollsByThirty.settles (draftSkipping gatePassed) ['m'] ['h'] true fuel =
      some (Double.watch ['m'] ['h'] true (draftSkipping gatePassed)) := by
  refine ⟨by decide, by decide +kernel, ?_⟩
  refine (watches_alike pollsByThirty (draftSkipping gatePassed) ['m'] ['h'] true
    (gatePhase_about _ rfl) (gatePhase_about _ rfl) (by decide) pollsByThirty_leaves).1

/-- A wait longer than two grace windows is not enough: the polled watch finds its bound over
where the testing provider finds that the required check did not re-run. -/
theorem wait_over_early :
    2 * pollsByFifty.grace < pollsByFifty.wait ∧
    (draftSkipping gateSkipped).before.AboutPushed ['h'] ∧
    (draftSkipping gateSkipped).after.AboutPushed ['h'] ∧
    (Double.watch ['m'] ['h'] true (draftSkipping gateSkipped)).ended = .didNotRerun ∧
    ∃ fuel watched,
      pollsByFifty.settles (draftSkipping gateSkipped) ['m'] ['h'] true fuel = some watched ∧
        watched.ended = .elapsed [['g']] := by
  refine ⟨by decide, gatePhase_about _ rfl, gatePhase_about _ rfl, by decide +kernel, 8,
    ⟨[.draftLifted, .draftLiftedEarly [['g']]], .elapsed [['g']]⟩, by decide +kernel, rfl⟩

end Onevcs.Publish
