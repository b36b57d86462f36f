import Mathlib.Logic.Function.Basic
import Onevcs.Publish.Checks

/-!
# The check transitions a watch reports

The reporting half of `publish.rs`'s `Watcher::read`: the checks of one answer that are about
the pushed commit, each against what its name was last reported as, and the `change-check`
events that come of it.

The memory is by name, and a host may report several runs of one name. A run is told apart here
by a mark each entry of an answer carries, which no part of the watch reads; what was last
reported of a run is what the events say. The watch reports each transition once exactly where
the entries of one name never stand apart in a list that is read again, and no entry stands as
the entry of its name before it while its own run was last reported otherwise.
-/

namespace Onevcs.Publish

open Foundations (Text)

/-! ## The source -/

/-- `Transition`: a check's status, its conclusion, and when the run started. -/
abbrev Transition := Text × Option Text × Option Text

def Check.transition (check : Check) : Transition :=
  (check.status, check.conclusion, check.startedAt)

def Declared.requires (declared : Declared) (check : Check) : Bool :=
  match declared with
  | .names listed => listed.contains check.name
  | .nothing => false
  | .unknown _ => check.required

/-- A `change-check` event: the check, the status its name was last reported with, its log, and
whether it is required. -/
structure CheckEvent where
  check : Check
  fromStatus : Option Text
  log : Option Text
  required : Bool

/-- What a watch remembers of the checks it reported: what each name was last reported as, and
what each settled check's log was stored as. -/
structure Reporter where
  reported : List (Text × Transition)
  logs : List (Text × Text)

/-- What a reading of the checks is told beside them: the declaration the watch holds, and what
the host stores a check's log as, none where it hands none over. -/
structure Looked where
  declaration : Option Declared
  checkLog : Check → Option Text

namespace Reporter

def new : Reporter := ⟨[], []⟩

/-- What a name was last reported as. -/
def stands (reporter : Reporter) (name : Text) : Option Transition :=
  (reporter.reported.find? fun entry => entry.1 == name).map Prod.snd

/-- One turn of the loop of `Watcher::read`: the event of a check that moved. -/
def report (looked : Looked) (reporter : Reporter) (check : Check) :
    Reporter × Option CheckEvent :=
  let now := check.transition
  let previous := reporter.stands check.name
  if previous = some now then (reporter, none)
  else
    let log := if check.settled then looked.checkLog check else none
    let logs :=
      match log with
      | some id => reporter.logs.filter (fun entry => entry.1 != check.name) ++ [(check.name, id)]
      | none => reporter.logs
    ({ reported := reporter.reported.filter (fun entry => entry.1 != check.name) ++
        [(check.name, now)]
       logs := logs },
      some
        { check := check
          fromStatus := previous.map Prod.fst
          log := log
          required := (looked.declaration.map (·.requires check)).getD check.required })

/-- The loop of `Watcher::read` over some checks, and the events it emits. -/
def reportEach (looked : Looked) (reporter : Reporter) :
    List Check → Reporter × List CheckEvent
  | [] => (reporter, [])
  | check :: checks =>
    let (reporter, event) := reporter.report looked check
    let (reporter, events) := reportEach looked reporter checks
    (reporter, event.toList ++ events)

/-- `Watcher::read`, as far as it reports: the answer narrowed to the pushed commit, and each
check of it that moved. -/
def read (looked : Looked) (reporter : Reporter) (answered : List Check) (pushed : Text) :
    Reporter × List CheckEvent :=
  reporter.reportEach looked (Reported.of answered pushed).checks

variable {looked : Looked} {reporter : Reporter} {check : Check} {name : Text}

theorem reported_report (h : reporter.stands check.name ≠ some check.transition) :
    (reporter.report looked check).1.reported =
      reporter.reported.filter (fun entry => entry.1 != check.name) ++
        [(check.name, check.transition)] := by
  rw [report, if_neg h]

theorem stands_report :
    (reporter.report looked check).1.stands name =
      if name = check.name then some check.transition else reporter.stands name := by
  by_cases hsame : reporter.stands check.name = some check.transition
  · have hkept : (reporter.report looked check).1 = reporter := by simp [report, hsame]
    rw [hkept]
    split
    · next hname => rw [hname, hsame]
    · rfl
  · rw [stands, reported_report hsame, List.find?_append]
    by_cases hname : name = check.name
    · subst hname
      have hnone : (reporter.reported.filter fun entry => entry.1 != check.name).find?
          (fun entry => entry.1 == check.name) = none := by
        apply List.find?_eq_none.mpr
        intro entry hentry
        simpa using (List.mem_filter.mp hentry).2
      simp [hnone]
    · have hfind : (reporter.reported.filter fun entry => entry.1 != check.name).find?
          (fun entry => entry.1 == name) = reporter.reported.find? fun entry => entry.1 == name := by
        rw [List.find?_filter]
        congr 1
        funext entry
        by_cases hentry : entry.1 = name
        · simp [hentry, hname]
        · simp [hentry]
      have hother : ¬ check.name = name := fun h => hname h.symm
      rw [hfind, if_neg hname]
      simp [stands, hother]

theorem report_eq_none_iff :
    (reporter.report looked check).2 = none ↔
      reporter.stands check.name = some check.transition := by
  rw [report]
  by_cases h : reporter.stands check.name = some check.transition
  · rw [if_pos h]
    exact iff_of_true rfl h
  · rw [if_neg h]
    exact iff_of_false (Option.some_ne_none _) h

theorem report_check {event : CheckEvent} (h : (reporter.report looked check).2 = some event) :
    event.check = check := by
  rw [report] at h
  split at h
  · cases h
  · cases h
    rfl

theorem reportEach_eq_nil_iff {checks : List Check} :
    (reporter.reportEach looked checks).2 = [] ↔
      ∀ check ∈ checks, reporter.stands check.name = some check.transition := by
  induction checks generalizing reporter with
  | nil => simp [reportEach]
  | cons first rest ih =>
    have hsplit : (reporter.reportEach looked (first :: rest)).2 = [] ↔
        (reporter.report looked first).2 = none ∧
          ((reporter.report looked first).1.reportEach looked rest).2 = [] := by
      simp [reportEach, Option.toList_eq_nil_iff]
    rw [hsplit, report_eq_none_iff, ih, List.forall_mem_cons]
    -- A check that emits nothing leaves the memory as it was.
    refine and_congr_right fun hfirst => forall₂_congr fun check _ => ?_
    rw [stands_report]
    split
    · next hname => rw [hname, hfirst]
    · rfl

end Reporter

theorem Reported.checks_of (answered : List Check) (pushed : Text) :
    (Reported.of answered pushed).checks = answered.filter fun check => isAbout check pushed := by
  simp only [Reported.of]
  split
  · next h =>
    have hnil := (Bool.and_eq_true_iff.mp h).1
    exact (List.isEmpty_iff.mp hnil).symm
  · rfl

/-! ## Runs, and what was last reported of each -/

/-- An entry of an answer: a check, and which run it is of. -/
structure Entry (ρ : Type) where
  run : ρ
  check : Check

/-- One answer of the host, and what the reading is told beside it. -/
structure Answer (ρ : Type) where
  entries : List (Entry ρ)
  looked : Looked

variable {ρ : Type}

/-- The entries of an answer that are about the pushed commit. -/
def Answer.about (answer : Answer ρ) (pushed : Text) : List (Entry ρ) :=
  answer.entries.filter fun entry => isAbout entry.check pushed

def Answer.checks (answer : Answer ρ) (pushed : Text) : List Check :=
  (Reported.of (answer.entries.map Entry.check) pushed).checks

theorem Answer.checks_eq (answer : Answer ρ) (pushed : Text) :
    answer.checks pushed = (answer.about pushed).map Entry.check := by
  rw [Answer.checks, Reported.checks_of, Answer.about, List.filter_map]
  rfl

/-- A watch's memory, and beside it what was last reported of each run. -/
structure Told (ρ : Type) where
  reporter : Reporter
  told : ρ → Option Transition

namespace Told

variable [DecidableEq ρ]

def new : Told ρ := ⟨.new, fun _ => none⟩

/-- One entry is read: an event is a report of its run. -/
def report (looked : Looked) (told : Told ρ) (entry : Entry ρ) : Told ρ where
  reporter := (told.reporter.report looked entry.check).1
  told :=
    if (told.reporter.report looked entry.check).2.isSome then
      Function.update told.told entry.run (some entry.check.transition)
    else told.told

/-- The entries of an answer are read. -/
def reportEach (looked : Looked) (told : Told ρ) (entries : List (Entry ρ)) : Told ρ :=
  entries.foldl (report looked) told

/-- The answers of the host are read. -/
def after (pushed : Text) (answers : List (Answer ρ)) : Told ρ :=
  answers.foldl (fun told answer => told.reportEach answer.looked (answer.about pushed)) new

end Told

/-- Each transition is reported once by the reading of `answer` after `earlier`: a list that is
the one before emits nothing, and each entry that stands otherwise than was last reported of its
run emits one event, which is about it. -/
structure OnceAt [DecidableEq ρ] (pushed : Text) (earlier : List (Answer ρ))
    (answer : Answer ρ) : Prop where
  again : ∀ last, earlier.getLast? = some last → last.checks pushed = answer.checks pushed →
    ((Told.after pushed earlier).reporter.read answer.looked
      (answer.entries.map Entry.check) pushed).2 = []
  moved : ∀ before entry after, answer.about pushed = before ++ entry :: after →
    ((Told.after pushed earlier).reportEach answer.looked before).told entry.run ≠
        some entry.check.transition →
      ∃ event, (((Told.after pushed earlier).reportEach answer.looked before).reporter.report
        answer.looked entry.check).2 = some event ∧ event.check = entry.check

/-- Each transition is reported once by every reading of a watch. -/
def ReportedOnce [DecidableEq ρ] (pushed : Text) (answers : List (Answer ρ)) : Prop :=
  ∀ earlier answer later, answers = earlier ++ answer :: later → OnceAt pushed earlier answer

/-! ## When each transition is reported once -/

/-- Where a name stood in the entries read so far, the latest first. -/
def stood (history : List (Entry ρ)) (name : Text) : Option Transition :=
  (history.find? fun entry => entry.check.name == name).map fun entry => entry.check.transition

/-- Where a run stood at its latest entry, of those read so far, that stood otherwise than the
entry of its name before it. -/
def toldBy [DecidableEq ρ] : List (Entry ρ) → ρ → Option Transition
  | [], _ => none
  | entry :: history, run =>
    if entry.run = run ∧ stood history entry.check.name ≠ some entry.check.transition then
      some entry.check.transition
    else toldBy history run

/-- Every entry read so far, the latest first. -/
def historyOf (pushed : Text) (answers : List (Answer ρ)) : List (Entry ρ) :=
  (answers.flatMap fun answer => answer.about pushed).reverse

theorem historyOf_append (pushed : Text) (earlier : List (Answer ρ)) (answer : Answer ρ) :
    historyOf pushed (earlier ++ [answer]) =
      (answer.about pushed).reverse ++ historyOf pushed earlier := by
  simp [historyOf]

/-- The entries of one name stand alike in a list that is read again, and an entry that stands
as the entry of its name before it did is of a run that was last seen to move there. -/
structure ApartAt [DecidableEq ρ] (pushed : Text) (earlier : List (Answer ρ))
    (answer : Answer ρ) : Prop where
  alike : ∀ last, earlier.getLast? = some last → last.checks pushed = answer.checks pushed →
    ∀ check ∈ answer.checks pushed, ∀ other ∈ answer.checks pushed,
      check.name = other.name → check.transition = other.transition
  own : ∀ before entry after, answer.about pushed = before ++ entry :: after →
    stood (before.reverse ++ historyOf pushed earlier) entry.check.name =
        some entry.check.transition →
      toldBy (before.reverse ++ historyOf pushed earlier) entry.run = some entry.check.transition

section Once

variable [DecidableEq ρ] {pushed : Text} {looked : Looked} {told : Told ρ}
  {history : List (Entry ρ)}

/-- A memory that is what the entries read so far come to. -/
structure Told.Of (told : Told ρ) (history : List (Entry ρ)) : Prop where
  stands : ∀ name, told.reporter.stands name = stood history name
  told : ∀ run, told.told run = toldBy history run

theorem Told.Of.report (h : told.Of history) (looked : Looked) (entry : Entry ρ) :
    (told.report looked entry).Of (entry :: history) := by
  constructor
  · intro name
    have hstands : (told.report looked entry).reporter.stands name =
        if name = entry.check.name then some entry.check.transition
        else told.reporter.stands name := Reporter.stands_report
    rw [hstands, stood, List.find?_cons]
    by_cases hname : name = entry.check.name
    · simp [hname]
    · have hother : (entry.check.name == name) = false := beq_eq_false_iff_ne.mpr fun h' =>
        hname h'.symm
      rw [if_neg hname, hother, h.stands, stood]
  · intro run
    have hnone : (told.reporter.report looked entry.check).2 = none ↔
        stood history entry.check.name = some entry.check.transition := by
      rw [Reporter.report_eq_none_iff, h.stands]
    rw [Told.report, toldBy]
    by_cases hsame : stood history entry.check.name = some entry.check.transition
    · rw [hnone.mpr hsame]
      simp [hsame, h.told]
    · obtain ⟨event, hevent⟩ := Option.ne_none_iff_exists'.mp (mt hnone.mp hsame)
      rw [hevent]
      by_cases hrun : entry.run = run
      · subst hrun
        simp [hsame]
      · have hother : ¬ run = entry.run := fun h' => hrun h'.symm
        simp [hrun, hother, h.told]

theorem Told.Of.reportEach (h : told.Of history) (looked : Looked) (entries : List (Entry ρ)) :
    (told.reportEach looked entries).Of (entries.reverse ++ history) := by
  induction entries generalizing told history with
  | nil => exact h
  | cons entry entries ih =>
    have hrest := ih (h.report looked entry)
    rwa [List.reverse_cons, List.append_assoc]

theorem told_eq_toldBy (pushed : Text) (answers : List (Answer ρ)) :
    (Told.after pushed answers).Of (historyOf pushed answers) := by
  induction answers using List.reverseRecOn with
  | nil => exact ⟨fun _ => rfl, fun _ => rfl⟩
  | append_singleton earlier answer ih =>
    have hstep := ih.reportEach answer.looked (answer.about pushed)
    have hafter : Told.after pushed (earlier ++ [answer]) =
        (Told.after pushed earlier).reportEach answer.looked (answer.about pushed) := by
      rw [Told.after, List.foldl_append]
      rfl
    rwa [hafter, historyOf_append]

theorem stands_of_read {last : Answer ρ} {earlier : List (Answer ρ)} {check : Check}
    (hlast : earlier.getLast? = some last) (hcheck : check ∈ last.checks pushed) :
    ∃ other ∈ last.checks pushed, other.name = check.name ∧
      (Told.after pushed earlier).reporter.stands check.name = some other.transition := by
  obtain ⟨first, rfl⟩ := List.getLast?_eq_some_iff.mp hlast
  rw [Answer.checks_eq] at hcheck ⊢
  obtain ⟨entry, hentry, rfl⟩ := List.mem_map.mp hcheck
  have hsome : ((last.about pushed).reverse.find?
      fun other => other.check.name == entry.check.name).isSome := by
    rw [List.find?_isSome]
    exact ⟨entry, List.mem_reverse.mpr hentry, by simp⟩
  obtain ⟨other, hother⟩ := Option.isSome_iff_exists.mp hsome
  refine ⟨other.check, List.mem_map_of_mem ?_, ?_, ?_⟩
  · exact List.mem_reverse.mp (List.mem_of_find?_eq_some hother)
  · simpa using List.find?_some hother
  · rw [(told_eq_toldBy pushed _).stands, historyOf_append, stood, List.find?_append, hother]
    rfl

/-- One reading reports each transition once exactly where its entries are told apart. -/
theorem onceAt_iff (pushed : Text) (earlier : List (Answer ρ)) (answer : Answer ρ) :
    OnceAt pushed earlier answer ↔ ApartAt pushed earlier answer := by
  have hsilent : ((Told.after pushed earlier).reporter.read answer.looked
      (answer.entries.map Entry.check) pushed).2 = [] ↔ ∀ check ∈ answer.checks pushed,
        (Told.after pushed earlier).reporter.stands check.name = some check.transition :=
    Reporter.reportEach_eq_nil_iff
  have hof : ∀ before, ((Told.after pushed earlier).reportEach answer.looked before).Of
      (before.reverse ++ historyOf pushed earlier) := fun before =>
    (told_eq_toldBy pushed earlier).reportEach answer.looked before
  constructor
  · intro h
    refine ⟨?_, ?_⟩
    · intro last hlast hsame check hcheck other hother hname
      have hstands := hsilent.mp (h.again last hlast hsame)
      have hone := hstands check hcheck
      rw [hname, hstands other hother] at hone
      exact (Option.some.inj hone).symm
    · intro before entry after hsplit hstood
      by_contra hmoved
      rw [← (hof before).told] at hmoved
      obtain ⟨event, hevent, -⟩ := h.moved before entry after hsplit hmoved
      have hnone : (((Told.after pushed earlier).reportEach answer.looked before).reporter.report
          answer.looked entry.check).2 = none := by
        rw [Reporter.report_eq_none_iff, (hof before).stands, hstood]
      cases hnone.symm.trans hevent
  · intro h
    refine ⟨?_, ?_⟩
    · intro last hlast hsame
      refine hsilent.mpr fun check hcheck => ?_
      obtain ⟨other, hother, hname, hstands⟩ := stands_of_read hlast (hsame ▸ hcheck)
      rw [hstands, h.alike last hlast hsame other (hsame ▸ hother) check hcheck hname]
    · intro before entry after hsplit hmoved
      have hevent : (((Told.after pushed earlier).reportEach answer.looked before).reporter.report
          answer.looked entry.check).2 ≠ none := by
        rw [Ne, Reporter.report_eq_none_iff, (hof before).stands]
        intro hstood
        apply hmoved
        rw [(hof before).told, h.own before entry after hsplit hstood]
      obtain ⟨event, hevent⟩ := Option.ne_none_iff_exists'.mp hevent
      exact ⟨event, hevent, Reporter.report_check hevent⟩

/-- Each transition is reported once by every reading of a watch exactly where in each the
entries are told apart. -/
theorem reportedOnce_iff (pushed : Text) (answers : List (Answer ρ)) :
    ReportedOnce pushed answers ↔
      ∀ earlier answer later, answers = earlier ++ answer :: later →
        ApartAt pushed earlier answer :=
  forall_congr' fun earlier => forall_congr' fun answer => forall₂_congr fun _ _ =>
    onceAt_iff pushed earlier answer

end Once

/-- A run of the one required check, settled or not. -/
def runOf (run : ℕ) (status : Text) (conclusion : Option Text) (startedAt : Text) : Entry ℕ :=
  ⟨run, ⟨['c', 'i'], status, conclusion, true, none, some startedAt⟩⟩

/-- A skipped run, and the run that was started once the change was ready. -/
def twoRuns : Answer ℕ where
  entries :=
    [runOf 0 "completed".toList (some "skipped".toList) ['1'],
      runOf 1 "in_progress".toList none ['2']]
  looked := ⟨none, fun _ => none⟩

/-- The same two runs, read again, are reported again, each of them. -/
theorem two_runs_reported_again :
    ¬ ReportedOnce ['s'] [twoRuns, twoRuns] ∧
      ((Told.after ['s'] [twoRuns]).reporter.read twoRuns.looked
        (twoRuns.entries.map Entry.check) ['s']).2.length = 2 := by
  have hcount : ((Told.after ['s'] [twoRuns]).reporter.read twoRuns.looked
      (twoRuns.entries.map Entry.check) ['s']).2.length = 2 := by decide +kernel
  refine ⟨fun h => ?_, hcount⟩
  have hnil := (h [twoRuns] twoRuns [] rfl).again twoRuns rfl rfl
  rw [hnil] at hcount
  cases hcount

end Onevcs.Publish
