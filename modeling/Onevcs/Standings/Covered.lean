import Onevcs.Publish.Watch
import Onevcs.Standings.Standing

/-!
# What a passing verdict covers

Two readings come to a verdict by one function: a standings read, of the declarations and the
rollup in one query, and a turn of the watch of a ready change. What a verdict covers is what
the declaration said of what a merge requires: all of it, the part that was read, or, where
nothing was said, what the host marks required among the checks it reports.
-/

namespace Onevcs.Standings

open Foundations (Text bind_eq_ok)
open Publish

/-! ## What a verdict may promise -/

/-- A check has an entry that passed or was skipped, and none that is red or running. -/
def Covered (checks : List Check) (name : Text) : Prop :=
  (∃ check ∈ checks, check.name = name ∧ (check.state = .passed ∨ check.state = .skipped)) ∧
    ∀ check ∈ checks, check.name = name → check.state ≠ .failed ∧ check.state ≠ .pending

/-- A verdict that lets the change through on its checks. -/
def Passes (verdict : ChecksVerdict) : Prop :=
  verdict = .passed ∨ ∃ names, verdict = .passedWithSkipped names

/-- A verdict that covers every check a merge requires. -/
structure PassesOver (required : List Text) (checks : List Check) (verdict : ChecksVerdict) :
    Prop where
  passed : Passes verdict → ∀ name ∈ required, Covered checks name
  noneRequired : verdict = .noneRequired → required = []

/-- What was read of the declaration: the names the sources that were read require, and whether
every source was read. -/
structure Known where
  names : List Text
  whole : Bool

/-- What was read is of what is required. -/
structure Known.Of (known : Known) (required : List Text) : Prop where
  sound : ∀ name ∈ known.names, name ∈ required
  complete : known.whole = true → ∀ name ∈ required, name ∈ known.names

/-- A check that was read as required, or that nothing was read to say and an entry shows. -/
def Known.Shows (known : Known) (checks : List Check) (name : Text) : Prop :=
  name ∈ known.names ∨ known.names = [] ∧ ∃ check ∈ checks, check.name = name

/-- A verdict that covers what was read of the declaration, and else what the host marks. -/
structure Answers (required : List Text) (known : Known) (complete : Bool) (checks : List Check)
    (verdict : ChecksVerdict) : Prop where
  passed : Passes verdict → ∀ name ∈ required, known.Shows checks name → Covered checks name
  noneRequired : verdict = .noneRequired → known.names = [] ∧
    (known.whole = false → complete = true ∧ checks ≠ [] ∧ ∀ check ∈ checks, check.name ∉ required)

theorem Answers.passesOver {required : List Text} {known : Known} {complete : Bool}
    {checks : List Check} {verdict : ChecksVerdict}
    (h : Answers required known complete checks verdict) (hof : known.Of required)
    (hwhole : known.whole = true) : PassesOver required checks verdict where
  passed hpasses name hname :=
    h.passed hpasses name hname (Or.inl (hof.complete hwhole name hname))
  noneRequired hnone := by
    rw [List.eq_nil_iff_forall_not_mem]
    intro name hname
    have hread := hof.complete hwhole name hname
    rw [(h.noneRequired hnone).1] at hread
    cases hread

section Verdict

variable {checks : List Check} {declared : Declared} {standing : List Standing} {name : Text}

theorem letsThrough_of_passes (h : Passes (verdictOf standing declared)) :
    letsThrough standing declared = true := by
  unfold verdictOf at h
  dsimp only at h
  split_ifs at h with hfailed hnone hthrough hskipped
  · rcases h with h | ⟨names, h⟩ <;> cases h
  · rcases h with h | ⟨names, h⟩ <;> cases h
  · exact hthrough
  · exact hthrough
  · rcases h with h | ⟨names, h⟩ <;> cases h

theorem nothing_of_noneRequired (h : verdictOf standing declared = .noneRequired) :
    declared = .nothing := by
  unfold verdictOf at h
  dsimp only at h
  split_ifs at h with hfailed hnone hthrough hskipped
  simp only [Bool.and_eq_true, beq_iff_eq] at hnone
  exact hnone.1

/-- A check the standings answer for is covered by a verdict that lets the change through. -/
theorem covered_of_passes (hname : name ∈ requiredNames checks declared)
    (h : Passes (verdictOf (standings checks declared) declared)) : Covered checks name := by
  have hthrough := letsThrough_of_passes h
  simp only [letsThrough, Bool.and_eq_true, List.all_eq_true] at hthrough
  have hmem : ⟨name, (decided checks name).map Check.state, decided checks name⟩ ∈
      standings checks declared := mem_standings.mpr ⟨hname, rfl, rfl⟩
  have hat := hthrough.2 _ hmem
  constructor
  · simp only [Standing.through, Bool.or_eq_true, beq_iff_eq] at hat
    rcases hat with hpassed | hskipped
    · obtain ⟨check, hcheck, heq, hstate⟩ := exists_of_state hmem hpassed
      exact ⟨check, hcheck, heq, Or.inl hstate⟩
    · obtain ⟨check, hcheck, heq, hstate⟩ := exists_of_state hmem hskipped
      exact ⟨check, hcheck, heq, Or.inr hstate⟩
  · intro check hcheck heq
    exact not_red_of_through hmem hat hcheck heq

end Verdict

inductive Says : Declared → Known → Prop
  | nothing : Says .nothing ⟨[], true⟩
  | names {listed : List Text} (whole : Bool) (h : listed ≠ []) : Says (.names listed) ⟨listed, whole⟩
  | unknown (because : Text) : Says (.unknown because) ⟨[], false⟩

section Answer

variable {checks : List Check} {declared : Declared} {known : Known} {required : List Text}

/-- An unreadable declaration is sharpened by a whole answer whose checks are none of them
required, and only by that. -/
theorem sharpened_unknown {because : Text} {complete : Bool} :
    (Declared.unknown because).sharpened checks complete = .unknown because ∨
      ((Declared.unknown because).sharpened checks complete = .nothing ∧ complete = true ∧
        checks ≠ [] ∧ ∀ check ∈ checks, check.required = false) := by
  rw [Declared.sharpened]
  split
  · next hsharp =>
    simp only [Bool.and_eq_true, Bool.not_eq_true', List.isEmpty_eq_false_iff,
      List.all_eq_true] at hsharp
    obtain ⟨⟨hcomplete, hne⟩, hall⟩ := hsharp
    exact Or.inr ⟨rfl, hcomplete, hne, hall⟩
  · exact Or.inl rfl

/-- The verdict of one answer covers what was read of the declaration. -/
theorem checksVerdict_answers (hsaid : Says declared known)
    (hmarks : ∀ check ∈ checks, check.required = true ↔ check.name ∈ required)
    (complete : Bool) :
    Answers required known complete checks (checksVerdict checks declared complete) := by
  cases hsaid with
  | nothing =>
    refine ⟨fun hpasses name _ hshows => ?_, fun _ => ⟨rfl, nofun⟩⟩
    -- nothing is required, so a verdict that passes on checks is not given
    exfalso
    rcases hpasses with h | ⟨names, h⟩ <;>
      simp [checksVerdict, Declared.sharpened, standings, requiredNames, verdictOf] at h
  | @names listed whole hne =>
    refine ⟨fun hpasses name _ hshows => ?_, fun hnone => ?_⟩
    · rcases hshows with hread | ⟨hnil, -⟩
      · have hnamed : name ∈ requiredNames checks (.names listed) := hread
        exact covered_of_passes hnamed hpasses
      · exact absurd hnil hne
    · cases nothing_of_noneRequired hnone
  | unknown because =>
    rcases sharpened_unknown with hsame | ⟨hnothing, hcomplete, hne, hall⟩
    · rw [checksVerdict, hsame]
      refine ⟨fun hpasses name hname hshows => ?_, fun hnone => ?_⟩
      · rcases hshows with hread | ⟨-, check, hcheck, rfl⟩
        · cases hread
        · refine covered_of_passes ?_ hpasses
          exact mem_requiredNames_unknown.mpr
            ⟨check, hcheck, (hmarks check hcheck).mpr hname, rfl⟩
      · cases nothing_of_noneRequired hnone
    · have hnot : ∀ check ∈ checks, check.name ∉ required := by
        intro check hcheck hname
        cases (hall check hcheck).symm.trans ((hmarks check hcheck).mpr hname)
      refine ⟨fun _ name hname hshows => ?_, fun _ => ⟨rfl, fun _ => ⟨hcomplete, hne, hnot⟩⟩⟩
      rcases hshows with hread | ⟨-, check, hcheck, rfl⟩
      · cases hread
      · exact absurd hname (hnot check hcheck)

end Answer

/-- What a standings read knows of what a merge into the base requires. -/
def knownFor (required : Required) (pull : Pull) (base : Text) : Known :=
  match declaredFor required pull base with
  | .nothing => ⟨[], true⟩
  | .names listed => ⟨listed, true⟩
  | .unknown _ => ⟨[], false⟩

/-- The host's rollup: its contexts, each marked required where a merge requires it, and the
answer's first page of them; a head branch that is gone has none. -/
structure Rollup (merge : List Text) (contexts : List Context) (pull : Pull) : Prop where
  page : pull.contexts = some (firstPage contexts) ∨ (pull.contexts = none ∧ contexts = [])
  marks : ∀ context ∈ contexts, ∀ head check, checkOf head context = .ok check →
    (check.required = true ↔ check.name ∈ merge)

/-- What the host requires of a merge into the change request's base, where the declarations
were read and the base is there. -/
def DeclaredAt (host : Text → Text → Bool) (required : Required) (pull : Pull)
    (merge : List Text) : Prop :=
  ∀ declarations base, required = some (.ok declarations) → pull.baseRef = true →
    pull.baseRefName = some base → ∀ name, name ∈ merge ↔ name ∈ declarations.requires base host

section Read

variable {host : Text → Text → Bool} {required : Required} {root base : Text} {pull : Pull}
  {merge : List Text} {contexts : List Context} {s : ChangeStanding}

/-- What the read takes from the declarations is of what the host requires. -/
theorem declaredFor_read (hbase : pull.baseRefName = some base)
    (hat : DeclaredAt host required pull merge) :
    Says (declaredFor required pull base) (knownFor required pull base) ∧
      (knownFor required pull base).Of merge := by
  have hunknown : ∀ why, declaredFor required pull base = .unknown why →
      Says (declaredFor required pull base) (knownFor required pull base) ∧
        (knownFor required pull base).Of merge := by
    intro why h
    rw [knownFor, h]
    exact ⟨.unknown why, nofun, nofun⟩
  by_cases hthere : pull.baseRef = true
  · cases hrequired : required with
    | none => exact hrequired ▸ hunknown _ (by rw [declaredFor, if_pos hthere, hrequired]; rfl)
    | some read =>
      cases read with
      | error why =>
        exact hrequired ▸ hunknown why (by rw [declaredFor, if_pos hthere, hrequired]; rfl)
      | ok declarations =>
        have hrequires := hat declarations base hrequired hthere hbase
        have hon : declaredFor required pull base = declarations.on base := by
          rw [declaredFor, if_pos hthere, hrequired]
          rfl
        rw [← hrequired]
        rcases declarations.on_read base with
          ⟨why, h⟩ | ⟨h, hnil⟩ | ⟨names, h, hne, hmem⟩
        · exact hunknown why (hon.trans h)
        · rw [knownFor, hon, h]
          refine ⟨.nothing, nofun, fun _ name hname => ?_⟩
          rw [hrequires, hnil] at hname
          exact hname
        · rw [knownFor, hon, h]
          refine ⟨.names true hne, fun name hname => ?_, fun _ name hname => ?_⟩
          · exact (hrequires name).mpr ((hmem name).mp hname)
          · exact (hmem name).mpr ((hrequires name).mp hname)
  · exact hunknown _ (by rw [declaredFor, if_neg hthere])

theorem Rollup.read (h : Rollup merge contexts pull) (hwhole : contexts.length ≤ pageSize)
    {head : Text} {checks : List Check} (hread : rollup head pull.contexts = .ok checks) :
    contexts.mapM (checkOf head) = .ok checks := by
  rcases h.page with hpage | ⟨hnone, rfl⟩
  · rw [hpage, rollup, Option.elim_some, firstPage, List.take_of_length_le hwhole] at hread
    exact hread
  · rw [hnone] at hread
    exact hread

theorem exists_context {head : Text} {checks : List Check}
    (h : contexts.mapM (checkOf head) = .ok checks) {check : Check} (hcheck : check ∈ checks) :
    ∃ context ∈ contexts, checkOf head context = .ok check := by
  induction contexts generalizing checks with
  | nil =>
    obtain rfl : [] = checks := Except.ok.inj h
    cases hcheck
  | cons context rest ih =>
    rw [List.mapM_cons, bind_eq_ok] at h
    obtain ⟨first, hfirst, h⟩ := h
    rw [bind_eq_ok] at h
    obtain ⟨later, hlater, h⟩ := h
    obtain rfl := Except.ok.inj h
    rcases List.mem_cons.mp hcheck with rfl | hmem
    · exact ⟨context, List.mem_cons_self, hfirst⟩
    · obtain ⟨found, hfound, heq⟩ := ih hlater hmem
      exact ⟨found, List.mem_cons_of_mem _ hfound, heq⟩

theorem standing_ok (h : standing required root pull = .ok s) :
    pull.baseRefName = some s.base ∧ ∃ checks, rollup s.head pull.contexts = .ok checks ∧
      s.checks = checksVerdict checks (declaredFor required pull s.base) true := by
  rw [standing, bind_eq_ok] at h
  obtain ⟨base, hbase, h⟩ := h
  rw [bind_eq_ok] at h
  obtain ⟨head, -, h⟩ := h
  split at h
  · cases h
  · rw [bind_eq_ok] at h
    obtain ⟨draft, -, h⟩ := h
    rw [bind_eq_ok] at h
    obtain ⟨state, -, h⟩ := h
    rw [bind_eq_ok] at h
    obtain ⟨checks, hchecks, h⟩ := h
    rw [bind_eq_ok] at h
    obtain ⟨body, -, h⟩ := h
    rw [bind_eq_ok] at h
    obtain ⟨headBranch, -, h⟩ := h
    obtain rfl := Except.ok.inj h
    refine ⟨?_, checks, hchecks, rfl⟩
    cases hname : pull.baseRefName with
    | none =>
      rw [hname] at hbase
      cases hbase
    | some spelled =>
      rw [hname] at hbase
      exact congrArg some (Except.ok.inj hbase)

theorem standing_answers (hrollup : Rollup merge contexts pull)
    (hwhole : contexts.length ≤ pageSize) (hat : DeclaredAt host required pull merge)
    (h : standing required root pull = .ok s) :
    ∃ checks, contexts.mapM (checkOf s.head) = .ok checks ∧
      (knownFor required pull s.base).Of merge ∧
        Answers merge (knownFor required pull s.base) true checks s.checks := by
  obtain ⟨hbase, checks, hread, hverdict⟩ := standing_ok h
  have hall := hrollup.read hwhole hread
  obtain ⟨hsaid, hof⟩ := declaredFor_read hbase hat
  refine ⟨checks, hall, hof, ?_⟩
  rw [hverdict]
  refine checksVerdict_answers hsaid (fun check hcheck => ?_) true
  obtain ⟨context, hcontext, hof⟩ := exists_context hall hcheck
  exact hrollup.marks context hcontext s.head check hof

end Read

/-! ## A reading of the watch -/

/-- What protects a base at the host, and which of it a credential is refused. -/
structure Protection where
  rulesets : List Text
  classic : List Text
  rulesetsRefused : Option HostError
  classicRefused : Option Text

namespace Protection

variable (p : Protection)

def requires : List Text := p.rulesets ++ p.classic

/-- `required_checks_on`: the rulesets first, whose refusal is the whole read's, and then
classic protection, whose refusal is recorded. -/
def requiredChecksOn : Except HostError RequiredChecks :=
  match p.rulesetsRefused, p.classicRefused with
  | some refused, _ => .error refused
  | none, some _ => .ok ⟨collected p.rulesets, ["classic branch protection".toList]⟩
  | none, none => .ok ⟨collected (p.rulesets ++ p.classic), []⟩

def known : Known :=
  match p.rulesetsRefused, p.classicRefused with
  | some _, _ => ⟨[], false⟩
  | none, some _ => ⟨collected p.rulesets, false⟩
  | none, none => ⟨collected (p.rulesets ++ p.classic), true⟩

variable {p}

theorem known_of : p.known.Of p.requires := by
  unfold known
  split
  · exact ⟨nofun, nofun⟩
  · refine ⟨fun name hname => ?_, nofun⟩
    exact List.mem_append_left _ (mem_collected.mp hname)
  · exact ⟨fun name hname => mem_collected.mp hname, fun _ name hname => mem_collected.mpr hname⟩

theorem declaredRequired_read (base : Text) :
    Says (declaredRequired base p.requiredChecksOn) p.known := by
  unfold requiredChecksOn known
  split
  · exact .unknown _
  · by_cases hnil : collected p.rulesets = []
    · simp only [declaredRequired, hnil]
      exact .unknown _
    · have hempty : (collected p.rulesets).isEmpty = false := by simpa using hnil
      simp only [declaredRequired, hempty]
      exact .names false hnil
  · by_cases hnil : collected (p.rulesets ++ p.classic) = []
    · simp only [declaredRequired, hnil]
      exact .nothing
    · have hempty : (collected (p.rulesets ++ p.classic)).isEmpty = false := by simpa using hnil
      simp only [declaredRequired, hempty]
      exact .names true hnil

end Protection

/-- The verdict of one reading of a watch of the pushed commit, where the host answered about
it: the one `settle_ready` decides by. -/
def readyVerdict (watcher : Watcher) (declared : Declared) (answered : ChangeChecks) :
    Option ChecksVerdict :=
  match (watcher.read answered).reported with
  | .notYet => none
  | .about checks => some (checksVerdict checks declared answered.complete)

/-- A reading about the pushed commit is of the whole answer, where that is of one commit. -/
theorem reported_whole {watcher : Watcher} {answered : ChangeChecks} {checks : List Check}
    (hhead : ∀ check ∈ answered.checks, ∀ other ∈ answered.checks, check.head = other.head)
    (h : (watcher.read answered).reported = .about checks) : checks = answered.checks := by
  rw [Watcher.read, Reported.of] at h
  dsimp only at h
  split at h
  · cases h
  · next hsome =>
    obtain rfl := Reported.about.inj h
    rw [List.filter_eq_self]
    intro check hcheck
    -- some entry is about the commit, and every entry is of its head
    have hne : answered.checks.filter (fun check => isAbout check watcher.pushed) ≠ [] := by
      intro hnil
      have hnot : answered.checks.isEmpty = false := by
        rw [List.isEmpty_eq_false_iff]
        exact List.ne_nil_of_mem hcheck
      simp [hnil, hnot] at hsome
    obtain ⟨about, habout⟩ := List.exists_mem_of_ne_nil _ hne
    obtain ⟨hmem, hat⟩ := List.mem_filter.mp habout
    rw [isAbout, hhead check hcheck about hmem]
    exact hat

theorem readyVerdict_answers {p : Protection} {before : Watcher} {look : Look}
    {answered : ChangeChecks} {all : List Check} {verdict : ChecksVerdict}
    (hpage : answered.checks = all.take pageSize) (hwhole : all.length ≤ pageSize)
    (hhead : ∀ check ∈ all, ∀ other ∈ all, check.head = other.head)
    (hmarks : ∀ check ∈ all, check.required = true ↔ check.name ∈ p.requires)
    (hdeclared : before.declared look = declaredRequired before.base p.requiredChecksOn)
    (h : readyVerdict (before.remembering look) (before.declared look) answered = some verdict) :
    Answers p.requires p.known answered.complete all verdict := by
  rw [List.take_of_length_le hwhole] at hpage
  rw [readyVerdict] at h
  split at h
  · cases h
  · next checks hreported =>
    obtain rfl := Option.some.inj h
    obtain rfl : checks = all := by
      rw [← hpage]
      exact reported_whole (hpage ▸ hhead) hreported
    rw [hdeclared]
    exact checksVerdict_answers (Protection.declaredRequired_read before.base) hmarks _

/-- A verdict that lets a change through, of a standings read or of a reading of the watch of a
ready change, covers every check that the sources that were read say a merge requires, and where
they say none every one the host marks among the checks it reports. -/
theorem verdicts_cover :
    (∀ (host : Text → Text → Bool) (required : Required) (root : Text) (pull : Pull)
        (merge : List Text) (contexts : List Context) (s : ChangeStanding),
      Rollup merge contexts pull → contexts.length ≤ pageSize →
        DeclaredAt host required pull merge → standing required root pull = .ok s →
          ∃ checks, contexts.mapM (checkOf s.head) = .ok checks ∧
            (knownFor required pull s.base).Of merge ∧
              Answers merge (knownFor required pull s.base) true checks s.checks) ∧
      ∀ (p : Protection) (before : Watcher) (look : Look) (answered : ChangeChecks)
          (all : List Check) (verdict : ChecksVerdict),
        answered.checks = all.take pageSize → all.length ≤ pageSize →
          (∀ check ∈ all, ∀ other ∈ all, check.head = other.head) →
            (∀ check ∈ all, check.required = true ↔ check.name ∈ p.requires) →
              before.declared look = declaredRequired before.base p.requiredChecksOn →
                readyVerdict (before.remembering look) (before.declared look) answered =
                    some verdict →
                  p.known.Of p.requires ∧
                    Answers p.requires p.known answered.complete all verdict := by
  refine ⟨?_, ?_⟩
  · intro host required root pull merge contexts s hrollup hwhole hat h
    exact standing_answers hrollup hwhole hat h
  · intro p before look answered all verdict hpage hwhole hhead hmarks hdeclared h
    exact ⟨Protection.known_of, readyVerdict_answers hpage hwhole hhead hmarks hdeclared h⟩

section Unread

/-- A check of an Actions run that succeeded. -/
def succeeded (name : Text) (required : Bool) : Context where
  typename := some "CheckRun".toList
  name := some name
  context := none
  state := none
  status := some "COMPLETED".toList
  conclusion := some "SUCCESS".toList
  isRequired := some required
  startedAt := none

def success (head name : Text) (required : Bool) : Check where
  name := name
  status := "completed".toList
  conclusion := some "success".toList
  required := required
  head := some head
  startedAt := none

/-- An open change request onto `main`, with one check that is required and succeeded. -/
def gated (baseRef : Bool) : Pull where
  baseRefName := some ['m']
  headRefName := some ['f']
  headRefOid := some ['c']
  isDraft := some false
  state := some "OPEN".toList
  body := some []
  baseRef := baseRef
  mergeCommit := none
  mergedAt := none
  contexts := some (firstPage [succeeded ['a'] true])

def gatedStanding : ChangeStanding where
  body := []
  base := ['m']
  headBranch := ['f']
  head := ['c']
  draft := false
  state := .opened
  checks := .passed

/-- A base two checks protect, classic protection refused to the credential. -/
def halfRead : Protection := ⟨[], [['a'], ['b']], none, some "403".toList⟩

/-- A watch of `c`. -/
def watcher : Watcher := .new ['m'] ['c']

/-- A look at the host, which answers for the declaration and the checks alone. -/
def looking (p : Protection) (answered : ChangeChecks) : Look where
  requiredChecks := p.requiredChecksOn
  checks := .ok answered
  graceElapsed := false
  outOfTime := false
  busyIsFresh := false
  headActivity := .error ⟨true, []⟩
  readyForReview := .error ⟨true, []⟩
  merge := .error ⟨true, []⟩
  mergedAfterRefusal := .error ⟨true, []⟩
  mergedAt := .error ⟨true, []⟩
  mergeability := .error ⟨true, []⟩
  cancelled := false

theorem gated_rollup (baseRef : Bool) (merge : List Text) (h : ['a'] ∈ merge) :
    Rollup merge [succeeded ['a'] true] (gated baseRef) where
  page := Or.inl rfl
  marks context hcontext head check hof := by
    obtain rfl := List.mem_singleton.mp hcontext
    obtain rfl := Except.ok.inj hof
    exact iff_of_true rfl h

theorem not_covered_of_absent {checks : List Check} {name : Text}
    (h : ∀ check ∈ checks, check.name ≠ name) : ¬ Covered checks name := by
  rintro ⟨⟨check, hcheck, hname, -⟩, -⟩
  exact h check hcheck hname

/-- Where what a merge requires could not be read, a verdict passes on the checks that are
reported and marked: of two required checks one has no entry, in a standings read of a change
request whose base is gone and in a reading of the watch under a credential that is refused
classic protection. And a whole answer whose checks are none of them required is read as none
being required, although one is that has no entry. -/
theorem unread_passes :
    (standing none [] (gated false) = .ok gatedStanding ∧
        Rollup [['a'], ['b']] [succeeded ['a'] true] (gated false) ∧
          ¬ PassesOver [['a'], ['b']] [success ['c'] ['a'] true] gatedStanding.checks) ∧
      (readyVerdict watcher (declaredRequired ['m'] halfRead.requiredChecksOn)
            ⟨[success ['c'] ['a'] true], true⟩ = some .passed ∧
          ¬ PassesOver halfRead.requires [success ['c'] ['a'] true] .passed) ∧
        readyVerdict watcher (declaredRequired ['m'] halfRead.requiredChecksOn)
              ⟨[success ['c'] ['d'] false], true⟩ = some .noneRequired ∧
          ¬ PassesOver halfRead.requires [success ['c'] ['d'] false] .noneRequired := by
  have habsent : ¬ Covered [success ['c'] ['a'] true] ['b'] := by
    apply not_covered_of_absent
    intro check hcheck
    obtain rfl := List.mem_singleton.mp hcheck
    decide
  refine ⟨⟨by decide +kernel, gated_rollup false _ List.mem_cons_self, ?_⟩, ⟨by decide +kernel, ?_⟩,
    by decide +kernel, ?_⟩
  · intro h
    exact habsent (h.passed (Or.inl rfl) ['b'] (by decide))
  · intro h
    exact habsent (h.passed (Or.inl rfl) ['b'] (by decide))
  · intro h
    cases h.noneRequired rfl

/-- Declarations of a ruleset that applies to every branch and requires one check. -/
def everywhere : Declarations := ⟨none, [⟨["~ALL".toList], [], [['a']]⟩], []⟩

theorem everywhere_requires :
    everywhere.requires ['m'] (fun _ _ => false) = [['a']] := by
  decide +kernel

/-- Where every source was read, a passing verdict of either reading covers what is required. -/
theorem verdicts_cover_read :
    PassesOver [['a']] [success ['c'] ['a'] true] gatedStanding.checks ∧
      PassesOver [['a']] [success ['c'] ['a'] true] .passed := by
  constructor
  · have hat : DeclaredAt (fun _ _ => false) (some (.ok everywhere)) (gated true) [['a']] := by
      intro declarations base hread _ hbase name
      obtain rfl := Except.ok.inj (Option.some.inj hread)
      obtain rfl := Option.some.inj hbase
      rw [everywhere_requires]
    obtain ⟨checks, hchecks, hof, hanswers⟩ := verdicts_cover.1 (fun _ _ => false)
      (some (.ok everywhere)) [] (gated true) [['a']] [succeeded ['a'] true] gatedStanding
      (gated_rollup true _ List.mem_cons_self) (by decide) hat (by decide +kernel)
    have hread : [succeeded ['a'] true].mapM (checkOf ['c']) =
        .ok [success ['c'] ['a'] true] := by
      decide +kernel
    obtain rfl := Except.ok.inj (hread.symm.trans hchecks)
    exact hanswers.passesOver hof (by decide +kernel)
  · obtain ⟨hof, hanswers⟩ := verdicts_cover.2 ⟨[['a']], [], none, none⟩ watcher
      (looking ⟨[['a']], [], none, none⟩ ⟨[success ['c'] ['a'] true], true⟩)
      ⟨[success ['c'] ['a'] true], true⟩ [success ['c'] ['a'] true] .passed rfl (by decide)
      (by decide +kernel) (by decide +kernel) rfl (by decide +kernel)
    exact hanswers.passesOver hof (by decide +kernel)

end Unread

end Onevcs.Standings
