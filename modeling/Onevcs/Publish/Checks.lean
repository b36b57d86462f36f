import Mathlib.Data.Char
import Mathlib.Data.List.Lex
import Mathlib.Data.List.Dedup
import Mathlib.Data.List.MinMax
import Mathlib.Data.List.Sort
import Onevcs.Foundations.Lines

/-!
# A host's checks

`host.rs`'s `Check`, and what `publish.rs` makes of one answer about a change's checks: what
of it is about the pushed commit, what the host declares a merge requires, and where each
required check stands. A check's address on the host, when it completed and its log, which
no decision reads, are left out.
-/

namespace Onevcs.Publish

open Foundations (Text)

/-! ## Checks -/

inductive CheckState
  | passed
  | failed
  | skipped
  | pending
  | noVerdict
  deriving DecidableEq

/-- `Check`: one check the host reports on a change request. -/
structure Check where
  name : Text
  status : Text
  conclusion : Option Text
  required : Bool
  head : Option Text
  startedAt : Option Text
  deriving DecidableEq

def toAsciiLowercase (text : Text) : Text := text.map Char.toLower

/-- `Check::settled`: whether this check has reached a terminal state. -/
def Check.settled (check : Check) : Bool :=
  toAsciiLowercase check.status == "completed".toList

/-- `Check::state`: which of the five states this check is in. -/
def Check.state (check : Check) : CheckState :=
  if !check.settled then .pending
  else
    match check.conclusion.map toAsciiLowercase with
    | some conclusion =>
      if conclusion = "success".toList ∨ conclusion = "neutral".toList then .passed
      else if conclusion = "skipped".toList then .skipped
      else if conclusion = "cancelled".toList ∨ conclusion = "stale".toList then .noVerdict
      else .failed
    | none => .failed

/-- `ChangeChecks`: the checks the host reports, and whether they are its whole rollup. -/
structure ChangeChecks where
  checks : List Check
  complete : Bool

/-- `Reported`: what a host's answer about a change request says about one commit. -/
inductive Reported
  | about (checks : List Check)
  | notYet

/-- `is_about`: whether one check is the host's answer about `commit`. -/
def isAbout (check : Check) (commit : Text) : Bool :=
  match check.head with
  | some head => head == commit
  | none => true

/-- `Reported::of`: one host answer, as what it says about `commit`. -/
def Reported.of (answered : List Check) (commit : Text) : Reported :=
  let about := answered.filter fun check => isAbout check commit
  if about.isEmpty && !answered.isEmpty then .notYet else .about about

/-- `Reported::checks`: the checks that are about the commit. -/
def Reported.checks : Reported → List Check
  | .about checks => checks
  | .notYet => []

/-- `Reading`: one answer of the host, narrowed to the pushed commit. -/
structure Reading where
  reported : Reported
  complete : Bool

/-- What a method of the host refuses with: whether the host was never taught to answer it,
and how the error is said. -/
structure HostError where
  notImplemented : Bool
  said : Text
  deriving DecidableEq

/-- `RequiredChecks`: the checks the host names as required, and each source it could not
read. -/
structure RequiredChecks where
  checks : List Text
  unconsulted : List Text

/-- `Declared`: which checks a repository requires before a merge, as far as the host
said. -/
inductive Declared
  | nothing
  | names (names : List Text)
  | unknown (because : Text)
  deriving DecidableEq

/-- `join(" or ")`, of the sources that could not be read. -/
def joinOr : List Text → Text
  | [] => []
  | [source] => source
  | source :: sources => source ++ " or ".toList ++ joinOr sources

/-- `declared_required`: what the host says it requires before a merge into `base`. -/
def declaredRequired (base : Text) : Except HostError RequiredChecks → Declared
  | .ok answer =>
    if answer.checks.isEmpty && answer.unconsulted.isEmpty then .nothing
    else if !answer.checks.isEmpty then .names answer.checks
    else
      .unknown ("the host could not read ".toList ++ joinOr answer.unconsulted ++
        " for which checks a merge into ".toList ++ base ++ " requires".toList)
  | .error refused =>
    .unknown ("the host would not say which checks a merge into ".toList ++ base ++
      " requires: ".toList ++ refused.said)

/-- `Declared::sharpened`: a complete answer whose checks are none of them required, read as
the host's answer that nothing is. -/
def Declared.sharpened (declared : Declared) (checks : List Check) (complete : Bool) :
    Declared :=
  match declared with
  | .unknown because =>
    if complete && !checks.isEmpty && checks.all (fun check => !check.required) then .nothing
    else .unknown because
  | .names listed => .names listed
  | .nothing => .nothing

/-- `Declared::given`: this answer, sharpened by one reading. -/
def Declared.given (declared : Declared) (reading : Reading) : Declared :=
  match reading.reported with
  | .about checks => declared.sharpened checks reading.complete
  | .notYet => declared

/-- The host did not say what it requires. -/
def Declared.isUnknown : Declared → Bool
  | .unknown _ => true
  | .nothing | .names _ => false

/-! ## Where the required checks stand -/

/-- `Standing`: where one required check stands in a reading. -/
structure Standing where
  name : Text
  state : Option CheckState
  check : Option Check

/-- A `BTreeSet` of what was collected, in its order. -/
def collected (names : List Text) : List Text :=
  names.dedup.insertionSort (· ≤ ·)

/-- The names `standings` answers for. -/
def requiredNames (checks : List Check) : Declared → List Text
  | .names listed => listed
  | .nothing => []
  | .unknown _ => collected ((checks.filter fun check => check.required).map Check.name)

/-- `rank`: how decisive a state is, the most decisive first. -/
def CheckState.rank : CheckState → Nat
  | .failed => 0
  | .pending => 1
  | .passed => 2
  | .noVerdict => 3
  | .skipped => 4

/-- The entry that decides where the check of a name stands. -/
def decided (checks : List Check) (name : Text) : Option Check :=
  (checks.filter fun check => check.name == name).argmin fun check => check.state.rank

/-- `standings`: each required check's standing in `checks`. -/
def standings (checks : List Check) (declared : Declared) : List Standing :=
  (requiredNames checks declared).map fun name =>
    { name
      state := (decided checks name).map Check.state
      check := decided checks name }

/-- `red`: the standings' red one, where a required check concluded red. -/
def red (standing : List Standing) : Option Check :=
  (standing.find? fun standing => standing.state == some .failed).bind Standing.check

/-- A standing that does not hold the change: the check passed or was skipped. -/
def Standing.through (standing : Standing) : Bool :=
  standing.state == some .passed || standing.state == some .skipped

/-- `lets_through`: whether `standing` lets the change through. -/
def letsThrough (standing : List Standing) (declared : Declared) : Bool :=
  (declared == .nothing || !standing.isEmpty) && standing.all Standing.through

/-- `skipped_in`: the required checks that concluded skipped, by name. -/
def skippedIn (standing : List Standing) : List Text :=
  (standing.filter fun standing => standing.state == some .skipped).map Standing.name

inductive ChecksVerdict
  | failed (names : List Text)
  | noneRequired
  | passed
  | passedWithSkipped (names : List Text)
  | pending (names : List Text)
  deriving DecidableEq

/-- `verdict_of`: the verdict one reading's standing gives. -/
def verdictOf (standing : List Standing) (declared : Declared) : ChecksVerdict :=
  let named (wanted : Option CheckState → Bool) : List Text :=
    (standing.filter fun standing => wanted standing.state).map Standing.name
  let failed := named (· == some .failed)
  if !failed.isEmpty then .failed failed
  else if declared == .nothing && standing.isEmpty then .noneRequired
  else if letsThrough standing declared then
    let skipped := skippedIn standing
    if skipped.isEmpty then .passed else .passedWithSkipped skipped
  else
    .pending (named fun state =>
      state == none || state == some .pending || state == some .noVerdict)

/-- `checks_verdict`: the verdict of every check reported on one commit, against what the host
declares. -/
def checksVerdict (checks : List Check) (declared : Declared) (complete : Bool) : ChecksVerdict :=
  let declared := declared.sharpened checks complete
  verdictOf (standings checks declared) declared

section Standings

variable {checks : List Check} {declared : Declared} {name : Text}

@[simp] theorem mem_collected {names : List Text} : name ∈ collected names ↔ name ∈ names := by
  rw [collected, List.mem_insertionSort, List.mem_dedup]

theorem mem_requiredNames_unknown {because : Text} :
    name ∈ requiredNames checks (.unknown because) ↔
      ∃ check ∈ checks, check.required = true ∧ check.name = name := by
  simp only [requiredNames, mem_collected, List.mem_map, List.mem_filter, and_assoc]

theorem mem_standings {standing : Standing} :
    standing ∈ standings checks declared ↔
      standing.name ∈ requiredNames checks declared ∧
        standing.check = decided checks standing.name ∧
        standing.state = (decided checks standing.name).map Check.state := by
  rw [standings, List.mem_map]
  constructor
  · rintro ⟨name, hname, rfl⟩
    exact ⟨hname, rfl, rfl⟩
  · rintro ⟨hname, hcheck, hstate⟩
    refine ⟨standing.name, hname, ?_⟩
    rw [← hstate, ← hcheck]

theorem decided_mem {check : Check} (h : decided checks name = some check) :
    check ∈ checks ∧ check.name = name := by
  have hmem := List.argmin_mem (Option.mem_def.mpr h)
  simpa using List.mem_filter.mp hmem

theorem decided_le {check other : Check} (h : decided checks name = some check)
    (hother : other ∈ checks) (hname : other.name = name) :
    check.state.rank ≤ other.state.rank := by
  have hentry : other ∈ checks.filter fun check => check.name == name := by
    simp [hother, hname]
  rw [decided] at h
  exact List.le_of_mem_argmin (f := fun check : Check => check.state.rank) hentry h

theorem decided_of_mem {check : Check} (hcheck : check ∈ checks) (hname : check.name = name) :
    ∃ entry, decided checks name = some entry := by
  rw [← Option.ne_none_iff_exists']
  intro hnone
  rw [decided, List.argmin_eq_none, List.filter_eq_nil_iff] at hnone
  exact hnone check hcheck (by simp [hname])

theorem exists_of_state {standing : Standing} {state : CheckState}
    (h : standing ∈ standings checks declared) (hstate : standing.state = some state) :
    ∃ check ∈ checks, check.name = standing.name ∧ check.state = state := by
  obtain ⟨-, -, hat⟩ := mem_standings.mp h
  rw [hat, Option.map_eq_some_iff] at hstate
  obtain ⟨check, hdecided, hcheck⟩ := hstate
  obtain ⟨hmem, hname⟩ := decided_mem hdecided
  exact ⟨check, hmem, hname, hcheck⟩

theorem not_red_of_through {standing : Standing} (h : standing ∈ standings checks declared)
    (hthrough : standing.through = true) {check : Check} (hcheck : check ∈ checks)
    (hname : check.name = standing.name) :
    check.state ≠ .failed ∧ check.state ≠ .pending := by
  obtain ⟨-, -, hat⟩ := mem_standings.mp h
  obtain ⟨entry, hdecided⟩ := decided_of_mem hcheck hname
  have hle := decided_le hdecided hcheck hname
  rw [Standing.through, hat, hdecided] at hthrough
  cases hentry : entry.state <;> cases hstate : check.state <;>
    simp_all [CheckState.rank]

end Standings

end Onevcs.Publish
