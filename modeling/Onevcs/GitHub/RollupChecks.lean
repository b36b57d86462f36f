import Mathlib.Data.String.Basic
import Onevcs.Foundations.Outcome
import Onevcs.Foundations.Transition
import Onevcs.Publish.Checks
import Onevcs.Store.Normalize

/-!
# The checks of a change request's rollup

One reading of a change request's checks is made of two requests: `gh pr view` for the rollup and
the head it is of, and `gh pr checks --required` for which checks block the merge, which the host
answers about the head that it has by then.

The branch may be pushed to and checks may register between any two moments. A check is a value of
a type of the host's, with the name it goes by and whether a merge into the base requires it; each
request sees the checks of the head that are registered so far.
-/

namespace Onevcs.GitHub

open Foundations (System Text)
open Onevcs.Publish (Check toAsciiLowercase)
open Onevcs.Store (isWhitespace)

/-! ## What `gh` answers -/

/-- `gh::Answer`: how a call of `gh` ended. -/
structure Answer where
  code : Option ℤ
  stdout : Text
  stderr : Text

def checksPending : ℤ := 8

/-- `NO_REQUIRED_CHECKS`. -/
def noRequiredChecksPrefix : Text := "no required checks reported on the ".toList

/-- `NO_CHECKS_YET`. -/
def noChecksYetPrefix : Text := "no checks reported on the ".toList

/-- `usable`: whether an answer of `gh pr checks` is one to read. -/
def usable (answer : Answer) : Bool :=
  answer.code == some 0 || answer.code == some checksPending

/-- An answer that failed, said nothing and opens its stderr so. -/
def failsSaying (opening : Text) (answer : Answer) : Bool :=
  answer.code == some 1 && (answer.stdout.dropWhile isWhitespace).isEmpty &&
    opening.isPrefixOf (answer.stderr.dropWhile isWhitespace)

/-- `no_required_checks`: whether `gh pr checks --required` failed by answering "none". -/
def noRequiredChecks (answer : Answer) : Bool := failsSaying noRequiredChecksPrefix answer

/-- `no_checks_yet`: whether it failed by reporting no check at all on the head. -/
def noChecksYet (answer : Answer) : Bool := failsSaying noChecksYetPrefix answer

/-- An entry of the rollup; a field that is absent or is no text is `none`. -/
structure Entry where
  typename : Option Text
  name : Option Text
  context : Option Text
  status : Option Text
  state : Option Text
  conclusion : Option Text
  startedAt : Option Text
  deriving DecidableEq

/-- `statusCheckRollup`, as a view answers it. -/
inductive Rollup
  | absent
  | null
  | noList
  | list (entries : List Entry)

/-- What `gh pr view` answers of a change request's checks. -/
structure RollupView where
  headRefOid : Option Text
  rollup : Rollup

/-- Why the checks of a change request are not read. -/
inductive Unread
  | cannotAddress
  | failed
  | noRollup
  | notAHash (reported : Text)
  | noField (field : Text)
  | unknownState (state : Text)
  | unregistered
  | unsaid

/-! ## The reading -/

def isCommitHash (sha : Text) : Bool :=
  !sha.isEmpty && sha.all fun c => c.isDigit || ('a' ≤ c && c ≤ 'f') || ('A' ≤ c && c ≤ 'F')

/-- A field that says something. -/
def said (field : Option Text) : Option Text := field.filter fun value => !value.isEmpty

def reportedSha (field : Option Text) : Except Unread (Option Text) :=
  match said field with
  | none => .ok none
  | some sha => if isCommitHash sha then .ok (some sha) else .error (.notAHash sha)

/-- `reported_time`: a time that is not the zero one. -/
def reportedTime (field : Option Text) : Option Text :=
  (said field).filter fun time => !"0001-01-01".toList.isPrefixOf time

/-- A field that an entry has to have. -/
def needed (name : String) (field : Option Text) : Except Unread Text :=
  match said field with
  | some value => .ok value
  | none => .error (.noField name.toList)

def toAsciiUppercase (text : Text) : Text := text.map Char.toUpper

/-- The status and the conclusion that a commit status's state stands for. -/
def stateOf (state : Text) : Except Unread (Text × Option Text) :=
  let upper := toAsciiUppercase state
  if upper = "PENDING".toList ∨ upper = "EXPECTED".toList then .ok ("pending".toList, none)
  else if upper = "SUCCESS".toList then .ok ("completed".toList, some "success".toList)
  else if upper = "FAILURE".toList then .ok ("completed".toList, some "failure".toList)
  else if upper = "ERROR".toList then .ok ("completed".toList, some "error".toList)
  else .error (.unknownState state)

/-- `status_context`: one commit status, read as the check it stands for. -/
def statusContext (required : List Text) (head : Option Text) (entry : Entry) :
    Except Unread Check := do
  let name ← needed "context" entry.context
  let (status, conclusion) ← stateOf (← needed "state" entry.state)
  return {
    name, status, conclusion
    required := required.contains name
    head
    startedAt := reportedTime entry.startedAt }

/-- What names an entry that is no commit status. -/
def runName (entry : Entry) : Except Unread Text :=
  match needed "name" entry.name with
  | .ok name => .ok name
  | .error _ => needed "context" entry.context

/-- A check run, or anything else that is no commit status. -/
def checkRun (required : List Text) (head : Option Text) (entry : Entry) : Except Unread Check := do
  let name ← runName entry
  let status ← needed "status" entry.status
  return {
    name
    status := toAsciiLowercase status
    conclusion := (said entry.conclusion).map toAsciiLowercase
    required := required.contains name
    head
    startedAt := reportedTime entry.startedAt }

/-- `check`: one entry of the rollup. -/
def check (required : List Text) (head : Option Text) (entry : Entry) : Except Unread Check :=
  if entry.typename = some "StatusContext".toList then statusContext required head entry
  else checkRun required head entry

section Calls

-- the `name` fields of a JSON list of entries, each `none` where an entry has none
variable (names : Text → Option (List (Option Text)))

/-- `GitHub::required_checks`, made of what `gh pr checks --required` answers. -/
def requiredChecks (answer : Answer) : Except Unread (List Text) :=
  if usable answer then
    match names answer.stdout with
    | none => .error .unsaid
    | some entries => entries.mapM fun name =>
      match said name with
      | some name => .ok name
      | none => .error .unsaid
  else if noRequiredChecks answer then .ok []
  else if noChecksYet answer then .error .unregistered
  else .error .unsaid

/-- What `rollup_checks` makes of the view: the head and the entries whose required ones it asks
next, or `none` where there is no check to ask about. -/
def rollupView (view : Option RollupView) : Except Unread (Option (Option Text × List Entry)) := do
  let some view := view | .error .failed
  let head ← reportedSha view.headRefOid
  match view.rollup with
  | .absent => .error .noRollup
  | .null => return none
  | .noList => .error .noRollup
  | .list [] => return none
  | .list entries => return some (head, entries)

/-- `GitHub::rollup_checks`, made of what the two calls answer. -/
def rollupChecks (view : Option RollupView) (answer : Answer) : Except Unread (List Check) := do
  match ← rollupView view with
  | none => return []
  | some (head, entries) =>
    let required ← requiredChecks names answer
    entries.mapM (check required head)

end Calls

/-! ## Readings among pushes -/

/-- What a repository's checks are: their names, and which of them a merge into the base
requires. -/
structure Repository (ι : Type) where
  named : ι → Text
  requires : ι → Bool
  /-- The `name` fields of a JSON list of entries, as they are read off its text. -/
  names : Text → Option (List (Option Text))
  /-- Every check the host reports is named. -/
  named_ne : ∀ check, named check ≠ []

/-- A reading that was answered: the checks with what each is to the host, the head that the rollup
was of, and the one that the required names were about. -/
structure Answered (ι : Type) where
  checks : List (ι × Check)
  head : Text
  namesHead : Text

/-- A change request's branch, and a reader of its checks. -/
structure Reader (ι : Type) where
  head : Text
  /-- The checks of each commit that are registered so far. -/
  registered : Text → List ι
  /-- A reading whose rollup was viewed: the view, each entry's check, and the head it was of. -/
  viewed : Option (RollupView × List (ι × Entry) × Text)
  answered : List (Answered ι)

/-- A push, a registration, or a call of `gh` by the reader, with what it answers. -/
inductive Move (ι : Type)
  | push (head : Text)
  | register (commit : Text) (check : ι)
  | view (view : RollupView) (shown : List (ι × Entry))
  | viewFails
  | required (answer : Answer)

namespace Reader

variable {ι : Type} [DecidableEq ι] (repository : Repository ι) (reader : Reader ι)

/-- The entry is the host's of the check. -/
def Shows (check : ι) (entry : Entry) : Prop :=
  check ∈ reader.registered reader.head ∧
    if entry.typename = some "StatusContext".toList then
      entry.context = some (repository.named check)
    else entry.name = some (repository.named check)

instance (check : ι) (entry : Entry) : Decidable (reader.Shows repository check entry) := by
  unfold Shows
  infer_instance

/-- A view of the head, if it names it, with checks that are registered on it. -/
def Views (view : RollupView) (shown : List (ι × Entry)) : Prop :=
  (∀ head ∈ view.headRefOid, head = reader.head) ∧
    (match view.rollup with
      | .list entries => entries = shown.map Prod.snd
      | _ => shown = []) ∧
    ∀ pair ∈ shown, reader.Shows repository pair.1 pair.2

instance (view : RollupView) (shown : List (ι × Entry)) :
    Decidable (reader.Views repository view shown) := by
  unfold Views
  cases view.rollup <;> infer_instance

/-- An answer to which checks are required, about the head of this moment. -/
def Tells (answer : Answer) : Prop :=
  (usable answer = true → ∀ entries ∈ repository.names answer.stdout,
    (∀ check ∈ reader.registered reader.head, repository.requires check = true →
      some (repository.named check) ∈ entries) ∧
    ∀ entry ∈ entries, ∃ check ∈ reader.registered reader.head,
      repository.requires check = true ∧ entry = some (repository.named check)) ∧
  (noRequiredChecks answer = true →
    ∀ check ∈ reader.registered reader.head, repository.requires check = false)

instance (answer : Answer) : Decidable (reader.Tells repository answer) := by
  unfold Tells
  infer_instance

/-- What a reading answers, where it answers. -/
def answering (checks : Except Unread (List Check)) (shown : List (ι × Entry)) (head : Text) :
    List (Answered ι) :=
  match checks with
  | .error _ => reader.answered
  | .ok checks =>
    { checks := (shown.map Prod.fst).zip checks, head, namesHead := reader.head } ::
      reader.answered

/-- One move; `none` where the host would not answer so, or no rollup was viewed. -/
def step : Move ι → Option (Reader ι)
  | .push head => some { reader with head }
  | .register commit check => some
      { reader with
        registered := Function.update reader.registered commit
          (check :: reader.registered commit) }
  | .view view shown =>
    if reader.Views repository view shown then
      match rollupView (some view) with
      | .ok (some _) => some { reader with viewed := some (view, shown, reader.head) }
      | .ok none => some
          { reader with viewed := none, answered := reader.answering (.ok []) [] reader.head }
      | .error _ => some { reader with viewed := none }
    else none
  | .viewFails => some { reader with viewed := none }
  | .required answer =>
    match reader.viewed with
    | none => none
    | some (view, shown, head) =>
      if reader.Tells repository answer then
        some
          { reader with
            viewed := none
            answered := reader.answering (rollupChecks repository.names (some view) answer)
              shown head }
      else none

/-- Readings of one change request's checks, among pushes to its branch. -/
def system : System (Reader ι) (Move ι) where
  Initial reader := reader.viewed = none ∧ reader.answered = []
  step := step repository

end Reader

end Onevcs.GitHub
