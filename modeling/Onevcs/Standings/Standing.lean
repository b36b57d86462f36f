import Onevcs.Standings.Declarations

/-!
# A standings read

`standings/github.rs`'s `standing`: one change request as the host answered it, its state, and
the verdict of its checks against what a merge into its base requires. A field the host left
out is refused. Addresses, which no decision reads, are left out, and so is the record of the
issues a merge closes.
-/

namespace Onevcs.Standings

open Foundations (Text)
open Publish (Check ChecksVerdict Declared checksVerdict toAsciiLowercase)

/-- Why a standings read refuses. -/
inductive Unanswered
  | field (name : Text)
  | check (field : Text)
  | emptyHead
  | mergedWithoutCommit
  | unknownState (said : Text)
  deriving DecidableEq

/-! ## The rollup -/

/-- One context of a rollup, as the host answered it. -/
structure Context where
  typename : Option Text
  name : Option Text
  context : Option Text
  state : Option Text
  status : Option Text
  conclusion : Option Text
  isRequired : Option Bool
  startedAt : Option Text

/-- One page of a rollup's contexts. -/
structure Page where
  nodes : List Context
  hasNextPage : Bool

/-- How many contexts one page has. -/
def pageSize : Nat := 100

/-- The first page of a rollup, as the host answers it. -/
def firstPage (contexts : List Context) : Page :=
  ⟨contexts.take pageSize, decide (pageSize < contexts.length)⟩

def toAsciiUppercase (text : Text) : Text := text.map Char.toUpper

/-- `reported_time`: a time the host gave, neither empty nor its zero time. -/
def reportedTime (time : Option Text) : Option Text :=
  time.filter fun spelled => !spelled.isEmpty && !"0001-01-01".toList.isPrefixOf spelled

/-- A field of a context the host has to say. -/
def said (name : Text) {α : Type} (value : Option α) : Except Unanswered α :=
  value.elim (.error (.check name)) .ok

/-- The status and the conclusion a commit status comes to. -/
def statusOf (state : Text) : Text × Option Text :=
  if toAsciiUppercase state = "SUCCESS".toList then ("completed".toList, some "success".toList)
  else if toAsciiUppercase state = "FAILURE".toList ∨ toAsciiUppercase state = "ERROR".toList then
    ("completed".toList, some "failure".toList)
  else ("pending".toList, none)

/-- A context of the rollup, as a check on the head. -/
def checkOf (head : Text) (context : Context) : Except Unanswered Check := do
  let required ← said "isRequired".toList context.isRequired
  if context.typename = some "StatusContext".toList then
    let name ← said "context".toList context.context
    let state ← said "state".toList context.state
    let (status, conclusion) := statusOf state
    pure ⟨name, status, conclusion, required, some head, reportedTime context.startedAt⟩
  else
    let name ← said "name".toList context.name
    let status ← said "status".toList context.status
    let conclusion := (context.conclusion.filter fun text => !text.isEmpty).map toAsciiLowercase
    pure ⟨name, toAsciiLowercase status, conclusion, required, some head,
      reportedTime context.startedAt⟩

/-- `rollup`: every check the answer has on the head. A head branch that is gone has none. -/
def rollup (head : Text) (contexts : Option Page) : Except Unanswered (List Check) :=
  contexts.elim (.ok []) fun page => page.nodes.mapM (checkOf head)

/-- One change request, as the host answered it. -/
structure Pull where
  baseRefName : Option Text
  headRefName : Option Text
  headRefOid : Option Text
  isDraft : Option Bool
  state : Option Text
  body : Option Text
  /-- Whether the base is still a branch of the origin. -/
  baseRef : Bool
  mergeCommit : Option Text
  mergedAt : Option Text
  contexts : Option Page

inductive ChangeState
  | opened
  | merged (into commit : Text) (landing : Bool) (mergedAt : Option Text)
  | closed (baseDeleted : Bool)
  deriving DecidableEq

structure ChangeStanding where
  body : Text
  base : Text
  headBranch : Text
  head : Text
  draft : Bool
  state : ChangeState
  checks : ChecksVerdict
  deriving DecidableEq

/-- The declarations of a call: what the first query answered, or why it cannot be read whole;
nothing where no query of the call read them. -/
abbrev Required := Option (Except Text Declarations)

/-- `Required::on`: what a merge into the base requires. -/
def Required.on (required : Required) (base : Text) : Declared :=
  match required with
  | some (.ok declarations) => declarations.on base
  | some (.error why) => .unknown why
  | none => .unknown "the repository's declarations were not read on this call".toList

/-- A field of the change request the host has to say. -/
def text (name : Text) {α : Type} (value : Option α) : Except Unanswered α :=
  value.elim (.error (.field name)) .ok

/-- The state the host answered. -/
def stateOf (pull : Pull) (root base : Text) : Except Unanswered ChangeState := do
  let spelled ← text "state".toList pull.state
  let state := toAsciiUppercase spelled
  if state = "OPEN".toList then pure .opened
  else if state = "MERGED".toList then
    match pull.mergeCommit.filter fun oid => !oid.isEmpty with
    | none => throw .mergedWithoutCommit
    | some commit => pure (.merged base commit (base == root) (reportedTime pull.mergedAt))
  else if state = "CLOSED".toList then pure (.closed !pull.baseRef)
  else throw (.unknownState state)

/-- What is declared of a merge into the change request's base. -/
def declaredFor (required : Required) (pull : Pull) (base : Text) : Declared :=
  if pull.baseRef then required.on base else .unknown (base ++ " is gone from the origin".toList)

/-- `standing`: one change request's standing. The rollup is taken for the whole one. -/
def standing (required : Required) (root : Text) (pull : Pull) :
    Except Unanswered ChangeStanding := do
  let base ← text "baseRefName".toList pull.baseRefName
  let head ← text "headRefOid".toList pull.headRefOid
  if head.isEmpty then throw .emptyHead
  else
    let draft ← text "isDraft".toList pull.isDraft
    let state ← stateOf pull root base
    let checks ← rollup head pull.contexts
    let body ← text "body".toList pull.body
    let headBranch ← text "headRefName".toList pull.headRefName
    pure {
      body, base, headBranch, head, draft, state
      checks := checksVerdict checks (declaredFor required pull base) true }

end Onevcs.Standings
