import Mathlib.Data.List.Sort
import Mathlib.Data.PNat.Defs
import Onevcs.Foundations.Utf8
import Onevcs.Publish.Deferred
import Onevcs.Retire.Judge

/-!
# Whether a branch's work landed

`decide` of `landed.rs`: three tiers that each may find a landing, and the comparison of content
below them.

A repository is asked as in `Retire.Judge`, and answers some more: what a merge of two commits
would be, and the commits of a range in the order `git log` lists them. What merges, and that
order, are git's. A URL is taken apart by a function of it.
-/

namespace Onevcs.Landings

open Foundations (Text lines)
open Retire (Commits View Path trim mergeBase knownToReach readListing)
open Store (splitOnce)

/-- A repository, with what git makes of a merge, where it is clean, and the order in which it
lists a range, the oldest first. -/
structure Repository (κ ε : Type) [DecidableEq κ] extends Commits κ ε where
  mergeTree : κ → κ → Option (List (Path × ε))
  log : κ → κ → List κ
  log_perm : ∀ base branch, (log base branch).Perm (history.beyond [base] branch)

/-- What is put to git beside the questions of `Retire.Question`. -/
inductive Query (κ : Type)
  | mergeTree (landing commit : κ)
  | quiet (first second : κ)
  | count (first second : κ)

/-- A repository as it is asked, and what git says where it refuses. -/
structure Asked (κ : Type) extends View κ where
  declines : Query κ → Option String

/-- `LandingEvidence`, of the tiers that are asked. -/
inductive Evidence (κ : Type)
  | recordedLanding (commit : κ)
  | changeRequest (commit : κ) (changeUrl : Text)
  | trailer (commit : κ)

def Evidence.commit {κ : Type} : Evidence κ → κ
  | .recordedLanding commit => commit
  | .changeRequest commit _ => commit
  | .trailer commit => commit

/-- The tier the evidence is of, the most certain first. -/
def Evidence.tier {κ : Type} : Evidence κ → ℕ
  | .recordedLanding _ => 1
  | .changeRequest .. => 2
  | .trailer _ => 3

inductive Landed (κ : Type)
  | yes (evidence : Evidence κ)
  | inPart (evidence : Evidence κ) (unlanded : ℕ+)
  | no
  | unknown

structure Recorded (κ : Type) where
  landing : Option (Retire.RecordedLanding κ)
  change : Option Text

/-- The keys of `Trailers`, under one prefix. -/
structure Trailers where
  start : Text

namespace Trailers

def incomplete (trailers : Trailers) : Text := trailers.start ++ "Status: incomplete".toList

def recovered (trailers : Trailers) : Text := trailers.start ++ "Recovered-Incomplete:".toList

def landed (trailers : Trailers) : Text := trailers.start ++ "Landed-Commit:".toList

end Trailers

/-! ## Subjects -/

def trimEnd (text : Text) : Text := text.rdropWhile Store.isWhitespace

/-- What `log_messages` makes of a message: it ends where a record separator does, and one that is
blank is no record. -/
def record (message : Text) : Option Text :=
  let value := (message.takeWhile (· != '\x1e')).rdropWhile (· == '\n')
  if value.isEmpty then none else some (trimEnd value)

/-- The first line of a message. -/
def subjectOf (message : Text) : Option Text := (lines message).head?

def significance (subject : Text) : ℕ :=
  let kind := ((splitOnce ':' subject).map Prod.fst).getD []
  if '!' ∈ kind then 6
  else
    let kind := kind.takeWhile (· != '(')
    if kind = "feat".toList then 5
    else if kind = "fix".toList then 4
    else if kind = "perf".toList then 3
    else if kind = "refactor".toList then 2
    else if kind ∈ ["docs".toList, "test".toList, "build".toList, "ci".toList, "style".toList] then 1
    else 0

/-- `SUBJECT_LIMIT`, in bytes. -/
def subjectLimit : ℕ := 120

def isProvenance (trailers : Trailers) (message : Text) : Bool :=
  [trailers.incomplete, "(incomplete step)".toList, trailers.recovered, trailers.landed].any
    fun mark => mark <:+: message

/-- The subject `publication_subject` finds among messages. -/
def publicationSubject (trailers : Trailers) (messages : List Text) : Option Text :=
  let describing := messages.filter fun message => !isProvenance trailers message
  let ranked := (describing.filterMap subjectOf).insertionSort fun subject next =>
    significance next ≤ significance subject
  ranked.find? fun subject => (Foundations.utf8.encodeAll subject).length ≤ subjectLimit

section Change

variable (parseUrl : Text → Option Review.ParsedUrl)

/-- The owner and the number of a pull request's URL. -/
def ownerAndNumber (url : Text) : Option (Text × Text) := do
  let parsed ← parseUrl url
  let segments := (← parsed.segments).filter fun segment => !segment.isEmpty
  match segments with
  | [owner, _, pull, number] =>
    if pull = "pull".toList && number.all Char.isDigit then some (owner, number) else none
  | _ => none

/-- A subject names a change request of another repository. -/
def namesAnother (repository subject : Text) : Bool :=
  ((subject.splitOnP fun c => Store.isWhitespace c || c ∈ "()[]<>\"'".toList).filterMap fun word =>
      Publish.Deferred.changeRepository parseUrl (word.rdropWhile fun c => c ∈ [',', '.', ';'])).any
    fun named => Review.lowercase named != Review.lowercase repository

def namesTheChange {κ : Type} (history : List (κ × Text)) (url branch : Text) : Option κ := do
  let repository ← Publish.Deferred.changeRepository parseUrl url
  let (owner, number) ← ownerAndNumber parseUrl url
  let squash := "(#".toList ++ number ++ [')']
  let merge := "Merge pull request #".toList ++ number ++ " from ".toList ++ owner ++ '/' :: branch
  let named ← history.find? fun (_, message) =>
    let subject := trimEnd ((subjectOf message).getD [])
    !namesAnother parseUrl repository subject && (squash.isSuffixOf subject || subject == merge)
  return named.1

end Change

section Questions

variable {κ ε : Type} [DecidableEq κ] [DecidableEq ε] (G : Repository κ ε) (repo : Asked κ)

/-- An answer, unless git refuses the question. -/
def query {α : Type} (question : Query κ) (answer : α) : Except String α :=
  match repo.declines question with
  | some said => .error said
  | none => .ok answer

/-- The commits of a range that `log_messages` reads, with their messages: none of them where a
message is not text. -/
def messages (base branch : κ) : List (κ × Text) :=
  if (G.log base branch).all fun commit => (G.message commit).isSome then
    (G.log base branch).filterMap fun commit =>
      ((G.message commit).bind record).map fun message => (commit, message)
  else []

def logMessages (base branch : κ) : Except String (List (κ × Text)) :=
  repo.toView.ask (.messages base branch) (messages G base branch)

/-- Merging a commit into a landing is clean and changes nothing. -/
def Integrates (landing commit : κ) : Prop := G.mergeTree landing commit = some (G.tree landing)

instance (landing commit : κ) : Decidable (Integrates G landing commit) :=
  inferInstanceAs (Decidable (_ = _))

def alreadyIntegrates (landing commit : κ) : Except String Bool :=
  query repo (.mergeTree landing commit) (decide (Integrates G landing commit))

def treesDiffer (base branch : κ) : Except String Bool :=
  query repo (.quiet base branch) (decide (G.tree base ≠ G.tree branch))

/-- `git::known_to_carry_changes`: over the paths a commit touched, where the listing of them came
back whole, and over whole trees where it did not. -/
def knownToCarryChanges (base fork commit : κ) : Except String Bool := do
  let touched ← repo.toView.ask (.changed fork commit) (readListing (G.diff fork commit))
  let count ← query repo (.count fork commit) (G.diff fork commit).length
  if touched.length ≠ count then return !(← treesDiffer G repo base commit)
  else if touched = [] then return true
  else
    repo.toView.ask (.among commit base) (decide (∀ path ∈ G.diff commit base,
      ∀ named ∈ touched, ¬ named.isPrefixOf path = true))

/-! ## The tiers -/

/-- What a tier comes to: it answers yes, or leaves the landing kept so far to the next. -/
inductive Verdict (κ : Type)
  | yes (evidence : Evidence κ)
  | kept (evidence : Option (Evidence κ))

/-- A tier, and what follows where it does not answer. -/
def Verdict.orElse (verdict : Except String (Verdict κ))
    (next : Option (Evidence κ) → Except String (Landed κ)) : Except String (Landed κ) :=
  verdict >>= fun
    | .yes evidence => .ok (.yes evidence)
    | .kept evidence => next evidence

variable (compared tip : κ)

/-- `landed_all_of` of a landing that was found: a yes, or kept unless one already is. -/
def weigh (kept : Option (Evidence κ)) (evidence : Evidence κ) : Except String (Verdict κ) := do
  if ← alreadyIntegrates G repo evidence.commit tip then return .yes evidence
  else return .kept (kept.or (some evidence))

def recordedTier (recorded : Recorded κ) : Except String (Verdict κ) :=
  match recorded.landing with
  | none => .ok (.kept none)
  | some landing => do
    if ← knownToReach G.toCommits repo.toView landing.commit compared then
      weigh G repo tip none (.recordedLanding landing.commit)
    else return .kept none

def changeTier (parseUrl : Text → Option Review.ParsedUrl) (branch : Text) (recorded : Recorded κ)
    (history : List (κ × Text)) (kept : Option (Evidence κ)) : Except String (Verdict κ) :=
  match recorded.change with
  | none => .ok (.kept kept)
  | some url =>
    match namesTheChange parseUrl history url branch with
    | none => .ok (.kept kept)
    | some commit => weigh G repo tip kept (.changeRequest commit url)

/-- The commits of a history that carry a landing trailer, each with the commit it names. -/
def carriers (trailers : Trailers) (history : List (κ × Text)) : List (κ × κ) :=
  history.flatMap fun (commit, message) =>
    (G.trailerValues message trailers.landed).map fun carried => (commit, carried)

def trailerTier : Option (Evidence κ) → List (κ × κ) → Except String (Verdict κ)
  | kept, [] => .ok (.kept kept)
  | kept, (commit, carried) :: rest => do
    if ← knownToReach G.toCommits repo.toView carried tip then
      match ← weigh G repo tip kept (.trailer commit) with
      | .yes evidence => return .yes evidence
      | .kept kept => trailerTier kept rest
    else trailerTier kept rest

/-- The loop of `unlanded_above`, after the tip. -/
def unlandedWalk (landing : κ) : List κ → Except String ℕ
  | [] => .ok 0
  | commit :: rest => do
    if ← alreadyIntegrates G repo landing commit then return 0
    else return (← unlandedWalk landing rest) + 1

/-- `unlanded_above`: the tip is counted without being asked about. -/
def unlandedAbove (fork landing : κ) : Except String ℕ+ := do
  let history ← logMessages G repo fork tip
  let above ← unlandedWalk G repo landing ((history.map Prod.fst).reverse.drop 1)
  return above.succPNat

def unresolved (known : Option κ) : Except String (Landed κ) :=
  match known with
  | none => .ok .no
  | some base => do
    if ← knownToReach G.toCommits repo.toView base compared then return .no else return .unknown

def inferred (known : Option κ) (carried : Bool) : Except String (Landed κ) :=
  if carried then .ok .unknown else unresolved G repo compared known

def alreadyTookThisChange (trailers : Trailers) (fork : κ) (history : List (κ × Text)) :
    Except String Bool := do
  match publicationSubject trailers ((← logMessages G repo fork tip).map Prod.snd) with
  | none => return false
  | some subject =>
    return (history.filterMap fun (_, message) => subjectOf message).any fun landed =>
      Store.trim landed == subject

def compareContent (known : Option κ) (trailers : Trailers) (fork : κ)
    (history : List (κ × Text)) : Except String (Landed κ) := do
  if ← knownToCarryChanges G repo compared fork tip then return .unknown
  else if ← alreadyTookThisChange G repo tip trailers fork history then return .unknown
  else unresolved G repo compared known

variable (parseUrl : Text → Option Review.ParsedUrl) (branch : Text) (known : Option κ)
  (recorded : Recorded κ) (trailers : Trailers)

/-- What `decide` answers once the tiers have been asked. -/
def conclude (fork : κ) (history : List (κ × Text)) :
    Option (Evidence κ) → Except String (Landed κ)
  | some evidence => do
    return .inPart evidence (← unlandedAbove G repo tip fork evidence.commit)
  | none => compareContent G repo compared tip known trailers fork history

/-- `decide`, of a branch whose history parts company with the base's somewhere. -/
def decideFrom (fork : κ) : Except String (Landed κ) :=
  Verdict.orElse (recordedTier G repo compared tip recorded) fun kept => do
    let history ← logMessages G repo fork compared
    Verdict.orElse (changeTier G repo tip parseUrl branch recorded history kept) fun kept =>
      Verdict.orElse (trailerTier G repo tip kept (carriers G trailers history)) fun kept =>
        conclude G repo compared tip known trailers fork history kept

def Landed.decide : Except String (Landed κ) := do
  match ← mergeBase G.toCommits repo.toView compared tip with
  | none => inferred G repo compared known (!(← treesDiffer G repo compared tip))
  | some fork => decideFrom G repo compared tip parseUrl branch known recorded trailers fork

/-- The repository can show that a commit reaches another. -/
def Shown (descendant ancestor : κ) : Prop :=
  repo.has ancestor = true ∧ repo.has descendant = true ∧ G.history.Reaches descendant ancestor

/-- A tier finds a landing: one that was recorded and that the base reaches; a commit of the base
since the fork that names the change request; or one that carries a trailer naming a commit of
the branch. -/
def Found : Evidence κ → Prop
  | .recordedLanding commit =>
    (∃ landing, recorded.landing = some landing ∧ landing.commit = commit) ∧
      Shown G repo compared commit
  | .changeRequest commit url => recorded.change = some url ∧
      ∃ fork, G.history.mergeBase compared tip = some fork ∧
        namesTheChange parseUrl (messages G fork compared) url branch = some commit
  | .trailer commit => ∃ fork, G.history.mergeBase compared tip = some fork ∧
      ∃ carried, (commit, carried) ∈ carriers G trailers (messages G fork compared) ∧
        Shown G repo tip carried

end Questions

end Onevcs.Landings
