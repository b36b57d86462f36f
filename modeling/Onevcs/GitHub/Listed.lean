import Onevcs.Foundations.Digits
import Onevcs.Foundations.Memo
import Onevcs.Foundations.Transition

/-!
# What a listing reads in passing

The host that is driven through `gh`, and its memo: what `gh pr list` or `gh pr view` answered
beside what was asked of it, kept for the one read that asks it next. Answers are kept inside one
operation, spent by the read they answer, and forgotten by two of the writes.

`gh` and the host behind it are the world of the model. What a call hears from `gh` is part of its
label: a read may fail, and where it does not it says what the host has, if not all of it; a write
may be taken or not, and be reported either way.
-/

namespace Onevcs.GitHub

open Foundations (Memo System Text)

structure Description where
  title : Text
  body : Text
  deriving DecidableEq

/-- What one listing said about one change request, each half until it is read, and the
operation it was read in. -/
structure ListedChange where
  operation : ℕ
  draft : Option Bool
  description : Option Description

/-- What was listed, by the change request's id. -/
abbrev Listed := Memo Text ListedChange

namespace Listed

/-- Forget everything kept for `id`. -/
def forget (listed : Listed) (id : Text) : Listed :=
  listed.retain fun other _ => decide (other ≠ id)

/-- Keep what a read said for the rest of the current operation; outside one, keep nothing. -/
def keep (listed : Listed) (operation : Option ℕ) (id : Text) (draft : Option Bool)
    (description : Option Description) : Listed :=
  match operation with
  | some operation => listed.insert id { operation, draft, description }
  | none => listed.forget id

/-- What was kept for `id` in the current operation. -/
def keptNow (listed : Listed) (operation : Option ℕ) (id : Text) : Option ListedChange :=
  operation.bind fun operation => (listed id).filter fun kept => decide (kept.operation = operation)

/-- The draft state kept for `id` in this operation, spent by this read. -/
def takeDraft (listed : Listed) (operation : Option ℕ) (id : Text) : Option Bool × Listed :=
  match listed.keptNow operation id with
  | some kept => (kept.draft, listed.insert id { kept with draft := none })
  | none => (none, listed)

/-- The description kept for `id` in this operation, spent by this read. -/
def takeDescription (listed : Listed) (operation : Option ℕ) (id : Text) :
    Option Description × Listed :=
  match listed.keptNow operation id with
  | some kept => (kept.description, listed.insert id { kept with description := none })
  | none => (none, listed)

end Listed

/-! ## The host, and what `gh` says of it -/

/-- Where a change request stands. -/
inductive ChangeState
  | opened
  | closed
  | merged

/-- A change request as the host has it. -/
structure Change where
  draft : Bool
  description : Description
  base : Text
  state : ChangeState

/-- The change requests of the repository, by number. -/
abbrev Changes := Memo ℕ Change

/-- How `gh` reads an id that it is given, and which names git accepts for a branch. -/
structure Gh where
  /-- The number of the change request an id names. -/
  names : Text → Option ℕ
  validBranch : Text → Bool
  validUrl : Text → Bool
  /-- A number names its change request. -/
  names_number : ∀ n, names (Nat.toDigits 10 n) = some n

/-- An entry of `gh pr list`; a field that is absent or of another type is `none`. -/
structure Item where
  url : Text
  number : Option ℕ
  headSha : Option Text
  isDraft : Option Bool
  title : Option Text
  body : Option Text

/-- An answer of `gh pr view`. -/
structure View where
  title : Option Text
  body : Option Text
  isDraft : Option Bool

/-- What the fields say is so of a change request, where they say anything. -/
def Reads (title body : Option Text) (isDraft : Option Bool) (change : Change) : Prop :=
  (∀ said ∈ title, said = change.description.title) ∧
    (∀ said ∈ body, said = change.description.body) ∧ ∀ said ∈ isDraft, said = change.draft

instance (title body : Option Text) (isDraft : Option Bool) (change : Change) :
    Decidable (Reads title body isDraft change) :=
  inferInstanceAs (Decidable (_ ∧ _ ∧ _))

/-- The entry is about a change request of the host, and what it says is so. -/
def Item.TrueOf (item : Item) (changes : Changes) : Prop :=
  ∀ n ∈ item.number, ∃ change ∈ changes n, Reads item.title item.body item.isDraft change

instance (item : Item) (changes : Changes) : Decidable (item.TrueOf changes) :=
  inferInstanceAs (Decidable (∀ n ∈ item.number, ∃ change ∈ changes n, _))

/-! ## The calls -/

inductive Refusal
  | cannotAddress (value : Text)
  | notABranch (name : Text)
  | notAUrl (url : Text)
  | noNumber
  | noHead
  | without (field : Text)
  | notANumber (id : Text)
  | scratch
  | failed
  | unmerged

structure ChangeRequest where
  id : Text
  url : Text
  headSha : Text
  base : Text

/-- An id `gh` does not take for an option or for nothing. -/
def addressable (id : Text) : Bool := !id.isEmpty && id.head? != some '-'

def Item.request (gh : Gh) (base : Text) (item : Item) : Except Refusal ChangeRequest :=
  if gh.validUrl item.url then
    match item.number, item.headSha with
    | none, _ => .error .noNumber
    | some _, none => .error .noHead
    | some number, some headSha =>
      .ok { id := Nat.toDigits 10 number, url := item.url, headSha, base }
  else
    .error (.notAUrl item.url)

/-- The description, where the entry carries both halves of one. -/
def Item.description (item : Item) : Option Description :=
  match item.title, item.body with
  | some title, some body => some { title, body }
  | _, _ => none

/-- The entries of a listing, up to the first that cannot be read. -/
def findItems (gh : Gh) (operation : Option ℕ) (base : Text) :
    Listed → List Item → Except Refusal (List ChangeRequest) × Listed
  | listed, [] => (.ok [], listed)
  | listed, item :: rest =>
    match item.request gh base with
    | .error refusal => (.error refusal, listed)
    | .ok request =>
      let found := findItems gh operation base
        (listed.keep operation request.id item.isDraft item.description) rest
      (found.1.map (request :: ·), found.2)

def findChanges (gh : Gh) (operation : Option ℕ) (head base : Text) (heard : Option (List Item))
    (listed : Listed) : Except Refusal (List ChangeRequest) × Listed :=
  if !gh.validBranch head then (.error (.notABranch head), listed)
  else if !gh.validBranch base then (.error (.notABranch base), listed)
  else match heard with
    | none => (.error .failed, listed)
    | some items => findItems gh operation base listed items

/-- A `gh pr view`'s description, keeping its draft state. -/
def View.described (operation : Option ℕ) (id : Text) (view : View) (listed : Listed) :
    Except Refusal Description × Listed :=
  match view.title, view.body with
  | none, _ => (.error (.without "title".toList), listed)
  | some _, none => (.error (.without "body".toList), listed)
  | some title, some body => (.ok { title, body }, listed.keep operation id view.isDraft none)

def changeDescription (operation : Option ℕ) (id : Text) (heard : Option View) (listed : Listed) :
    Except Refusal Description × Listed :=
  if !addressable id then (.error (.cannotAddress id), listed)
  else
    let taken := listed.takeDescription operation id
    match taken.1, heard with
    | some description, _ => (.ok description, taken.2)
    | none, none => (.error .failed, taken.2)
    | none, some view => view.described operation id taken.2

def isDraft (operation : Option ℕ) (id : Text) (heard : Option View) (listed : Listed) :
    Except Refusal Bool × Listed :=
  if !addressable id then (.error (.cannotAddress id), listed)
  else
    let taken := listed.takeDraft operation id
    match taken.1, heard with
    | some draft, _ => (.ok draft, taken.2)
    | none, none => (.error .failed, taken.2)
    | none, some view =>
      match view.isDraft with
      | some draft => (.ok draft, taken.2)
      | none => (.error (.without "isDraft".toList), taken.2)

/-- A write asked of the host: of which change request, and what it makes of it. -/
structure Write where
  number : Option ℕ
  change : Change → Change

def readyForReview (gh : Gh) (id : Text) (listed : Listed) : Except Refusal Write × Listed :=
  if !addressable id then (.error (.cannotAddress id), listed)
  else (.ok { number := gh.names id, change := fun change => { change with draft := false } },
    listed.forget id)

/-- `scratch` says whether the file the body is handed over in could be written. -/
def describeChange (gh : Gh) (id : Text) (title : Option Text) (body : Text) (scratch : Bool)
    (listed : Listed) : Except Refusal Write × Listed :=
  if !addressable id then (.error (.cannotAddress id), listed)
  else if scratch then
    (.ok
      { number := gh.names id
        change := fun change =>
          { change with description := { title := title.getD change.description.title, body } } },
      listed.forget id)
  else (.error .scratch, listed.forget id)

/-- The number of a change request that is addressed by its path. -/
def digits (id : Text) : Option ℕ := Foundations.numeralBelow (2 ^ 64) id

def retargetChange (id base : Text) (body : Option Text) : Except Refusal Write :=
  match digits id with
  | none => .error (.notANumber id)
  | some number => .ok
      { number := some number
        change := fun change =>
          { change with
            base
            description := { change.description with body := body.getD change.description.body } } }

def reopenChange (id : Text) : Except Refusal Write :=
  match digits id with
  | none => .error (.notANumber id)
  | some number =>
    .ok { number := some number, change := fun change => { change with state := .opened } }

inductive MergePolicy
  | localDirect
  | changeOpen
  | changeAuto
  | changeDirect

/-- The write of a merge, or `none` where the policy leaves it to somebody else. -/
def merge (gh : Gh) (id : Text) (policy : MergePolicy) : Except Refusal (Option Write) :=
  match policy with
  | .localDirect | .changeOpen => .ok none
  | .changeAuto | .changeDirect =>
    if !addressable id then .error (.cannotAddress id)
    else .ok (some
      { number := gh.names id, change := fun change => { change with state := .merged } })

/-- The host once it has taken a write. -/
def Write.take (write : Write) (changes : Changes) : Changes :=
  match write.number with
  | none => changes
  | some number =>
    match changes number with
    | none => changes
    | some change => changes.insert number (write.change change)

/-! ## Sequences of calls -/

/-- What a read answered, beside what the host would have answered at that moment. -/
structure Told (α : Type) where
  id : Text
  answer : α
  host : Option α
  /-- The answer was kept, and `gh` was not asked. -/
  recalled : Bool
  /-- It was kept in the operation that is going on. -/
  keptHere : Bool

/-- One `GitHub` value, the thread that uses it, and the host. -/
structure World where
  listed : Listed
  /-- The operation the thread is inside. -/
  operation : Option ℕ
  /-- What each operation that is going on puts back once it returns, innermost first. -/
  outer : List (Option ℕ)
  nextOperation : ℕ
  changes : Changes
  /-- What was kept since the outermost operation began. -/
  kept : List (Text × ListedChange)
  drafts : List (Told Bool)
  descriptions : List (Told Description)

/-- What the world does next, with what `gh` says to it. -/
inductive Act
  | enter
  | leave
  /-- Another thread of the process begins an operation of its own. -/
  | elsewhere
  | findChanges (head base : Text) (heard : Option (List Item))
  | changeDescription (id : Text) (heard : Option View)
  | isDraft (id : Text) (heard : Option View)
  | readyForReview (id : Text) (taken : Bool)
  | describeChange (id : Text) (title : Option Text) (body : Text) (scratch taken : Bool)
  | retargetChange (id base : Text) (body : Option Text) (taken : Bool)
  | reopenChange (id : Text) (taken : Bool)
  | merge (id : Text) (policy : MergePolicy) (taken : Bool)

namespace World

variable (gh : Gh) (world : World)

def named (id : Text) : Option Change := (gh.names id).bind world.changes

/-- What the view says is so of the change request the id names. -/
def Says (id : Text) (view : View) : Prop :=
  ∃ change ∈ world.named gh id, Reads view.title view.body view.isDraft change

instance (id : Text) (view : View) : Decidable (world.Says gh id view) :=
  inferInstanceAs (Decidable (∃ change ∈ world.named gh id, _))

/-- An operation begins: one inside another is part of the outer one. -/
def enter : World :=
  { world with
    operation := some (world.operation.getD world.nextOperation)
    outer := world.operation :: world.outer
    nextOperation :=
      if world.operation.isNone then world.nextOperation + 1 else world.nextOperation
    kept := if world.operation.isNone then [] else world.kept }

def leave : Option World :=
  match world.outer with
  | [] => none
  | before :: outer => some
      { world with
        operation := before
        outer
        kept := if before.isNone then [] else world.kept }

/-- What a call keeps, while an operation is going on. -/
def keeping (entries : List (Text × Option Bool × Option Description)) :
    List (Text × ListedChange) :=
  match world.operation with
  | none => world.kept
  | some operation => entries.map
      (fun entry => (entry.1, { operation, draft := entry.2.1, description := entry.2.2 })) ++
        world.kept

/-- What a listing keeps, entry by entry. -/
def listing (base : Text) : List Item → List (Text × Option Bool × Option Description)
  | [] => []
  | item :: rest =>
    match item.request gh base with
    | .error _ => []
    | .ok request => (request.id, item.isDraft, item.description) :: listing base rest

/-- What a view of a change request keeps, where a description was read from it. -/
def viewing (id : Text) (heard : Option View) : List (Text × Option Bool × Option Description) :=
  match heard with
  | some { title := some _, body := some _, isDraft } => [(id, isDraft, none)]
  | _ => []

/-- The host takes a write that is asked of it, or does not. -/
def asked (write : Except Refusal Write) (listed : Listed) (taken : Bool) : World :=
  match write with
  | .error _ => { world with listed }
  | .ok write =>
    { world with
      listed
      changes := if taken then write.take world.changes else world.changes }

/-- An answer as it is told: `kept` is what the answer was taken from. -/
def telling {α : Type} (id : Text) (answer : Except Refusal α) (host kept : Option α)
    (half : ListedChange → Option α) (told : List (Told α)) [DecidableEq α] : List (Told α) :=
  match answer with
  | .error _ => told
  | .ok answer =>
    { id, answer, host
      recalled := kept.isSome
      keptHere := world.operation.isSome && world.kept.any fun entry =>
        decide (entry.1 = id ∧ half entry.2 = some answer) } :: told

/-- The world after one act; `none` where `gh` would not say that, or no operation is going on
to return. -/
def step : Act → Option World
  | .enter => some world.enter
  | .leave => world.leave
  | .elsewhere => some { world with nextOperation := world.nextOperation + 1 }
  | .findChanges head base heard =>
    if ∀ items ∈ heard, ∀ item ∈ items, item.TrueOf world.changes then
      let found := GitHub.findChanges gh world.operation head base heard world.listed
      let read := if gh.validBranch head && gh.validBranch base then heard.getD [] else []
      some { world with listed := found.2, kept := world.keeping (listing gh base read) }
    else none
  | .changeDescription id heard =>
    if ∀ view ∈ heard, world.Says gh id view then
      let kept := (world.listed.takeDescription world.operation id).1
      let answered := GitHub.changeDescription world.operation id heard world.listed
      some
        { world with
          listed := answered.2
          kept := if addressable id && kept.isNone then world.keeping (viewing id heard)
            else world.kept
          descriptions := world.telling id answered.1
            ((world.named gh id).map (·.description)) kept (·.description) world.descriptions }
    else none
  | .isDraft id heard =>
    if ∀ view ∈ heard, world.Says gh id view then
      let answered := GitHub.isDraft world.operation id heard world.listed
      some
        { world with
          listed := answered.2
          drafts := world.telling id answered.1 ((world.named gh id).map (·.draft))
            (world.listed.takeDraft world.operation id).1 (·.draft) world.drafts }
    else none
  | .readyForReview id taken =>
    let wrote := GitHub.readyForReview gh id world.listed
    some (world.asked wrote.1 wrote.2 taken)
  | .describeChange id title body scratch taken =>
    let wrote := GitHub.describeChange gh id title body scratch world.listed
    some (world.asked wrote.1 wrote.2 taken)
  | .retargetChange id base body taken =>
    some (world.asked (GitHub.retargetChange id base body) world.listed taken)
  | .reopenChange id taken => some (world.asked (GitHub.reopenChange id) world.listed taken)
  | .merge id policy taken =>
    match GitHub.merge gh id policy with
    | .error _ | .ok none => some world
    | .ok (some write) => some (world.asked (.ok write) world.listed taken)

/-- A `GitHub` value that nothing was asked of, over some host. -/
def fresh (changes : Changes) (nextOperation : ℕ) : World where
  listed := Memo.empty
  operation := none
  outer := []
  nextOperation
  changes
  kept := []
  drafts := []
  descriptions := []

end World

/-- The calls of one thread on one `GitHub` value, over a host that nobody else writes to. -/
def system (gh : Gh) : System World Act where
  Initial world := ∃ changes nextOperation, world = World.fresh changes nextOperation
  step world act := world.step gh act

end Onevcs.GitHub
