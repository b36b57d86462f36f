import Onevcs.Foundations.Transition
import Mathlib.Logic.Function.Basic

/-!
# The branch names sessions are cut at

`open_with` of `workspace.rs` as far as it names and cuts a branch: `first_free` over
`taken_names` for a proposed name, `continuation` for a pinned one, and the name of the
session's own token where nothing is asked for.

Any number of processes open sessions of one identity. A step is one record read, one
repository's branches listed, one clone made or one branch cut: the search and the cut are
steps of their own, and between them anybody may add a branch, push one, delete one or
remove a clone. What the searches read of origin is what the execution checkout's last
fetch brought. A pin that resumes a session cuts nothing, and is left out.

A search carries along what it misses (`missed`), which the code has no name for: the
branches of a repository it does not list, or cannot, and those that appear where it has
read already.
-/

namespace Onevcs.Sessions.FreshNames

open Foundations (System)

/-- A session's private clone: its run root's, or a pool slot's. -/
inductive Clone
  | run (token : String)
  | slot (number : Nat)
  deriving DecidableEq

/-- Where one identity's branches are. -/
inductive Place
  | checkout (path : String)
  | clone (clone : Clone)
  | origin
  deriving DecidableEq

/-- What a request says of the branch: one to continue or cut as it is spelled, the stem a
proposed name was made into, or nothing but the prefix a derived name is given. -/
inductive Request
  | pinned (branch : String)
  | proposed (stem : String)
  | generated (branchPrefix : String)

/-- One open under way. -/
structure Opening where
  request : Request
  execution : String
  token : String

/-- How far a session is: its branch is there but not its record, or its record is. -/
inductive Stage
  | cutting
  | opened
  | closed
  deriving DecidableEq

/-- A session, and whether its branch was cut fresh rather than continued. -/
structure Session where
  token : String
  clone : Clone
  branch : String
  cut : Bool
  stage : Stage
  deriving DecidableEq

/-- The session was cut fresh, and holds its branch. -/
def Session.holds (x : Session) : Bool := x.cut ∧ x.stage ≠ .closed

/-- A branch where it is carried. -/
abbrev Copy := Place × String

/-- A search of the identity's repositories: those still to read, origin last, the names it
found, and the copies it misses. -/
structure Search where
  unread : List Place
  taken : List String
  missed : List Copy

/-- What a slot still has of its last session when a session is placed on it. -/
inductive Cut
  | fresh
  | keptClone
  | warm

/-- Where a process stands. -/
inductive Phase
  | idle
  | resolved (opening : Opening)
  | fetched (opening : Opening)
  -- reading the session records for the clones to search
  | surveying (opening : Opening) (unread : List String) (clones : List Place)
  | searching (opening : Opening) (search : Search)
  -- the branch is settled, to be cut or continued
  | named (opening : Opening) (branch : String) (cut : Bool) (missed : List Copy)
  | placed (opening : Opening) (branch : String) (cut : Bool) (missed : List Copy) (clone : Clone)
  | recording (token : String)

/-- Every branch anybody carries, what each checkout knows of origin, the sessions (newest
first) and the processes. -/
structure World (π : Type) where
  carries : List Copy
  tracking : String → List String
  sessions : List Session
  process : π → Phase

/-- What an open does next. -/
inductive Act
  | resolve (request : Request) (execution token : String)
  | refresh (hasRemote : Bool)
  | derive
  | survey (listed : List String)
  | read (available : Bool)
  | look (readable : Bool)
  | settle (gone : Bool)
  | place (clone : Clone) (head : Option String) (cut : Cut)
  | cut
  | continued
  | record
  | fail

/-- A step of an open, or of anything else on the host: a branch made, pushed or handed
back, a branch deleted, a clone removed, a session closed. -/
inductive Label (π : Type)
  | act (p : π) (act : Act)
  | gain (copy : Copy)
  | lose (copy : Copy)
  | discard (clone : Clone)
  | close (token : String)

/-- How far a suffix is looked for. -/
def SUFFIXES : Nat := 1000

/-- The stem itself, then the stem with a number. -/
def candidate (stem : String) (nth : Nat) : String :=
  if nth = 1 then stem else stem ++ "-" ++ toString nth

/-- The first candidate that nothing found carries. -/
def firstFree (taken : List String) (stem : String) : Option String :=
  ((List.range' 1 SUFFIXES).map (candidate stem)).find? fun name => decide (name ∉ taken)

/-- The name a session has of its own token. -/
def derived (branchPrefix token : String) : String := branchPrefix ++ "onevcs/" ++ token

/-- The names of the request that are checked before anything is opened. -/
def Request.accepted (usable : String → Bool) : Request → Bool
  | .pinned branch => usable branch
  | .proposed stem => usable stem
  | .generated _ => true

/-- `remote_branches` drops the symbolic ref of origin's default branch. -/
def remoteBranches (tracking : List String) : List String :=
  tracking.filter fun name => decide (name ≠ "HEAD")

/-! ## Missing a copy -/

/-- A copy that appears where the search has read already, or does not read. -/
def Search.miss (copy : Copy) (search : Search) : Search :=
  if copy.1 ∈ search.unread then search else { search with missed := copy :: search.missed }

def Phase.miss (copy : Copy) : Phase → Phase
  | .searching opening search => .searching opening (search.miss copy)
  | .named opening branch cut missed => .named opening branch cut (copy :: missed)
  | .placed opening branch cut missed clone => .placed opening branch cut (copy :: missed) clone
  | phase => phase

section Steps

variable {π : Type} [DecidableEq π] (checkouts : List String) (usable : String → Bool)

namespace World

/-- The process stands elsewhere. -/
def goto (s : World π) (p : π) (phase : Phase) : World π :=
  { s with process := Function.update s.process p phase }

def gain (s : World π) (copy : Copy) : World π :=
  { s with carries := copy :: s.carries, process := fun p => (s.process p).miss copy }

def branches (s : World π) (place : Place) : List String :=
  (s.carries.filter fun copy => decide (copy.1 = place)).map Prod.snd

def recorded (s : World π) (token : String) : Option Session :=
  s.sessions.find? fun x => decide (x.token = token ∧ x.stage ≠ .cutting)

/-- The session of a token that is not recorded yet is given up. -/
def abandon (s : World π) (token : String) : World π :=
  { s with sessions := s.sessions.filter fun x => decide ¬ (x.token = token ∧ x.stage = .cutting) }

/-- A search starts: the registered checkouts, the clones found, and origin. -/
def search (s : World π) (clones : List Place) : Search where
  unread := checkouts.map .checkout ++ clones ++ [.origin]
  taken := []
  missed := s.carries.filter fun copy =>
    decide (copy.1 ∉ checkouts.map .checkout ++ clones ++ [.origin])

/-- Where a search over every repository leads: what it found, with what the execution
checkout knows of origin. A copy that is gone when it is asked for its tip is no copy. -/
def settled (s : World π) (opening : Opening) (search : Search) (gone : Bool) : Phase :=
  let tracking := s.tracking opening.execution
  match opening.request with
  | .proposed stem =>
    let taken := remoteBranches tracking ++ search.taken
    let unseen := s.carries.filter fun copy => decide (copy.1 = .origin ∧ copy.2 ∉ taken)
    match firstFree taken stem with
    | some branch =>
      if usable branch then .named opening branch true (unseen ++ search.missed) else .idle
    | none => .idle
  | .pinned branch =>
    let unseen := s.carries.filter fun copy => decide (copy.1 = .origin ∧ copy.2 ∉ tracking)
    let lost := if gone then s.carries.filter fun copy => decide (copy.2 = branch) else []
    if (branch ∈ search.taken ∧ gone = false) ∨ branch ∈ tracking then
      .named opening branch false []
    else .named opening branch true (unseen ++ lost ++ search.missed)
  | .generated _ => .idle

/-- A session's branch is where its worktree is. -/
def putOn (s : World π) (p : π) (opening : Opening) (clone : Clone) (branch : String)
    (cut : Bool) : World π :=
  { (s.gain (.clone clone, branch)).goto p (.recording opening.token) with
    sessions := ⟨opening.token, clone, branch, cut, .cutting⟩ :: s.sessions }

/-- A clone is made where there is none: it has the branch its lender is on, if it is on
one. -/
def arrive (s : World π) (p : π) (opening : Opening) (branch : String) (cut : Bool)
    (missed : List Copy) (clone : Clone) (head : Option String) : Option (World π) :=
  if s.branches (.clone clone) = [] then
    match head with
    | none => some (s.goto p (.placed opening branch cut missed clone))
    | some head =>
      if head ∈ s.branches (.checkout opening.execution) then
        some ((s.gain (.clone clone, head)).goto p
          (.placed opening branch cut ((.clone clone, head) :: missed) clone))
      else none
  else none

/-- A step of a process that opens a session. -/
def act (s : World π) (p : π) (act : Act) : Option (World π) :=
  match s.process p, act with
  | .idle, .resolve request execution token =>
    if execution ∈ checkouts ∧ request.accepted usable then
      some (s.goto p (.resolved ⟨request, execution, token⟩))
    else none
  | .resolved opening, .refresh hasRemote =>
    let tracking :=
      if hasRemote then
        Function.update s.tracking opening.execution (s.branches .origin)
      else s.tracking
    some { s.goto p (.fetched opening) with tracking := tracking }
  | .fetched opening, .derive =>
    match opening.request with
    | .generated branchPrefix =>
      let branch := derived branchPrefix opening.token
      -- Nothing is searched for a name of the token's own.
      some (s.goto p (if usable branch then .named opening branch true s.carries else .idle))
    | _ => none
  | .fetched opening, .survey listed =>
    match opening.request with
    | .generated _ => none
    | _ =>
      if ∀ x ∈ s.sessions, x.stage ≠ .cutting → x.token ∈ listed then
        some (s.goto p (.surveying opening listed []))
      else none
  | .surveying opening (token :: unread) clones, .read available =>
    let clones :=
      match s.recorded token with
      | some x =>
        if available ∧ .clone x.clone ∉ clones then clones ++ [.clone x.clone] else clones
      | none => clones
    some (s.goto p (.surveying opening unread clones))
  | .surveying opening [] clones, .read _ =>
    some (s.goto p (.searching opening (s.search checkouts clones)))
  | .searching opening ⟨place :: next :: unread, taken, missed⟩, .look readable =>
    let here := s.carries.filter fun copy => decide (copy.1 = place)
    let search : Search :=
      if readable then ⟨next :: unread, s.branches place ++ taken, missed⟩
      else ⟨next :: unread, taken, here ++ missed⟩
    some (s.goto p (.searching opening search))
  | .searching opening ⟨[place], taken, missed⟩, .settle gone =>
    if place = .origin then
      some (s.goto p (s.settled usable opening ⟨[place], taken, missed⟩ gone))
    else none
  | .named opening branch cut missed, .place clone head how =>
    match clone, how with
    | .run token, .fresh =>
      if token = opening.token then s.arrive p opening branch cut missed clone head else none
    | .run _, _ => none
    | .slot _, .fresh => s.arrive p opening branch cut missed clone head
    | .slot _, _ => some (s.goto p (.placed opening branch cut missed clone))
  -- `git` cuts no branch over one its own repository has.
  | .placed opening branch true _ clone, .cut =>
    if (.clone clone, branch) ∈ s.carries then none
    else some (s.putOn p opening clone branch true)
  | .placed opening branch false _ clone, .continued =>
    some (s.putOn p opening clone branch false)
  | .recording token, .record =>
    match s.recorded token with
    | some _ => some ((s.abandon token).goto p .idle)
    | none =>
      some { s.goto p .idle with
        sessions := s.sessions.map fun x =>
          if x.token = token ∧ x.stage = .cutting then { x with stage := .opened } else x }
  | .recording token, .fail => some ((s.abandon token).goto p .idle)
  | _, .fail => some (s.goto p .idle)
  | _, _ => none

def step (s : World π) : Label π → Option (World π)
  | .act p act => s.act checkouts usable p act
  | .gain copy => some (s.gain copy)
  | .lose copy => some { s with carries := s.carries.filter fun c => decide (c ≠ copy) }
  | .discard clone =>
    some { s with carries := s.carries.filter fun c => decide (c.1 ≠ .clone clone) }
  | .close token =>
    some { s with
      sessions := s.sessions.map fun x =>
        if x.token = token ∧ x.stage = .opened then { x with stage := .closed } else x }

/-- No open cuts a name its search missed, and no session cut fresh loses its branch. -/
def unmissed (s : World π) : Label π → Bool
  | .act p .cut =>
    match s.process p with
    | .placed _ branch true missed _ =>
      decide (∀ copy ∈ missed, copy.2 = branch → copy ∉ s.carries)
    | _ => true
  | .lose copy => decide (∀ x ∈ s.sessions, x.holds = true → (.clone x.clone, x.branch) ≠ copy)
  | .discard clone => decide (∀ x ∈ s.sessions, x.holds = true → x.clone ≠ clone)
  | _ => true

end World

/-- Every run of a host whose repositories carry what they will, and that has no session of
the identity yet. -/
def opens (π : Type) [DecidableEq π] (checkouts : List String) (usable : String → Bool) :
    System (World π) (Label π) where
  Initial s := s.sessions = [] ∧ s.process = fun _ => .idle
  step s label := s.step checkouts usable label

end Steps

end Onevcs.Sessions.FreshNames
