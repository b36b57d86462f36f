import Onevcs.Foundations.History
import Onevcs.Foundations.Refs
import Onevcs.Foundations.Transition

/-!
# An import

`import.rs`'s `run`: a branch is fetched into a scratch ref of the destination, judged there,
and the destination's ref is pointed at it. Each call of git is an event of its own, and
between any two of them other processes move refs and check branches out. The history is one
that may hold any commit, and the commits a fetch brings are its answer.

Beside what the code keeps, the state has what each write found at the moment it was made, and
where the branch would be if the import had written nothing.
-/

namespace Onevcs.Import

open Foundations

variable {κ : Type}

/-- The name git prints for a branch that is checked out: its short name, a longer one where
the short one could be another ref's, or its whole name. -/
def abbrevRef (refs : Refs κ) (branch : Text) : Text :=
  if ((spellings branch).erase (headRef branch)).all fun full => (refs full).isNone then branch
  else
    let longer := ['h', 'e', 'a', 'd', 's', '/'] ++ branch
    if ((spellings longer).erase (headRef branch)).all fun full => (refs full).isNone then longer
    else headRef branch

/-- `current_branch`: what a worktree has checked out. -/
def currentBranch (refs : Refs κ) (head : Option Text) : Text :=
  head.elim ['H', 'E', 'A', 'D'] (abbrevRef refs)

/-- `Source`: where an import reads the branch from. -/
inductive Source
  | repository (path : Text)
  | remote (remote branch : Text)

/-- `Wrote`: what the import did to the name. -/
inductive Wrote
  | created
  | fastForwarded
  | unchanged

structure Imported (κ : Type) where
  source : Source
  tip : κ
  wrote : Wrote

/-- Why an import answers an error. -/
inductive Refusal (κ : Type)
  | source (said : Text)
  | checkedOut
  | noBranch
  | unreadable
  | rewrite (losing : List κ)
  | git

/-- Where an import is. -/
inductive Phase (κ : Type)
  | started
  | sourced (source : Source)
  | unchecked (source : Source)
  | fetched (source : Source)
  | tipped (source : Source) (tip : κ)
  | compared (source : Source) (tip : κ)
  | judged (source : Source) (tip : κ) (wrote : Wrote)
  | answered (answer : Except (Refusal κ) (Imported κ))

/-- A write of the name: where the branch was, whether a worktree had it checked out, and the
commit written. -/
structure Write (κ : Type) where
  before : Option κ
  checkedOut : Bool
  tip : κ

structure State (κ : Type) where
  refs : Refs κ
  /-- What the destination's own worktree has checked out. -/
  head : Option Text
  /-- What its linked worktrees have. -/
  linked : List Text
  phase : Phase κ
  writes : List (Write κ)
  /-- Where the other processes have the branch. -/
  others : Option κ

/-- A worktree of the destination has the branch checked out. -/
def State.checkedOut (s : State κ) (name : Text) : Bool :=
  decide (s.head = some name) || s.linked.contains name

/-! ## The steps -/

/-- A call of the import, with what it is answered, or another process. -/
inductive Event (κ : Type)
  | findSource (answer : Except Text Source)
  | readCurrent
  | fetchIntoRef (brought : Option κ)
  | readTip
  | readHeld
  | refuseARewrite
  | updateRef (accepted : Bool)
  | otherRef (full : Text) (value : Option κ)
  | otherCheckouts (head : Option Text) (linked : List Text)

/-- An answer, its scratch ref removed. -/
def State.finish (s : State κ) (scratch : Text) (answer : Except (Refusal κ) (Imported κ)) :
    State κ :=
  { s with phase := .answered answer, refs := Function.update s.refs scratch none }

def State.write (s : State κ) (name : Text) (tip : κ) : State κ :=
  { s with
    refs := Function.update s.refs (headRef name) (some tip)
    writes := s.writes ++ [⟨s.refs (headRef name), s.checkedOut name, tip⟩] }

variable [DecidableEq κ]

/-- One call of an import of `name`, through a scratch ref, or one step of another process. -/
def step (H : History κ) (name scratch : Text) (s : State κ) : Event κ → Option (State κ)
  | .findSource answer =>
    match s.phase, answer with
    | .started, .ok source => some { s with phase := .sourced source }
    | .started, .error said => some { s with phase := .answered (.error (.source said)) }
    | _, _ => none
  | .readCurrent =>
    match s.phase with
    | .sourced source =>
      if currentBranch s.refs s.head = name then
        some { s with phase := .answered (.error .checkedOut) }
      else some { s with phase := .unchecked source }
    | _ => none
  | .fetchIntoRef brought =>
    match s.phase, brought with
    | .unchecked source, some tip =>
      some { s with
        phase := .fetched source, refs := Function.update s.refs scratch (some tip) }
    | .unchecked _, none => some (s.finish scratch (.error .noBranch))
    | _, _ => none
  | .readTip =>
    match s.phase with
    | .fetched source =>
      match resolve s.refs scratch with
      | some tip => some { s with phase := .tipped source tip }
      | none => some (s.finish scratch (.error .unreadable))
    | _ => none
  | .readHeld =>
    match s.phase with
    | .tipped source tip =>
      match resolve s.refs (headRef name) with
      | none => some { s with phase := .judged source tip .created }
      | some held =>
        if held = tip then some { s with phase := .judged source tip .unchanged }
        else some { s with phase := .compared source tip }
    | _ => none
  | .refuseARewrite =>
    match s.phase with
    | .compared source tip =>
      -- the branch by its short name, as git resolves it now
      match resolve s.refs name with
      | none => some (s.finish scratch (.error .git))
      | some held =>
        if H.Reaches tip held then
          some { s with phase := .judged source tip .fastForwarded }
        else some (s.finish scratch (.error (.rewrite (H.beyond [tip] held))))
    | _ => none
  | .updateRef accepted =>
    match s.phase with
    | .judged source tip wrote =>
      if accepted then some ((s.write name tip).finish scratch (.ok ⟨source, tip, wrote⟩))
      else some (s.finish scratch (.error .git))
    | _ => none
  | .otherRef full value =>
    if full = scratch then none
    else some { s with
      refs := Function.update s.refs full value
      others := if full = headRef name then value else s.others }
  | .otherCheckouts head linked => some { s with head, linked }

/-- A state an import starts in. -/
def Initial (name : Text) (s : State κ) : Prop :=
  s.phase = .started ∧ s.writes = [] ∧ s.others = s.refs (headRef name)

def scratchRef (unique : Text) : Text :=
  refsDir ++ (['o', 'n', 'e', 'v', 'c', 's', '/', 'i', 'm', 'p', 'o', 'r', 't', '/'] ++ unique)

/-- One import of a name among other processes. -/
def importing (H : History κ) (name unique : Text) : System (State κ) (Event κ) where
  Initial := Initial name
  step := step H name (scratchRef unique)

/-- Everything the branch had it has after the write, and no worktree had it checked out. -/
def Write.Keeps (H : History κ) (w : Write κ) : Prop :=
  (∀ held a, w.before = some held → H.Reaches held a → H.Reaches w.tip a) ∧ w.checkedOut = false

/-- No write lost a commit or moved a branch that is checked out, and where an error is
answered the branch is where the other processes have it. -/
def Keeps (H : History κ) (name : Text) (s : State κ) : Prop :=
  (∀ w ∈ s.writes, w.Keeps H) ∧
    ∀ refusal, s.phase = .answered (.error refusal) → s.refs (headRef name) = s.others

/-- The import has looked at the worktrees and has still to write. -/
def Phase.looked : Phase κ → Bool
  | .unchecked _ | .fetched _ | .tipped _ _ | .compared _ _ | .judged _ _ _ => true
  | .started | .sourced _ | .answered _ => false

/-- What a step is to find, and what another process is to leave alone: when the import looks
at the worktrees, the branch is checked out in none that it does not look at, and under no other
name; when it judges the branch, the short name means the branch; and until it writes nobody
checks the branch out, and once it has judged nobody moves it out of what is to be written. -/
def Undisturbed (H : History κ) (name : Text) (s : State κ) : Event κ → Prop
  | .readCurrent =>
    s.linked.contains name = false ∧ (s.head = some name → abbrevRef s.refs name = name)
  | .refuseARewrite => ∀ held, s.refs (headRef name) = some held → resolve s.refs name = some held
  | .otherRef full value =>
    match s.phase with
    | .judged _ tip _ => full = headRef name → ∀ held, value = some held → H.Reaches tip held
    | _ => True
  | .otherCheckouts head linked =>
    s.phase.looked = true → head ≠ some name ∧ linked.contains name = false
  | _ => True

end Onevcs.Import
