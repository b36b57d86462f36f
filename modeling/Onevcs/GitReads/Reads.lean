import Onevcs.Foundations.Memo
import Onevcs.Foundations.Transition
import Onevcs.GitReads.Spelling

/-!
# The memo of git reads

The module `reads` of `git.rs`, and what answers from it: `run_unless`, `has_commit`,
`is_ancestor` and the nested scopes of `memoized`, on one thread and outside `unremembered`.

Git is a parameter: what it answers to a command in a world of repositories, and what the native
readers answer in its place. An answer of the native reader of commands, or of a proof kept on disk,
is git's own, and is not told apart from it. The worlds are ordered by growth: between two of them
refs moved, came and went, and objects came. What a command does to the world is an effect that
lets it grow.

What is carried along besides are the world each settled answer was given in, and each answer that
was recalled beside what git answers to the same arguments at that moment.
-/

namespace Onevcs.GitReads

open Foundations (Memo System Text)

/-- What one command is asked with: its directory, its arguments and its environment. -/
structure Key where
  cwd : Option Text
  args : List Text
  env : List (Text × Text)
  deriving DecidableEq

/-- What one command answered. -/
structure Output where
  status : ℤ
  stdout : Text
  stderr : Text
  deriving DecidableEq

/-- `Fact`: one of the two questions answered in process. -/
inductive Fact
  | holds (commit : Text)
  | reaches (ancestor descendant : Text)
  deriving DecidableEq

structure FactKey where
  cwd : Text
  env : List (Text × Text)
  fact : Fact
  deriving DecidableEq

/-! ## Which answers are remembered, and for how long -/

/-- `remembered`: the closed list of reads. -/
def remembered : List Text → Bool
  | [] => false
  | command :: rest =>
    if command = "--exec-path".toList then rest.isEmpty
    else if command = "config".toList then
      rest == ["--null".toList, "--list".toList, "--show-origin".toList]
    else if command = "remote".toList then rest.head? == some "get-url".toList
    else if command = Word.catFile then rest.head? == some Word.exists'
    else if command ∈ [Word.revParse, "show-ref".toList, "for-each-ref".toList, Word.revList,
        Word.mergeBase, Word.log, Word.diff, "check-ref-format".toList] then true
    else if command = "symbolic-ref".toList then
      (rest.filter fun arg => arg.head? != some '-').length == 1
    else false

def harmless (args : List Text) : Bool :=
  args.head? == some "ls-remote".toList || args.head? == some "merge-tree".toList

/-- `settled`: the answer is one of the two that are kept past every write. -/
def settled (args : List Text) (output : Output) : Bool :=
  if args.head? = some Word.catFile ∧ args[1]? = some Word.exists' then output.status == 0
  else if args.head? = some Word.mergeBase ∧ args[1]? = some Word.isAncestor then
    output.status == 0 || output.status == 1
  else false

/-- The arguments that `has_commit` asks with. -/
def holdsArgs (commit : Text) : List Text :=
  [Word.catFile, Word.exists', commit ++ Word.peeledCommit]

/-- The arguments that `is_ancestor` asks with. -/
def reachesArgs (ancestor descendant : Text) : List Text :=
  [Word.mergeBase, Word.isAncestor, ancestor, descendant]

/-- The arguments of the command that answers a fact. -/
def Fact.args : Fact → List Text
  | .holds commit => holdsArgs commit
  | .reaches ancestor descendant => reachesArgs ancestor descendant

/-- The fact is about whole object ids. -/
def Fact.ofIds : Fact → Bool
  | .holds commit => isObjectId commit
  | .reaches ancestor descendant => isObjectId ancestor && isObjectId descendant

/-- The command that answers a fact. -/
def FactKey.key (key : FactKey) : Key := ⟨some key.cwd, key.fact.args, key.env⟩

/-- What `has_commit` and `is_ancestor` read from a command's output: `none` is a failure. -/
def Fact.read : Fact → Output → Option Bool
  | .holds _, output => some (output.status == 0)
  | .reaches _ _, output =>
    if output.status = 0 then some true else if output.status = 1 then some false else none

/-- Git, over worlds of repositories, and the native readers. -/
structure Git (W : Type*) where
  /-- What git answers. -/
  answer : W → Key → Output
  /-- Where the native reader of refs says that a name stands, with the commit peeled. -/
  tip : W → Option Text → List (Text × Text) → Text → Option Text
  /-- What the native reader of objects answers. -/
  native : W → FactKey → Option Bool
  /-- What a revision names. -/
  names : W → Option Text → List (Text × Text) → Text → Option Text
  /-- The arguments in a revision's place are read as revisions. -/
  ReadsRevisions : W → Key → Prop
  /-- Refs may have moved between the worlds, and objects have come. -/
  Grows : W → W → Prop

namespace Git

variable {W : Type*} (git : Git W)

/-- What a command does to the world. -/
structure Effect where
  apply : W → W
  grows : ∀ world, git.Grows world (apply world)

/-- The revision is spelled by an object id. -/
def isSpelledById (revision : Text) : Bool :=
  isObjectId ((stripSuffix Word.peeledCommit revision).getD revision)

/-- The revisions of a command name in one world what they name in another, or are spelled by
object ids. -/
def Stand (key : Key) (world world' : W) : Prop :=
  ∀ revision ∈ key.args.drop 2, isSpelledById revision = true ∨
    git.names world' key.cwd key.env revision = git.names world key.cwd key.env revision

/-- What git and the native readers are relied on for. -/
structure Lawful : Prop where
  grows_refl : ∀ world, git.Grows world world
  grows_trans : ∀ {first second third}, git.Grows first second → git.Grows second third →
    git.Grows first third
  /-- Objects do not go, and ancestry is a fact about two commits. -/
  settles : ∀ {world world' key}, git.Grows world world' →
    settled key.args (git.answer world key) = true → git.Stand key world world' →
    git.answer world' key = git.answer world key
  /-- A native tip is a commit. -/
  tips : ∀ world cwd env, NamesCommits (git.tip world cwd env)
  /-- A revision is answered about as the commit that it stands at. -/
  alike : ∀ {world cwd env command rest rest'},
    SpellsOne (git.tip world cwd env) command rest rest' →
    git.ReadsRevisions world ⟨cwd, command :: rest, env⟩ →
    git.ReadsRevisions world ⟨cwd, command :: rest', env⟩ ∧
      git.answer world ⟨cwd, command :: rest', env⟩ = git.answer world ⟨cwd, command :: rest, env⟩
  /-- The native reader of objects answers as git does. -/
  native : ∀ {world key answer}, git.native world key = some answer →
    key.fact.read (git.answer world key.key) = some answer

/-- The command as it is asked, its revisions spelled by commits. -/
def asked (world : W) (key : Key) : Key :=
  { key with args := GitReads.asked (git.tip world key.cwd key.env) key.args }

end Git

/-! ## The three tables -/

/-- A settled answer, and the world it was given in. -/
structure Settled (W : Type*) where
  output : Output
  world : W

/-- An answer that was recalled, and what git answers to the same arguments at that moment. -/
inductive Recalled
  | output (given now : Output)
  | fact (given : Bool) (now : Option Bool)
  deriving DecidableEq

/-- What was recalled is what git answers. -/
def Recalled.Exact : Recalled → Prop
  | .output given now => given = now
  | .fact given now => some given = now

instance : DecidablePred Recalled.Exact
  | .output given now => inferInstanceAs (Decidable (given = now))
  | .fact given now => inferInstanceAs (Decidable (some given = now))

/-- The repositories, and what the thread remembers. -/
structure State (W : Type*) where
  world : W
  /-- `DEPTH` -/
  depth : ℕ
  /-- `MEMO` -/
  memo : Memo Key Output
  /-- `SETTLED` -/
  settled : Memo Key (Settled W)
  /-- `FACTS` -/
  facts : Memo FactKey Bool
  /-- what was recalled -/
  recalled : List Recalled

/-- A world before any scope is entered. -/
def State.fresh {W : Type*} (world : W) : State W :=
  ⟨world, 0, Memo.empty, Memo.empty, Memo.empty, []⟩

namespace State

variable {W : Type*} (s : State W)

def active : Bool := 0 < s.depth

/-- `forget_absences`: what of the facts is left. -/
def retained (key : FactKey) (answer : Bool) : Bool :=
  match key.fact with
  | .holds _ => answer
  | .reaches _ _ => true

def enter : State W := { s with depth := s.depth + 1 }

def leave : State W :=
  if s.depth = 1 then
    { s with depth := 0, memo := Memo.empty, settled := Memo.empty, facts := Memo.empty }
  else { s with depth := s.depth - 1 }

/-- The answer that `recall` finds. -/
def recallKey (key : Key) : Option Output :=
  if !s.active then none
  else
    match s.settled key with
    | some settled => some settled.output
    | none => if remembered key.args then s.memo key else none

/-- What `recall` leaves remembered where it finds nothing. -/
def unmoved (key : Key) : State W :=
  if s.active && !remembered key.args && !harmless key.args then
    { s with memo := Memo.empty, facts := s.facts.retain retained }
  else s

def remember (key : Key) (output : Output) : State W :=
  if s.active && remembered key.args then
    { s with
      settled :=
        if GitReads.settled key.args output then s.settled.insert key ⟨output, s.world⟩
        else s.settled
      memo := s.memo.insert key output }
  else s

def learn (key : FactKey) (answer : Bool) : State W :=
  if s.active then { s with facts := s.facts.insert key answer } else s

def fact (key : FactKey) : Option Bool := if s.active then s.facts key else none

end State

section Calls

variable {W : Type*} (git : Git W)

/-- `run_unless`: what it answers, and what is left. A stopped command is not remembered. -/
def runUnless (s : State W) (key : Key) (effect : git.Effect) (stopped : Bool) :
    State W :=
  let spelled := git.asked s.world key
  match s.recallKey spelled with
  | some output => { s with recalled := .output output (git.answer s.world key) :: s.recalled }
  | none =>
    let left := if stopped then s.unmoved spelled
      else (s.unmoved spelled).remember spelled (git.answer s.world spelled)
    { left with world := effect.apply s.world }

/-- `has_commit` and `is_ancestor`: a fact about whole ids is recalled, or answered in process and
learned; any other, and one that the native reader does not answer, is asked of git. A recalled fact
needs the checkout's turn. -/
def askFact (s : State W) (key : FactKey) (admitted : Bool) (effect : git.Effect) : State W :=
  match (if key.fact.ofIds && admitted then s.fact key else none) with
  | some answer =>
    { s with recalled := .fact answer (key.fact.read (git.answer s.world key.key)) :: s.recalled }
  | none =>
    match git.native s.world key with
    | some answer => if key.fact.ofIds then s.learn key answer else s
    | none => runUnless git s key.key effect false

/-- One step on the thread. -/
inductive Act
  /-- a scope is entered -/
  | enter
  /-- a scope ends -/
  | leave
  /-- a command is run, with what it does to the world and whether it was stopped -/
  | run (key : Key) (effect : git.Effect) (stopped : Bool)
  /-- a fact is asked -/
  | ask (key : FactKey) (admitted : Bool) (effect : git.Effect)

def thread : System (State W) (Act git) where
  Initial s := ∃ world, s = .fresh world
  step s act :=
    match act with
    | .enter => some s.enter
    | .leave => if s.depth = 0 then none else some s.leave
    | .run key effect stopped => some (runUnless git s key effect stopped)
    | .ask key admitted effect => some (askFact git s key admitted effect)

end Calls

end Onevcs.GitReads
