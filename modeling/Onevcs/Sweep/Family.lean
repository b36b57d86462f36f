import Onevcs.Foundations.Flock
import Onevcs.Foundations.Transition
import Onevcs.Sweep.Judge

/-!
# A sweep beside landings

One pass of `family`, `judge` and `reclaim` of `sweep.rs` over the families it is asked for,
beside any number of landings, which cut a run root, work in it and end by `release`.

A run root's occupancy lease is one lock file: a landing holds it shared while it works, lets
it go as it ends and takes it alone to release the run root, and a sweep takes it alone to
judge it. A step is one of these, one question asked of the run root, or one thing done to
it. What a step finds besides (which reads failed, what git and the landing tiers answered,
whether a process would not stop) is in its label, and time passes by a step of its own. A
process can die anywhere, which lets go of its leases.

What is removed and what is marked as released is logged with what was there.
-/

namespace Onevcs.Sweep

open Foundations (History Flock System)
open Retire (Clone)

/-- What is under a run root. -/
structure Content (κ : Type) where
  tree : Tree
  clone : Option (Clone κ)
  -- `.git/objects/info/alternates` of the clone
  alternates : Bool
  logs : Logs
  -- `RELEASED`
  mark : Bool

def Content.cut {κ : Type} (now : Nat) : Content κ := ⟨.dir now [], none, false, [], false⟩

/-- What `not_this_crates` asks: the name, the clone, and the store it borrows. -/
def shaped {κ : Type} (root : RunRoot) (content : Content κ) : Bool :=
  namesARun root.name && content.clone.isSome && content.alternates

inductive Kept
  | ownerUnproven
  | occupied
  | noVerdict
  | fresh
  | unproven
  | workUnknown
  | holdsUnpublishedWork
  | stillRunning

def retainedUnpublished : Nat := Retire.retainedDeadRuns

/-- `DEFAULT_MIN_AGE_HOURS`, in nanoseconds. -/
def defaultMinAge : Nat := 24 * 3600 * 1000000000

/-- `Holding`: a dead run root that holds work. What was there and what became of the reads
of it stand beside what is decided on. -/
structure Held (κ : Type) where
  root : RunRoot
  branches : List String
  written : Nat
  content : Content κ
  faults : Faults
  asked : Faults
  work : Work κ

/-- What a pass is asked for: the verb `sweep`, or the rule enforced as a verb cuts a run
root. -/
inductive Pass
  | run (dryRun : Bool) (minAge : Nat)
  | enforce (verb : Verb)

/-- The families of a pass, by the names of their directories. -/
def Pass.families : Pass → List Verb
  | .run _ _ => [.publishBranch, .recover]
  | .enforce verb => [verb]

def Pass.minAge : Pass → Nat
  | .run _ minAge => minAge
  | .enforce _ => defaultMinAge

def Pass.dryRun : Pass → Bool
  | .run dryRun _ => dryRun
  | .enforce _ => false

/-- Where a pass stands in its families: those still to list, the one it is at, the run roots
of that still to judge, those found to hold work, and, once these are sorted newest first,
those that were kept, those to keep and those to remove. -/
structure Walk (κ : Type) where
  families : List Verb
  verb : Verb
  rest : List RunRoot
  holding : List (Held κ)
  sorted : Bool
  front : List (Held κ)
  keep : List (Held κ)
  doomed : List (Held κ)

/-- How far the run root in hand has been proven dead. -/
inductive Stage
  | taken
  | judged
  | walked (written : Nat) (faults : Faults)
  | aged (written : Nat) (faults : Faults)
  | emptiable (written : Nat) (faults asked : Faults)

/-- What a removal is decided on: the failures of the two walks, the work that was read, and
the newer run roots that hold work and were kept. -/
structure Proof (κ : Type) where
  faults : Faults
  asked : Faults
  work : Option (Work κ)
  newer : List (Held κ)

/-- Where the pass stands. -/
inductive Phase (κ : Type)
  | walking (walk : Walk κ)
  -- whose it is was read; the lease is not taken yet
  | looked (walk : Walk κ) (root : RunRoot) (released : Bool)
  | proving (walk : Walk κ) (root : RunRoot) (released : Bool) (stage : Stage)
  -- `reclaim`: about to stop what is running there; about to remove; about to let go
  | reclaiming (walk : Walk κ) (root : RunRoot) (proof : Proof κ)
  | removing (walk : Walk κ) (root : RunRoot) (proof : Proof κ)
  | removed (walk : Walk κ) (root : RunRoot)
  | done

inductive Landing (κ : Type)
  | idle
  | cut (root : RunRoot)
  | inside (root : RunRoot)
  -- `release`: the shared lease is let go; the lease is taken alone
  | ending (root : RunRoot)
  | alone (root : RunRoot)
  | emptiable (root : RunRoot)
  | proved (root : RunRoot) (work : Work κ) (checkout : Checkout κ)
  | stopped (root : RunRoot) (work : Work κ) (checkout : Checkout κ)
  -- the mark is written
  | clearing (root : RunRoot)

inductive Holder (π : Type)
  | sweep
  | landing (p : π)
  deriving DecidableEq

/-- A run root was removed, or a removal of it was begun. -/
structure Removal (κ : Type) where
  root : RunRoot
  content : Content κ
  now : Nat
  exclusive : Bool
  proof : Proof κ

/-- A run root was marked as released. -/
structure Marking (κ : Type) where
  root : RunRoot
  content : Content κ
  work : Work κ
  checkout : Checkout κ

/-- The run roots and their leases, the pass and the landings, the time, the report, and what
was removed and marked. -/
structure World (κ π : Type) where
  roots : RunRoot → Option (Content κ)
  leases : RunRoot → Flock (Holder π)
  sweep : Phase κ
  landing : π → Landing κ
  clock : Nat
  retained : List (RunRoot × Kept)
  reclaimed : List RunRoot
  removals : List (Removal κ)
  markings : List (Marking κ)

/-- What the pass does next. -/
inductive SweepAct (κ : Type)
  | list (listed : List RunRoot)
  | look (mark shape : Bool)
  | lease
  | verdict (answered : Bool)
  | walk (faults : Faults)
  | age
  | ask (family : Bool) (faults : Faults)
  | judge (work : Work κ)
  | sort
  | keep
  | doom
  | stop (left : Bool)
  | remove (left : Option (Content κ))
  | release
  | die

/-- What a landing does next. -/
inductive LandingAct (κ : Type)
  | cut (root : RunRoot)
  | enter
  | build (content : Content κ)
  | finish
  | alone
  | ask (family : Bool) (faults : Faults)
  | check (repository : Bool) (work : Work κ) (checkout : Checkout κ)
  | stop (left : Bool)
  | mark (tree : Tree)
  | clear (content : Content κ)
  | leave
  | die

/-- A step of a run. -/
inductive Label (κ π : Type)
  | sweep (act : SweepAct κ)
  | landing (p : π) (act : LandingAct κ)
  | tick

section Steps

variable {κ π : Type} [DecidableEq κ] [DecidableEq π]

/-- The run roots a walk holds alone. -/
def Walk.held (walk : Walk κ) : List RunRoot :=
  (walk.holding ++ walk.keep ++ walk.doomed).map Held.root

/-- The run roots a pass holds alone. -/
def Phase.held : Phase κ → List RunRoot
  | .walking walk | .looked walk _ _ => walk.held
  | .proving walk root _ _ | .reclaiming walk root _ | .removing walk root _
  | .removed walk root => root :: walk.held
  | .done => []

/-- The walk has been through its family. -/
def Walk.through (walk : Walk κ) : Bool :=
  walk.rest.isEmpty && walk.sorted && walk.keep.isEmpty && walk.doomed.isEmpty

/-- The run roots found to hold work, newest first: the first few are kept. -/
def Walk.sort (walk : Walk κ) : Walk κ :=
  let newest := walk.holding.mergeSort fun a b => decide (b.written ≤ a.written)
  { walk with
    holding := [], sorted := true
    keep := newest.take retainedUnpublished, doomed := newest.drop retainedUnpublished }

/-- A pass that has listed nothing yet. -/
def Walk.start (pass : Pass) : Walk κ := ⟨pass.families, .recover, [], [], true, [], [], []⟩

/-- A walk over what was listed of a family. -/
def Walk.over (families : List Verb) (verb : Verb) (listed : List RunRoot) : Walk κ :=
  ⟨families, verb, listed, [], false, [], [], []⟩

namespace World

def goto (s : World κ π) (phase : Phase κ) : World κ π := { s with sweep := phase }

def land (s : World κ π) (p : π) (landing : Landing κ) : World κ π :=
  { s with landing := Function.update s.landing p landing }

/-- What is under a run root becomes something else. -/
def put (s : World κ π) (root : RunRoot) (content : Option (Content κ)) : World κ π :=
  { s with roots := Function.update s.roots root content }

def drop (s : World κ π) (holder : Holder π) (root : RunRoot) : World κ π :=
  { s with leases := Function.update s.leases root ((s.leases root).drop holder) }

/-- The pass lets go of every lease it holds. -/
def dropAll (s : World κ π) : List RunRoot → World κ π
  | [] => s
  | root :: rest => (s.drop .sweep root).dropAll rest

/-- A run root is kept, and the walk goes on. -/
def retain (s : World κ π) (walk : Walk κ) (root : RunRoot) (why : Kept) : World κ π :=
  { s with sweep := .walking walk, retained := s.retained ++ [(root, why)] }

/-- A run root that was held alone is let go and kept. -/
def giveUp (s : World κ π) (walk : Walk κ) (root : RunRoot) (why : Kept) : World κ π :=
  (s.drop .sweep root).retain walk root why

/-- A landing lets go of its lease, and is over. -/
def leave (s : World κ π) (p : π) (root : RunRoot) : World κ π :=
  (s.drop (.landing p) root).land p .idle

/-- The removal of a run root, of which this is left. -/
def removal (s : World κ π) (walk : Walk κ) (root : RunRoot) (proof : Proof κ)
    (content : Content κ) (left : Option (Content κ)) : World κ π :=
  let logged : World κ π :=
    { s.put root left with
      removals := s.removals ++ [⟨root, content, s.clock,
        decide ((s.leases root).Holds .sweep .exclusive), proof⟩] }
  match left with
  | none => { logged with sweep := .removed walk root, reclaimed := s.reclaimed ++ [root] }
  -- a removal that failed part way ends the pass
  | some _ => (logged.dropAll s.sweep.held).goto .done

variable (H : History κ) (pass : Pass)

def sweepStep (s : World κ π) (act : SweepAct κ) : Option (World κ π) :=
  match s.sweep, act with
  | .walking walk, .list listed =>
    if walk.through then
      match walk.families with
      | [] => some (s.goto .done)
      | verb :: families =>
        if listed.Nodup ∧ ∀ root ∈ listed, root.verb = verb then
          some (s.goto (.walking (.over families verb listed)))
        else none
    else none
  -- `judge`
  | .walking walk, .look mark shape =>
    match walk.rest with
    | [] => none
    | root :: rest =>
      let walk := { walk with rest := rest }
      match s.roots root with
      | none => some (s.retain walk root .ownerUnproven)
      | some content =>
        let released := namesARun root.name && content.mark && mark
        if released || (shaped root content && shape) then
          some (s.goto (.looked walk root released))
        else some (s.retain walk root .ownerUnproven)
  | .looked walk root released, .lease =>
    match (s.leases root).take .sweep .exclusive with
    | none => some (s.retain walk root .occupied)
    | some lease =>
      some { s with
        sweep := .proving walk root released .taken
        leases := Function.update s.leases root lease }
  | .proving walk root released .taken, .verdict answered =>
    if released || ((s.roots root).any fun content => hasRecordedVerdict content.logs) && answered
    then some (s.goto (.proving walk root released .judged))
    else some (s.giveUp walk root .noVerdict)
  | .proving walk root released .judged, .walk faults =>
    match s.roots root with
    | none => some (s.giveUp walk root .fresh)
    | some content =>
      some (s.goto (.proving walk root released
        (.walked (lastWritten s.clock faults [] content.tree) faults)))
  | .proving walk root released (.walked written faults), .age =>
    if s.clock - written < pass.minAge then some (s.giveUp walk root .fresh)
    else some (s.goto (.proving walk root released (.aged written faults)))
  | .proving walk root released (.aged written faults), .ask family asked =>
    if (s.roots root).any fun content => showsItMayEmpty family asked content.tree then
      some (s.goto (.proving walk root released (.emptiable written faults asked)))
    else some (s.giveUp walk root .unproven)
  | .proving walk root released (.emptiable written faults asked), .judge work =>
    match s.roots root with
    | none => some (s.giveUp walk root .workUnknown)
    | some content =>
      if released then some (s.goto (.reclaiming walk root ⟨faults, asked, none, []⟩))
      else
        match content.clone.bind fun clone => unpublishedWork H clone work with
        | none => some (s.giveUp walk root .workUnknown)
        | some [] => some (s.goto (.reclaiming walk root ⟨faults, asked, some work, []⟩))
        | some branches =>
          some (s.goto (.walking { walk with
            holding := walk.holding ++
              [⟨root, branches, written, content, faults, asked, work⟩] }))
  -- `family`, once every run root has been judged
  | .walking walk, .sort =>
    if walk.rest.isEmpty && !walk.sorted then some (s.goto (.walking walk.sort)) else none
  | .walking walk, .keep =>
    match walk.keep with
    | [] => none
    | held :: keep =>
      some (s.giveUp { walk with keep := keep, front := walk.front ++ [held] } held.root
        .holdsUnpublishedWork)
  | .walking walk, .doom =>
    match walk.keep, walk.doomed with
    | [], held :: doomed =>
      some (s.goto (.reclaiming { walk with doomed := doomed } held.root
        ⟨held.faults, held.asked, some held.work, walk.front⟩))
    | _, _ => none
  -- `reclaim`
  | .reclaiming walk root proof, .stop left =>
    if pass.dryRun then
      some { (s.drop .sweep root).goto (.walking walk) with
        reclaimed := s.reclaimed ++ [root] }
    else if left then some (s.giveUp walk root .stillRunning)
    else some (s.goto (.removing walk root proof))
  | .removing walk root proof, .remove left =>
    (s.roots root).map fun content => s.removal walk root proof content left
  | .removed walk root, .release => some ((s.drop .sweep root).goto (.walking walk))
  | .done, _ => none
  | phase, .die => some ((s.dropAll phase.held).goto .done)
  | _, _ => none


def landingStep (s : World κ π) (p : π) (act : LandingAct κ) : Option (World κ π) :=
  match s.landing p, act with
  -- `prepare`
  | .idle, .cut root =>
    match s.roots root with
    | some _ => none
    | none => some ((s.put root (some (.cut s.clock))).land p (.cut root))
  | .cut root, .enter =>
    match (s.leases root).take (.landing p) .shared with
    | none => some (s.land p .idle)
    | some lease =>
      some { s.land p (.inside root) with leases := Function.update s.leases root lease }
  | .inside root, .build content =>
    match s.roots root with
    | none => none
    | some old =>
      if content.mark = old.mark then some (s.put root (some content)) else none
  -- `release`
  | .inside root, .finish => some ((s.drop (.landing p) root).land p (.ending root))
  | .ending root, .alone =>
    match (s.leases root).take (.landing p) .exclusive with
    | none => some (s.land p .idle)
    | some lease =>
      some { s.land p (.alone root) with leases := Function.update s.leases root lease }
  | .alone root, .ask family asked =>
    if (s.roots root).any fun content => showsItMayEmpty family asked content.tree then
      some (s.land p (.emptiable root))
    else some (s.leave p root)
  | .emptiable root, .check repository work checkout =>
    match s.roots root with
    | none => none
    | some content =>
      -- a clone that git does not say is a repository is one that is not there
      match content.clone with
      | none => some (s.land p (.proved root work checkout))
      | some clone =>
        if repository then
          match unpreserved H clone work checkout with
          | some [] => some (s.land p (.proved root work checkout))
          | _ => some (s.leave p root)
        else some (s.land p (.proved root work checkout))
  | .proved root work checkout, .stop left =>
    if left then some (s.leave p root) else some (s.land p (.stopped root work checkout))
  | .stopped root work checkout, .mark tree =>
    (s.roots root).map fun content =>
      { (s.put root (some { content with mark := true, tree := tree })).land p
          (.clearing root) with
        markings := s.markings ++ [⟨root, content, work, checkout⟩] }
  | .clearing root, .clear content =>
    match s.roots root with
    | none => none
    | some old =>
      if content.mark = old.mark ∧ content.logs = old.logs then
        some (s.put root (some content))
      else none
  | .clearing root, .leave => some (s.leave p root)
  -- a process that dies lets go of the lease it holds
  | .idle, _ => none
  | .cut root, .die | .inside root, .die | .ending root, .die | .alone root, .die
  | .emptiable root, .die | .proved root _ _, .die | .stopped root _ _, .die
  | .clearing root, .die => some (s.leave p root)
  | _, _ => none

def step (s : World κ π) : Label κ π → Option (World κ π)
  | .sweep act => s.sweepStep H pass act
  | .landing p act => s.landingStep H p act
  | .tick => some { s with clock := s.clock + 1 }

/-- The steps that lose nothing: no walk that met a failure passes the age floor, no count
finds its reference gone, no two run roots at either side of the bound were last written at
one instant, a landing takes nothing away of the shape the pass has just read, and the clone
a landing leaves is read as the repository it is. -/
def careful (s : World κ π) : Label κ π → Bool
  | .sweep .age =>
    match s.sweep with
    | .proving _ _ _ (.walked written faults) =>
      faults.isEmpty || decide (s.clock - written < pass.minAge)
    | _ => true
  | .sweep (.judge work) =>
    match s.sweep with
    | .proving _ root false (.emptiable _ _ _) =>
      (s.roots root).all fun content => content.clone.all fun clone => work.counts clone
    | _ => true
  | .sweep .sort =>
    match s.sweep with
    | .walking walk =>
      walk.sort.keep.all fun kept => walk.sort.doomed.all fun doomed =>
        kept.written ≠ doomed.written
    | _ => true
  | .landing p (.build content) =>
    match s.landing p, s.sweep with
    | .inside root, .looked _ other false =>
      root ≠ other || !((s.roots root).any (shaped root)) || shaped root content
    | _, _ => true
  | .landing p (.check repository work _) =>
    match s.landing p with
    | .emptiable root =>
      (s.roots root).all fun content => content.clone.all fun clone =>
        repository && work.counts clone
    | _ => true
  | _ => true

end World

/-- A pass that starts, beside landings that start: whatever run roots are there, and their
leases free. -/
structure World.Starts (pass : Pass) (s : World κ π) : Prop where
  leases : ∀ root, s.leases root = Flock.free
  sweep : s.sweep = .walking (.start pass)
  landing : ∀ p, s.landing p = .idle
  retained : s.retained = []
  removals : s.removals = []
  markings : s.markings = []

/-- Every run of a pass beside landings. -/
def sweepRuns (H : History κ) (pass : Pass) : System (World κ π) (Label κ π) where
  Initial := World.Starts pass
  step := World.step H pass

end Steps

end Onevcs.Sweep
