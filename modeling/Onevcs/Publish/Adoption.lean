import Onevcs.Foundations.Outcome
import Onevcs.Publish.Landing

/-!
# The change request of a publication

`publish.rs`'s `land_as_change`: a branch that is on the remote, and the change request that is
found for it or opened. The host lists the open change requests by the name of their head
branch and by their base, whoever's repository the head is in. What follows is the landing of
`Publish.Landing`; a publication that asks for no merge, and one that is held as a draft, end
before it. Beside where it is, a publication has what it did on the host, and to which change
request.
-/

namespace Onevcs.Publish

open Foundations (System Text bind_eq_ok)
open Rules (MergePolicy)

/-! ## The host's change requests -/

/-- A change request the host holds open: the repository its head branch is in, that branch,
its base and its head. -/
structure HeldChange where
  id : Text
  headRepo : Text
  headBranch : Text
  base : Text
  headSha : Text
  deriving DecidableEq

/-- The host: the repository it is addressed at, and its open change requests, in the order it
lists them. -/
structure Host where
  repo : Text
  changes : List HeldChange

/-- `find_changes`: the open change requests of a head branch's name onto a base. -/
def Host.findChanges (host : Host) (head base : Text) : List HeldChange :=
  host.changes.filter fun change => change.headBranch == head && change.base == base

structure ChangeSpec where
  head : Text
  base : Text
  title : Text
  body : Option Text
  draft : Bool
  draftAwaitingChecks : Bool

/-- What opening a change request is answered: its number and its head. -/
structure Opened where
  id : Text
  headSha : Text

/-- `open_change`: a change request of the repository's own branch. -/
def Host.openChange (host : Host) (spec : ChangeSpec) (opened : Opened) : HeldChange where
  id := opened.id
  headRepo := host.repo
  headBranch := spec.head
  base := spec.base
  headSha := opened.headSha

/-- A publication of a branch, as `land_as_change` has it. -/
structure Context where
  branch : Text
  base : Text
  pushed : Text
  body : Option Text
  /-- Whether the caller holds the change request as a draft. -/
  draft : Bool
  /-- Whether drafts are disabled. -/
  disabled : Bool
  effective : MergePolicy
  /-- Whether a green draft is kept for its review. -/
  keepForReview : Bool
  /-- Whether the host was taught to say what it drafted. -/
  taught : Bool

/-- What the host answers before there is a change request. -/
structure HostAnswers where
  authenticated : Except HostError Text
  listed : Except HostError Unit
  opened : Except HostError Opened

/-- The change request of a publication, and whether the host already held it. -/
structure Adoption where
  change : HeldChange
  adopted : Bool

/-- `land_as_change`, up to its change request. -/
def landAsChange (host : Host) (context : Context) (subject : Text) (answers : HostAnswers) :
    Except HostError Adoption := do
  let _author ← answers.authenticated
  answers.listed
  match host.findChanges context.branch context.base with
  | change :: _ => pure ⟨change, true⟩
  | [] =>
    let opened ← answers.opened
    let spec : ChangeSpec := {
      head := context.branch
      base := context.base
      title := subject
      body := context.body
      draft := context.draft
      draftAwaitingChecks := !context.disabled && !context.draft }
    pure ⟨host.openChange spec opened, false⟩

/-- The publication, as a landing has it. -/
def Context.publication (context : Context) (adoption : Adoption) : Publication where
  base := context.base
  pushed := context.pushed
  effective := context.effective
  taught := context.taught
  lifecycle := !context.disabled
  adopted := adoption.adopted
  resumed := false

/-! ## What is done to it -/

/-- What a publication does to a change request. -/
inductive Act
  | adopted
  | opened
  | readied
  | merged (policy : MergePolicy)
  deriving DecidableEq

def HostCall.act : HostCall → Act
  | .lifted => .readied
  | .merge policy => .merged policy

def lifted (taught : Bool) (answers : LiftAnswers) : Bool :=
  match liftAnyDraft taught answers with
  | .ok lifted => lifted
  | .error _ => false

/-- What the landing does to the change request at an event. -/
def actsAt (publication : Publication) (s : Landing) (event : Event) : List Act :=
  match s.stage, event with
  | .opening, .opened answers =>
    if !publication.lifecycle && publication.adopted && lifted publication.taught answers then
      [.readied]
    else []
  | .settling phase, .look look => (Landing.settles s.watcher phase look).calls.map HostCall.act
  | .green, .lift (.ok ()) => [.readied]
  | .merging, .look look =>
    if publication.effective = .changeAuto then
      (awaitTheMerge s.watcher look).calls.map HostCall.act
    else [.merged publication.effective]
  | .elapsing, .elapse answers =>
    if (armOnElapse publication.taught s.watcher answers).1 then
      if lifted publication.taught answers.lift then [.readied, .merged .changeAuto]
      else [.merged .changeAuto]
    else []
  | _, _ => []

/-- Where a publication is. -/
inductive Course
  | underway (landing : Landing)
  | changeDraft
  | changeReviewDraft
  | refused (refusal : Refusal)

/-- Something done to a change request. -/
structure HostAct where
  act : Act
  change : HeldChange
  deriving DecidableEq

structure Publishing where
  course : Course
  acts : List HostAct

/-- `hold_as_draft`: the change request is to be a draft at the host. -/
def holdAsDraft (taught : Bool) (answers : LiftAnswers) : Course :=
  match isDraft taught answers.isDraft with
  | .ok true => .changeDraft
  | .ok false => .refused .invalid
  | .error error => .refused (.host error)

/-- Where a publication under a policy that asks for no merge ends, and any other goes on. -/
def Context.follows (context : Context) (landing : Landing) : Course :=
  if context.effective = .changeOpen then
    match landing.stage with
    | .settled => .underway (landing.ends .changeOpen)
    | .waited => .underway (landing.ends (.refused .checksUnsettled))
    | .green => if context.keepForReview then .changeReviewDraft else .underway landing
    | _ => .underway landing
  else .underway landing

/-- One event of a publication of its change request. -/
def Publishing.step (context : Context) (adoption : Adoption) (s : Publishing) (event : Event) :
    Option Publishing :=
  match s.course with
  | .underway landing =>
    match context.draft, landing.stage, event with
    | true, .opening, .opened answers =>
      some { s with course := holdAsDraft context.taught answers }
    | _, _, _ =>
      (landing.step (context.publication adoption) event).map fun next =>
        { course := context.follows next
          acts := s.acts ++ (actsAt (context.publication adoption) landing event).map
            fun act => ⟨act, adoption.change⟩ }
  | .changeDraft | .changeReviewDraft | .refused _ => none

/-- A publication that has its change request. -/
def Publishing.start (context : Context) (adoption : Adoption) : Publishing where
  course := .underway (.start (context.publication adoption))
  acts := [⟨if adoption.adopted then .adopted else .opened, adoption.change⟩]

/-- The publications of one change request, over every answer they are given. -/
def publishing (context : Context) (adoption : Adoption) : System Publishing Event where
  Initial s := s = .start context adoption
  step := Publishing.step context adoption

/-! ## Its own branch's change request -/

/-- A change request of the repository's own branch, the one that was pushed. -/
def Own (host : Host) (context : Context) (change : HeldChange) : Prop :=
  change.headRepo = host.repo ∧ change.headBranch = context.branch

/-- Everything was done to a change request of the branch, and one was opened where none was
open. -/
def ActsOnOwn (host : Host) (context : Context) (s : Publishing) : Prop :=
  (∀ act ∈ s.acts, Own host context act.change) ∧
    ((∀ change ∈ host.changes, Own host context change → change.base ≠ context.base) →
      ∃ act ∈ s.acts, act.act = .opened)

/-- The first change request the host lists is of the branch, where it lists one. -/
def FirstIsOwn (host : Host) (context : Context) : Prop :=
  ∀ change ∈ (host.findChanges context.branch context.base).head?, Own host context change

section

variable {host : Host} {context : Context} {subject : Text} {answers : HostAnswers}
  {adoption : Adoption} {s s' : Publishing} {event : Event}

theorem mem_findChanges {head base : Text} {change : HeldChange} :
    change ∈ host.findChanges head base ↔
      change ∈ host.changes ∧ change.headBranch = head ∧ change.base = base := by
  simp [Host.findChanges]

theorem landAsChange_ok (h : landAsChange host context subject answers = .ok adoption) :
    ((host.findChanges context.branch context.base).head? = some adoption.change ∧
        adoption.adopted = true) ∨
      (host.findChanges context.branch context.base = [] ∧ Own host context adoption.change ∧
        adoption.adopted = false) := by
  rw [landAsChange, bind_eq_ok] at h
  obtain ⟨_, -, h⟩ := h
  rw [bind_eq_ok] at h
  obtain ⟨_, -, h⟩ := h
  cases hlisted : host.findChanges context.branch context.base with
  | cons change rest =>
    rw [hlisted] at h
    obtain rfl := Except.ok.inj h
    exact Or.inl ⟨rfl, rfl⟩
  | nil =>
    rw [hlisted] at h
    dsimp only at h
    rw [bind_eq_ok] at h
    obtain ⟨opened, -, h⟩ := h
    obtain rfl := Except.ok.inj h
    exact Or.inr ⟨rfl, ⟨rfl, rfl⟩, rfl⟩

theorem step_acts (h : s.step context adoption event = some s') :
    (∀ act ∈ s'.acts, act ∈ s.acts ∨ act.change = adoption.change) ∧
      ∀ act ∈ s.acts, act ∈ s'.acts := by
  rw [Publishing.step] at h
  split at h
  · split at h
    · obtain rfl := Option.some.inj h
      exact ⟨fun act hact => Or.inl hact, fun act hact => hact⟩
    · obtain ⟨next, -, rfl⟩ := Option.map_eq_some_iff.mp h
      constructor
      · intro act hact
        rcases List.mem_append.mp hact with hold | hnew
        · exact Or.inl hold
        · obtain ⟨_, -, rfl⟩ := List.mem_map.mp hnew
          exact Or.inr rfl
      · intro act hact
        exact List.mem_append_left _ hact
  · cases h
  · cases h
  · cases h

theorem acts_of_reachable (h : (publishing context adoption).Reachable s) :
    (∀ act ∈ s.acts, act.change = adoption.change) ∧
      ∀ act ∈ (Publishing.start context adoption).acts, act ∈ s.acts := by
  apply System.ReachableBy.invariant h
  · rintro s rfl
    refine ⟨fun act hact => ?_, fun act hact => hact⟩
    obtain rfl := List.mem_singleton.mp hact
    rfl
  · intro s event s' hinv _ hstep
    obtain ⟨hnew, hold⟩ := step_acts hstep
    refine ⟨fun act hact => ?_, fun act hact => hold act (hinv.2 act hact)⟩
    rcases hnew act hact with hkept | hchange
    · exact hinv.1 act hkept
    · exact hchange

/-- A publication acts on its own branch's change request in every run, and opens one where none
is open, exactly where the first the host lists is its own or it lists none. -/
theorem acts_on_own_iff (h : landAsChange host context subject answers = .ok adoption) :
    (∀ s, (publishing context adoption).Reachable s → ActsOnOwn host context s) ↔
      FirstIsOwn host context := by
  rcases landAsChange_ok h with ⟨hfirst, hadopted⟩ | ⟨hnone, hown, hadopted⟩
  · constructor
    · intro hall change hchange
      obtain rfl : adoption.change = change := Option.some.inj (hfirst.symm.trans hchange)
      exact (hall _ (.start rfl)).1 _ List.mem_cons_self
    · intro hown s hs
      obtain ⟨hacts, -⟩ := acts_of_reachable hs
      have hchange := hown _ hfirst
      refine ⟨fun act hact => hacts act hact ▸ hchange, fun hnoOwn => ?_⟩
      -- what is listed first is open, of the branch and onto the base
      obtain ⟨hmem, -, hbase⟩ := mem_findChanges.mp (List.mem_of_mem_head? hfirst)
      exact absurd hbase (hnoOwn _ hmem hchange)
  · constructor
    · intro _ change hchange
      rw [hnone] at hchange
      cases hchange
    · intro _ s hs
      obtain ⟨hacts, hkept⟩ := acts_of_reachable hs
      refine ⟨fun act hact => hacts act hact ▸ hown, fun _ => ?_⟩
      exact ⟨_, hkept _ List.mem_cons_self, by simp [hadopted]⟩

end

section Fork

/-- A change request of a branch called `f` in another repository, onto `m`. -/
def forked : HeldChange := ⟨['7'], ['o', '/', 'r'], ['f'], ['m'], ['x']⟩

/-- A host that holds it and no other. -/
def forkHost : Host := ⟨['u', '/', 'r'], [forked]⟩

/-- A publication of the host's own `f` onto `m`, which merges it directly. -/
def direct : Context where
  branch := ['f']
  base := ['m']
  pushed := ['c']
  body := none
  draft := false
  disabled := false
  effective := .changeDirect
  keepForReview := false
  taught := true

/-- A host that answers every call before there is a change request. -/
def answering : HostAnswers := ⟨.ok [], .ok (), .ok ⟨['8'], ['c']⟩⟩

/-- A look at a change request with no checks, onto a base that requires none, which merges. -/
def unchecked : Look where
  requiredChecks := .ok ⟨[], []⟩
  checks := .ok ⟨[], true⟩
  graceElapsed := false
  outOfTime := false
  busyIsFresh := false
  headActivity := .error ⟨true, []⟩
  readyForReview := .error ⟨true, []⟩
  merge := .ok (.merged ['d'])
  mergedAfterRefusal := .ok none
  mergedAt := .ok none
  mergeability := .ok .mergeable
  cancelled := false

/-- A landing that merges a ready change request. -/
def merging : List Event :=
  [.opened ⟨.ok false, .ok ()⟩, .look unchecked, .turn (.ok ()),
    .reverify ⟨unchecked, .ok (.isAt ['c']), .ok (.isAt ['b']), .ok true, .ok false⟩,
    .look unchecked]

/-- Where the publication is after it. -/
def afterMerging (adoption : Adoption) : Publishing :=
  ((publishing direct adoption).run (.start direct adoption) merging).getD
    (.start direct adoption)

theorem afterMerging_reachable {adoption : Adoption}
    (h : ((publishing direct adoption).run (.start direct adoption) merging).isSome = true) :
    (publishing direct adoption).Reachable (afterMerging adoption) := by
  obtain ⟨s, hs⟩ := Option.isSome_iff_exists.mp h
  rw [afterMerging, hs]
  exact System.reachable_of_run rfl hs

/-- A fork's open change request under the branch's name is adopted and merged, and none is
opened for the branch that was pushed. -/
theorem fork_merged :
    landAsChange forkHost direct [] answering = .ok ⟨forked, true⟩ ∧
      (publishing direct ⟨forked, true⟩).Reachable (afterMerging ⟨forked, true⟩) ∧
        (afterMerging ⟨forked, true⟩).acts =
            [⟨.adopted, forked⟩, ⟨.merged .changeDirect, forked⟩] ∧
          ¬ ActsOnOwn forkHost direct (afterMerging ⟨forked, true⟩) := by
  have hacts : (afterMerging ⟨forked, true⟩).acts =
      [⟨.adopted, forked⟩, ⟨.merged .changeDirect, forked⟩] := by
    decide +kernel
  refine ⟨rfl, afterMerging_reachable (by decide +kernel), hacts, fun h => ?_⟩
  have hown := h.1 ⟨.adopted, forked⟩ (by simp [hacts])
  exact absurd hown.1 (by decide)

/-- A host that holds nothing open. -/
def emptyHost : Host := ⟨['u', '/', 'r'], []⟩

/-- The change request the same publication opens there. -/
def opened : Adoption :=
  ⟨emptyHost.openChange ⟨['f'], ['m'], [], none, false, true⟩ ⟨['8'], ['c']⟩, false⟩

/-- With nothing open the publication opens its own change request and merges it. -/
theorem own_merged : ActsOnOwn emptyHost direct (afterMerging opened) := by
  have hopened : landAsChange emptyHost direct [] answering = .ok opened := rfl
  have hfirst : FirstIsOwn emptyHost direct := by
    intro change hchange
    cases hchange
  exact (acts_on_own_iff hopened).mpr hfirst _ (afterMerging_reachable (by decide +kernel))

end Fork

end Onevcs.Publish
