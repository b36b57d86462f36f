import Mathlib.Data.List.Basic

/-!
# The words of an event stream

The kinds and phases of `event.rs` and `vocabulary.rs`, and as much of an envelope as the
readers of a stream look at: the stream it names, its number, its kind and phase, the
`significance` label and the `landing_commit` of its payload. What else an envelope
carries is handed on and judged by a filter alone, so it stands as one value.
-/

namespace Onevcs.Streams

/-- `Phase`: which part of a change's life an event belongs to. -/
inductive Phase
  | development
  | integrate
  | review
  | release
  deriving DecidableEq

inductive EventKind
  | sessionOpened
  | fetch
  | lockWait
  | lockAcquired
  | commitPreserved
  | branchPreserved
  | push
  | changeOpened
  | changeDrafted
  | draftLifted
  | draftLiftedEarly
  | draftKeptForReview
  | checksSettled
  | changeDescribed
  | changeCheck
  | changeMerged
  | baseArrived
  | mergeQueued
  | mergeCompleted
  | recoveryAttested
  | syncConflict
  | sessionClosed
  | releaseProbed
  | releaseAcknowledged
  | releaseObserved
  | branchSuperseded
  | branchRetired
  | gateRun
  | reviewCommentsRead
  | reviewReplyPosted
  | stackBaseAssembled
  | changeStandingsRead
  | changeRetargeted
  | changeReopened
  | baseMerge
  | mergeArmed
  | publicationResumed
  deriving DecidableEq

namespace EventKind

def wire : EventKind → String
  | sessionOpened => "session-opened"
  | fetch => "fetch"
  | lockWait => "lock-wait"
  | lockAcquired => "lock-acquired"
  | commitPreserved => "commit-preserved"
  | branchPreserved => "branch-preserved"
  | push => "push"
  | changeOpened => "change-opened"
  | changeDrafted => "change-drafted"
  | draftLifted => "draft-lifted"
  | draftLiftedEarly => "draft-lifted-early"
  | draftKeptForReview => "draft-kept-for-review"
  | checksSettled => "checks-settled"
  | changeDescribed => "change-described"
  | changeCheck => "change-check"
  | changeMerged => "change-merged"
  | baseArrived => "base-arrived"
  | mergeQueued => "merge-queued"
  | mergeCompleted => "merge-completed"
  | recoveryAttested => "recovery-attested"
  | syncConflict => "sync-conflict"
  | sessionClosed => "session-closed"
  | releaseProbed => "release-probed"
  | releaseAcknowledged => "release-acknowledged"
  | releaseObserved => "release-observed"
  | branchSuperseded => "branch-superseded"
  | branchRetired => "branch-retired"
  | gateRun => "gate-run"
  | reviewCommentsRead => "review-comments-read"
  | reviewReplyPosted => "review-reply-posted"
  | stackBaseAssembled => "stack-base-assembled"
  | changeStandingsRead => "change-standings-read"
  | changeRetargeted => "change-retargeted"
  | changeReopened => "change-reopened"
  | baseMerge => "base-merge"
  | mergeArmed => "merge-armed"
  | publicationResumed => "publication-resumed"

/-- Every kind this build has a word for. -/
def every : List EventKind :=
  [sessionOpened, fetch, lockWait, lockAcquired, commitPreserved, branchPreserved, push,
    changeOpened, changeDrafted, draftLifted, draftLiftedEarly, draftKeptForReview,
    checksSettled, changeDescribed, changeCheck, changeMerged, baseArrived, mergeQueued,
    mergeCompleted, recoveryAttested, syncConflict, sessionClosed, releaseProbed,
    releaseAcknowledged, releaseObserved, branchSuperseded, branchRetired, gateRun,
    reviewCommentsRead, reviewReplyPosted, stackBaseAssembled, changeStandingsRead,
    changeRetargeted, changeReopened, baseMerge, mergeArmed, publicationResumed]

/-- `EventKind::named`: the kind a word names, through the spelling it is written in. -/
def named (word : String) : Option EventKind := every.find? fun kind => kind.wire = word

theorem mem_every (kind : EventKind) : kind ∈ every := by
  cases kind <;> decide

theorem wire_injective : ∀ kind ∈ every, ∀ other ∈ every, kind.wire = other.wire → kind = other := by
  decide

theorem named_wire (kind : EventKind) : named kind.wire = some kind := by
  have hfound : (every.find? fun other => other.wire = kind.wire).isSome :=
    List.find?_isSome.mpr ⟨kind, mem_every kind, by simp⟩
  obtain ⟨other, hother⟩ := Option.isSome_iff_exists.mp hfound
  have hword : other.wire = kind.wire := by simpa using List.find?_some hother
  rw [named, hother, wire_injective other (mem_every other) kind (mem_every kind) hword]

end EventKind

/-- `Phase::of`: the phase of a kind, where the kind alone decides it. -/
def Phase.of : EventKind → Option Phase
  | .sessionOpened | .fetch | .lockWait | .lockAcquired | .commitPreserved | .branchPreserved
  | .recoveryAttested | .sessionClosed => some .development
  | .mergeQueued | .mergeCompleted | .syncConflict | .baseArrived | .baseMerge
  | .branchSuperseded | .branchRetired | .stackBaseAssembled => some .integrate
  | .changeOpened | .changeDrafted | .draftLifted | .draftLiftedEarly | .draftKeptForReview
  | .checksSettled | .changeDescribed | .changeCheck | .changeMerged | .mergeArmed
  | .publicationResumed | .reviewCommentsRead | .reviewReplyPosted | .changeStandingsRead
  | .changeRetargeted | .changeReopened => some .review
  | .releaseProbed | .releaseAcknowledged | .releaseObserved => some .release
  | .push | .gateRun => none

def phaseOf (kind : EventKind) : Phase := (Phase.of kind).getD .development

/-- A JSON value, as far as the readers tell values apart. -/
inductive Value (ν : Type)
  | string (text : String)
  /-- An object of one key, which holds null. -/
  | tagged (key : String)
  | other (value : ν)
  deriving DecidableEq

def Value.asStr {ν : Type} : Value ν → Option String
  | .string text => some text
  | _ => none

inductive Significance
  | milestone
  | blocker
  | progress
  | attention

/-- The word a significance is spelled with. -/
def Significance.named : String → Option Significance
  | "milestone" => some .milestone
  | "blocker" => some .blocker
  | "progress" => some .progress
  | "attention" => some .attention
  | _ => none

/-- `serde_json::from_value::<Significance>`: a variant without fields is read from its
word, and from an object whose one key is that word and holds null. -/
def Significance.fromValue {ν : Type} : Value ν → Option Significance
  | .string text => named text
  | .tagged key => named key
  | .other _ => none

def isHexDigit (c : Char) : Bool :=
  c ∈ ['0', '1', '2', '3', '4', '5', '6', '7', '8', '9', 'a', 'b', 'c', 'd', 'e', 'f',
    'A', 'B', 'C', 'D', 'E', 'F']

/-- A complete object id: 40 hexadecimal digits, or 64. -/
def isObjectId (text : String) : Bool :=
  (text.toList.length = 40 || text.toList.length = 64) && text.toList.all isHexDigit

structure ObjectId where
  text : String
  complete : isObjectId text = true
  deriving DecidableEq

def ObjectId.parse (value : String) : Option ObjectId :=
  if h : isObjectId value = true then some ⟨value, h⟩ else none

/-- `Envelope`, with what no reader looks at as one value. -/
structure Envelope (ν δ : Type) where
  stream : String
  seq : Nat
  kind : String
  phase : Option Phase
  significance : Option (Value ν)
  landingCommit : Option (Value ν)
  rest : δ
  deriving DecidableEq

/-- `Line`: an envelope of a kind this build knows, or as much as a reader uses of one it
does not. -/
inductive Line (ν δ : Type)
  | known (kind : EventKind) (envelope : Envelope ν δ)
  | unknown (stream kind : String)

namespace Line

variable {ν δ : Type}

/-- `Line::of`: an envelope without a phase reads at the one its kind decides. -/
def of (envelope : Envelope ν δ) : Line ν δ :=
  match EventKind.named envelope.kind with
  | none => .unknown envelope.stream envelope.kind
  | some kind =>
    .known kind { envelope with phase := some (envelope.phase.getD (phaseOf kind)) }

def stream : Line ν δ → String
  | .known _ envelope => envelope.stream
  | .unknown stream _ => stream

@[simp] theorem stream_of (envelope : Envelope ν δ) : (of envelope).stream = envelope.stream := by
  unfold of
  cases EventKind.named envelope.kind with
  | none => rfl
  | some kind => rfl

end Line

end Onevcs.Streams
