import Mathlib.Data.Char
import Mathlib.Data.List.Lex
import Onevcs.Retire.Judge

/-!
# Deriving a verdict

`derive`, `judged`, `conclude`, `open_change` and `consult` of `retire.rs`, and the reuse
of a recorded verdict around them in `Census::verdict`, with the store of `verdict.rs`.

A pass is one classification of one branch and all it reads: the copies, what this host's
streams record of the branch, the repositories the copies are read in, and what the host
says of its change request. The digest of the records a key holds is the records
themselves here. Recording a late merge, which `consult` may do on the way, moves nothing
a classification reads and is left out.
-/

namespace Onevcs.Retire

open Foundations (Text)

/-- `Reply`: one question put to the host, and what came of it. -/
inductive Reply (α : Type)
  | notAsked
  | answered (answer : α)
  | failed
  deriving DecidableEq

inductive ChangeState
  | opened
  | notOpen
  deriving DecidableEq

/-- `MergedChange`: where the host says a change request merged, and the head it merged. -/
structure MergedChange where
  commit : Text
  head : Text
  deriving DecidableEq

structure HostAnswer where
  merged : Reply (Option MergedChange)
  opened : Reply ChangeState

structure Verdict (κ : Type) where
  retirement : Retirement κ
  reached : Reached
  consulted : Bool
  host : HostAnswer

/-- The change request this host's streams record opening for the branch. -/
structure OpenedChange where
  url : String
  id : Option String
  base : Option String
  deriving DecidableEq

/-- What this host's streams record of one branch. -/
structure Records (κ : Type) where
  change : Option String
  landing : Option (RecordedLanding κ)
  opened : Option OpenedChange
  deriving DecidableEq

/-- What a host says when it is asked. -/
structure Host where
  forRepo : Except String Unit
  mergedHead : Except String (Option MergedChange)
  findChanges : Except String (List String)

/-- One classification of one branch, and what it reads. -/
structure Pass (κ : Type) where
  census : Census κ
  branch : String
  copies : Copies κ
  records : Records κ
  session : Option String
  landedTrailer : Text
  host : Option Host
  -- the repository a copy is read in, where one has its commit
  readable : Copy κ → Option (String × View κ)
  superseded : Copy κ → Except String (Option SupersededBy)
  -- whether verdicts are remembered, and every stream was read whole
  remembers : Bool
  whole : Bool

/-- `Key`: everything a derivation reads. -/
structure Key (κ : Type) where
  identity : String
  branch : String
  base : String
  baseTip : κ
  copies : List (BranchHolder × κ)
  unreadable : List String
  records : Records κ
  session : Option String
  landedTrailer : Text
  asking : Bool
  deriving DecidableEq

/-- What the store holds of a branch. -/
structure Recorded (κ : Type) where
  key : Key κ
  verdict : Verdict κ

namespace HostAnswer

def notAsked : HostAnswer := ⟨.notAsked, .notAsked⟩

/-- `HostAnswer::failed`. -/
def hasFailed (answer : HostAnswer) : Bool := answer.merged = .failed || answer.opened = .failed

/-- The merge the host reported, where it reported one. -/
def mergedChange (answer : HostAnswer) : Option MergedChange :=
  match answer.merged with
  | .answered merged => merged
  | _ => none

def sameAs (answer other : HostAnswer) : Bool :=
  answer.mergedChange = other.mergedChange && answer.opened = other.opened

end HostAnswer

/-- A path as a document spells it. -/
def spellPath (path : Path) : String :=
  "/".intercalate (path.map fun name => match name with
    | .text name => name
    | .raw _ => "")

section Deriving

variable {κ ε : Type} [DecidableEq κ] [DecidableEq ε] (G : Commits κ ε) (pass : Pass κ)

/-- `Evidence::of`: a recorded landing stands in for the host's answer where it carries the
head the host merged and names the branch's change request. -/
def evidenceOf (records : Records κ) : Evidence κ where
  change := records.change
  landing := records.landing
  merged := records.landing.bind fun landing =>
    match landing.change, landing.head with
    | some change, some head => if records.change = some change then some ⟨change, head⟩ else none
    | _, _ => none
  changed := false

/-- The loop of `judged`. -/
def judgedAmong (baseTip : κ) (evidence : Evidence κ) :
    List (Copy κ) → Except UnknownCause (List (Copy κ × Judged κ))
  | [] => .ok []
  | copy :: rest =>
    match pass.readable copy with
    | none => .error ⟨"judge", (pass.census.holder copy.holding).location,
        "no repository on this host has its commit " ++ G.spell copy.tip⟩
    | some (repo, view) =>
      match judgeCopy G view pass.landedTrailer copy.tip baseTip evidence with
      | .error failure => .error ⟨"judge", repo, failure⟩
      | .ok one => (judgedAmong baseTip evidence rest).map fun later => (copy, one) :: later

def judged (baseTip : κ) (evidence : Evidence κ) :
    Except UnknownCause (List (Copy κ × Judged κ)) :=
  judgedAmong G pass baseTip evidence pass.copies.copies

/-- The copy is neither at the base nor proved to hold nothing beyond it. -/
def Judged.uncovered (one : Judged κ) : Bool := !one.atBase && one.proof.isNone

/-- The proof a copy that is not at the base has. -/
def Judged.counted (one : Judged κ) : Option (RetirementProof κ) :=
  if one.atBase then none else one.proof

def conclude (baseTip : κ) (copies : List (Copy κ × Judged κ)) :
    Except UnknownCause (Retirement κ) :=
  let kept : Retirement κ :=
    { Retirement.kept pass.census pass.branch .unmergedUniqueCommits pass.copies with
      contentFreeCommits := (copies.flatMap fun entry => entry.2.contentFree).reverse.dedup.reverse }
  match copies.find? fun entry => entry.2.uncovered with
  | none =>
    .ok { kept with
      retirementClass := .retirable
      reason := none
      proof := some ((copies.findSome? fun entry => entry.2.counted).getD
        (.contentIdentical baseTip)) }
  | some (copy, _) =>
    let differing := (copies.filter fun entry => entry.2.uncovered).flatMap fun entry =>
      entry.2.differing.map spellPath
    let kept : Retirement κ :=
      { kept with differingPaths := differing.dedup.mergeSort fun a b => decide (a ≤ b) }
    match pass.superseded copy with
    | .error failure =>
      .error ⟨"supersession", ((pass.readable copy).map Prod.fst).getD "", failure⟩
    | .ok none => .ok kept
    | .ok (some superseding) =>
      .ok { kept with
        retirementClass := .supersededWithChanges
        reason := none
        supersededBy := some superseding }

/-- A failure to hear the host about a change request. -/
def unanswered (opened : OpenedChange) (error : String) : UnknownCause :=
  ⟨"host-consult", opened.url, error⟩

/-- The merge the host reports: as an earlier question of this pass was answered, or asked. -/
def askMerged (host : Host) : Option HostAnswer → Reply (Option MergedChange)
  | some ⟨.answered merged, _⟩ => .answered merged
  | _ =>
    match host.mergedHead with
    | .ok merged => .answered merged
    | .error _ => .failed

/-- Whether the change request is open: as an earlier question was answered, or asked. -/
def askOpen (host : Host) (opened : OpenedChange) : Option HostAnswer → Reply ChangeState
  | some ⟨_, .answered state⟩ => .answered state
  | _ =>
    match host.findChanges with
    | .ok changes => .answered (if opened.url ∈ changes then .opened else .notOpen)
    | .error _ => .failed

/-- What the host said where it could not be asked. -/
def said {α : Type} : Except String α → String
  | .error failure => failure
  | .ok _ => ""

/-- What a consultation comes to: what was heard, what it decides, and the evidence after. -/
structure Consultation (κ : Type) where
  heard : HostAnswer
  decides : Except UnknownCause (Option KeepReason)
  evidence : Evidence κ

def consult (evidence : Evidence κ) (replies : Option HostAnswer) : Consultation κ :=
  match pass.host, pass.records.opened with
  | some host, some opened =>
    match opened.id, opened.base with
    | some _, some _ =>
      match host.forRepo with
      | .error failure => ⟨.notAsked, .error (unanswered opened failure), evidence⟩
      | .ok () =>
        let merged := askMerged host replies
        match merged with
        | .answered (some change) =>
          -- merged is not open, whatever head it merged
          ⟨⟨merged, .notAsked⟩, .ok none,
            match G.objectId change.head with
            | some head =>
              { evidence with merged := some ⟨opened.url, head⟩, changed := true }
            | none => evidence⟩
        | .failed =>
          ⟨⟨merged, .notAsked⟩,
            .error (unanswered opened ("whether it merged: " ++ said host.mergedHead)),
            evidence⟩
        | _ =>
          let state := askOpen host opened replies
          ⟨⟨merged, state⟩,
            match state with
            | .answered .opened => .ok (some .openChangeRequest)
            | .answered .notOpen => .ok (some .closedChangeRequest)
            | .failed => .error (unanswered opened
                ("whether it is still open: " ++ said host.findChanges))
            | .notAsked =>
              .error (unanswered opened "whether it is still open was not asked"),
            evidence⟩
    | _, _ =>
      ⟨.notAsked, .error (unanswered opened
        "its opening is recorded without the change request's id or base"), evidence⟩
  | _, _ => ⟨.notAsked, .ok (some .openChangeRequest), evidence⟩

/-- The records decide the change request: its merge is recorded, and covers every copy. -/
def covered (evidence : Evidence κ) (copies : List (Copy κ × Judged κ)) : Bool :=
  evidence.merged.isSome && copies.all fun entry => entry.2.atBase ||
    match entry.2.proof with
    | some (.mergedChangeRequest _ _) => true
    | _ => false

/-- `open_change`, with whether the host was consulted. -/
def openChange (evidence : Evidence κ) (copies : List (Copy κ × Judged κ))
    (replies : Option HostAnswer) : Bool × Consultation κ :=
  if evidence.change.isNone || covered evidence copies then
    (false, ⟨.notAsked, .ok none, evidence⟩)
  else (true, consult G pass evidence replies)

def derive (baseTip : κ) (replies : Option HostAnswer) : Verdict κ :=
  let kept := fun reason => Retirement.kept pass.census pass.branch reason pass.copies
  let unknown := fun cause => Retirement.unknown pass.census pass.branch cause pass.copies
  let evidence := evidenceOf pass.records
  match judged G pass baseTip evidence with
  | .error cause => ⟨unknown cause, .early, false, .notAsked⟩
  | .ok copies =>
    if copies.all fun entry => entry.2.atBase then ⟨kept .isBase, .early, false, .notAsked⟩
    else
      let (consulted, consultation) := openChange G pass evidence copies replies
      match consultation.decides with
      | .error cause => ⟨unknown cause, .early, consulted, consultation.heard⟩
      | .ok (some reason) => ⟨kept reason, .early, consulted, consultation.heard⟩
      | .ok none =>
        -- found merged since the copies were judged: judged again under what is known
        let again :=
          if consultation.evidence.changed then judged G pass baseTip consultation.evidence
          else .ok copies
        match again.bind (conclude pass baseTip) with
        | .error cause => ⟨unknown cause, .concluded, consulted, consultation.heard⟩
        | .ok concluded => ⟨concluded, .concluded, consulted, consultation.heard⟩

def Pass.key (base : String) (baseTip : κ) : Key κ where
  identity := pass.census.identity
  branch := pass.branch
  base := base
  baseTip := baseTip
  copies := pass.copies.copies.map fun copy => (pass.census.holder copy.holding, copy.tip)
  unreadable := pass.copies.unreadable.map fun cause => cause.subject ++ ": " ++ cause.error
  records := pass.records
  session := pass.session
  landedTrailer := pass.landedTrailer
  asking := pass.host.isSome

def Pass.describes (base : String) (retirement : Retirement κ) : Bool :=
  retirement.identity = pass.census.identity && retirement.branch = pass.branch &&
    retirement.base = base && retirement.tip = pass.copies.firstTip &&
    retirement.holders = pass.census.holdersOf pass.copies

/-- A verdict a later pass may reuse: nothing it read was unreadable. -/
def Verdict.reusable (verdict : Verdict κ) : Bool :=
  verdict.retirement.reason != some .unknown && !verdict.host.hasFailed

/-- The recorded verdict this pass reuses, or what the host answered it in finding that it
may not. -/
def reuse (base : String) (baseTip : κ) (store : Option (Recorded κ)) :
    Verdict κ ⊕ Option HostAnswer :=
  match store with
  | some recorded =>
    if pass.remembers && pass.whole && recorded.key = pass.key base baseTip &&
        pass.describes base recorded.verdict.retirement then
      if !recorded.verdict.consulted then .inl recorded.verdict
      else
        let heard := (consult G pass (evidenceOf pass.records) none).heard
        if !heard.hasFailed && heard.sameAs recorded.verdict.host then .inl recorded.verdict
        else .inr (some heard)
    else .inr none
  | none => .inr none

/-- `Census::verdict`: the verdict, and what the store holds after. -/
def verdict (base : String) (baseTip : κ) (store : Option (Recorded κ)) :
    Verdict κ × Option (Recorded κ) :=
  match reuse G pass base baseTip store with
  | .inl recorded => (recorded, store)
  | .inr replies =>
    let derived := derive G pass baseTip replies
    (derived,
      if pass.remembers && pass.whole && derived.reusable then
        some ⟨pass.key base baseTip, derived⟩
      else store)

/-- `Census::classify`, with the verdict it comes to. -/
def classifyPass (fresh : FreshReads) (store : Option (Recorded κ)) : Retirement κ :=
  match pass.census.base, pass.census.baseTip with
  | some base, some baseTip =>
    let found := (verdict G pass base baseTip store).1
    classify pass.census pass.branch pass.copies fresh found.retirement found.reached
  | _, _ =>
    -- the base could not be read, and there is nothing to derive a verdict against
    classify pass.census pass.branch pass.copies fresh
      (Retirement.kept pass.census pass.branch .unknown pass.copies) .early

end Deriving

end Onevcs.Retire
