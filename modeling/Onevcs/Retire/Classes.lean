import Mathlib.Data.List.Basic

/-!
# Classes of branches

What `retire.rs` says of a branch: the copies a census read of it, the class it answers
with, and which classes each way of acting may delete. `classify` is the classification
around the derivation: what is asked fresh before it and after it, whatever a pass
remembers.
-/

namespace Onevcs.Retire

inductive RetirementClass
  | retirable
  | supersededWithChanges
  | keep
  deriving DecidableEq

inductive KeepReason
  | heldByLiveSession
  | excluded
  | openChangeRequest
  | checkedOut
  | dirtyWorktree
  | unmergedUniqueCommits
  | unknown
  | isBase
  | closedChangeRequest
  deriving DecidableEq

/-- `UnknownCause`: the read that failed. -/
structure UnknownCause where
  operation : String
  subject : String
  error : String
  deriving DecidableEq

inductive RetirementProof (κ : Type)
  | mergedChangeRequest (changeUrl : String) (head : κ)
  | recordedLanding (commit : κ)
  | contentIdentical (baseCommit : κ)

structure SupersededBy where
  branch : String
  landing : String

inductive BranchHolderKind
  | checkout
  | slot
  | runClone
  | origin
  deriving DecidableEq

structure BranchHolder where
  kind : BranchHolderKind
  location : String
  deriving DecidableEq

/-- Which place a copy is in. -/
inductive Holding
  | place (index : Nat)
  | origin
  deriving DecidableEq

/-- One copy of the branch and the commit it stands at. -/
structure Copy (κ : Type) where
  holding : Holding
  tip : κ
  deriving DecidableEq

/-- Every copy of one branch that could be read, and every place that could not. -/
structure Copies (κ : Type) where
  copies : List (Copy κ)
  unreadable : List UnknownCause
  deriving DecidableEq

structure Retirement (κ : Type) where
  retirementClass : RetirementClass
  reason : Option KeepReason
  cause : Option UnknownCause
  identity : String
  branch : String
  tip : Option κ
  base : String
  proof : Option (RetirementProof κ)
  contentFreeCommits : List κ
  supersededBy : Option SupersededBy
  differingPaths : List String
  holders : List BranchHolder

/-- One place a copy can be: a registered checkout, a run clone or a slot's clone. -/
structure Place where
  kind : BranchHolderKind
  repo : String

/-- What a census read once for every classification it makes. -/
structure Census (κ : Type) where
  identity : String
  publication : String
  base : Option String
  baseTip : Option κ
  unreadBase : Option UnknownCause
  origin : Option String
  places : List Place
  unlisted : List UnknownCause

/-- `Reached`: where a derivation came to its verdict. -/
inductive Reached
  | early
  | concluded

/-- Who asked for a retirement. -/
inductive Acting
  | retire
  | reclaim
  | discard
  | automatic
  deriving DecidableEq

def Acting.permitsClass (acting : Acting) : RetirementClass → Bool
  | .retirable => true
  | .supersededWithChanges => acting = .reclaim || acting = .discard
  | .keep => acting = .discard

def Acting.permits (acting : Acting) (retirementClass : RetirementClass)
    (reason : Option KeepReason) : Bool :=
  acting.permitsClass retirementClass &&
    (retirementClass != .keep || reason == some .unmergedUniqueCommits)

variable {κ : Type}

def Copies.firstTip (copies : Copies κ) : Option κ := copies.copies.head?.map Copy.tip

def Census.holder (census : Census κ) : Holding → BranchHolder
  | .place index =>
    match census.places[index]? with
    | some place => ⟨place.kind, place.repo⟩
    | none => ⟨.checkout, ""⟩
  | .origin => ⟨.origin, census.origin.getD ""⟩

def Census.holdersOf (census : Census κ) (copies : Copies κ) : List BranchHolder :=
  copies.copies.map fun copy => census.holder copy.holding

def Retirement.kept (census : Census κ) (branch : String) (reason : KeepReason)
    (copies : Copies κ) : Retirement κ where
  retirementClass := .keep
  reason := some reason
  cause := none
  identity := census.identity
  branch := branch
  tip := copies.firstTip
  base := census.base.getD ""
  proof := none
  contentFreeCommits := []
  supersededBy := none
  differingPaths := []
  holders := census.holdersOf copies

def Retirement.unknown (census : Census κ) (branch : String) (cause : UnknownCause)
    (copies : Copies κ) : Retirement κ :=
  { Retirement.kept census branch .unknown copies with cause := some cause }

/-- What a classification asks fresh: the live session that holds the branch, whether the
caller excluded it, and whether somebody is working on it where it is. -/
structure FreshReads where
  liveHolder : Except UnknownCause (Option String)
  excluded : Bool
  workedIn : Except UnknownCause (Option KeepReason)

/-- `Census::classify`, of the verdict the derivation answers and where it came to it. -/
def classify (census : Census κ) (branch : String) (copies : Copies κ) (fresh : FreshReads)
    (verdict : Retirement κ) (reached : Reached) : Retirement κ :=
  match census.base, census.baseTip with
  | some base, some _ =>
    if branch = base then Retirement.kept census branch .isBase copies
    else
      match fresh.liveHolder with
      | .error cause => Retirement.unknown census branch cause copies
      | .ok (some _) => Retirement.kept census branch .heldByLiveSession copies
      | .ok none =>
        if fresh.excluded then Retirement.kept census branch .excluded copies
        else
          match copies.unreadable.head? with
          | some cause => Retirement.unknown census branch cause copies
          | none =>
            match reached with
            | .early => verdict
            | .concluded =>
              match fresh.workedIn with
              | .ok (some reason) => Retirement.kept census branch reason copies
              | .ok none => verdict
              | .error cause => Retirement.unknown census branch cause copies
  | _, _ =>
    Retirement.unknown census branch
      (census.unreadBase.getD
        ⟨"census", census.publication, "the base could not be read"⟩) copies

/-- A branch no way of acting may delete: kept, for a reason that is not its work. -/
def Retirement.spared (retirement : Retirement κ) : Bool :=
  retirement.retirementClass = .keep && retirement.reason != some .unmergedUniqueCommits

theorem not_permits_of_spared {retirement : Retirement κ} (h : retirement.spared = true)
    (acting : Acting) : acting.permits retirement.retirementClass retirement.reason = false := by
  simp only [Retirement.spared, Bool.and_eq_true, decide_eq_true_eq, bne_iff_ne] at h
  obtain ⟨hclass, hreason⟩ := h
  simp [Acting.permits, hclass, hreason]

theorem kept_spared (census : Census κ) (branch : String) (reason : KeepReason)
    (copies : Copies κ) (h : reason ≠ .unmergedUniqueCommits) :
    (Retirement.kept census branch reason copies).spared = true := by
  simp [Retirement.spared, Retirement.kept, h]

theorem unknown_spared (census : Census κ) (branch : String) (cause : UnknownCause)
    (copies : Copies κ) : (Retirement.unknown census branch cause copies).spared = true := by
  simp [Retirement.spared, Retirement.unknown, Retirement.kept]

/-- A classification spares the branch, or came past every fresh read: to the verdict, or
to a reason the branch is worked in. -/
theorem classify_cases (census : Census κ) (branch : String) (copies : Copies κ)
    (fresh : FreshReads) (verdict : Retirement κ) (reached : Reached) :
    (classify census branch copies fresh verdict reached).spared = true ∨
      (census.base.isSome ∧ census.baseTip.isSome ∧ copies.unreadable = [] ∧
        (classify census branch copies fresh verdict reached = verdict ∨
          ∃ reason, classify census branch copies fresh verdict reached =
            Retirement.kept census branch reason copies)) := by
  unfold classify
  cases census.base with
  | none => exact Or.inl (unknown_spared ..)
  | some base =>
    cases census.baseTip with
    | none => exact Or.inl (unknown_spared ..)
    | some tip =>
      by_cases his : branch = base
      · simp only [if_pos his]
        exact Or.inl (kept_spared _ _ .isBase _ (by decide))
      · simp only [if_neg his]
        rcases fresh.liveHolder with cause | - | session
        · exact Or.inl (unknown_spared ..)
        · by_cases hexcluded : fresh.excluded = true
          · simp only [if_pos hexcluded]
            exact Or.inl (kept_spared _ _ .excluded _ (by decide))
          · simp only [if_neg hexcluded]
            cases copies.unreadable with
            | cons cause rest => exact Or.inl (unknown_spared ..)
            | nil =>
              cases reached with
              | early => exact Or.inr ⟨rfl, rfl, rfl, Or.inl rfl⟩
              | concluded =>
                rcases fresh.workedIn with cause | - | reason
                · exact Or.inl (unknown_spared ..)
                · exact Or.inr ⟨rfl, rfl, rfl, Or.inl rfl⟩
                · exact Or.inr ⟨rfl, rfl, rfl, Or.inr ⟨reason, rfl⟩⟩
        · exact Or.inl (kept_spared _ _ .heldByLiveSession _ (by decide))

/-- What any way of acting may delete was classified with its base read and every place
readable. -/
theorem read_of_permits {census : Census κ} {branch : String} {copies : Copies κ}
    {fresh : FreshReads} {verdict : Retirement κ} {reached : Reached} {acting : Acting}
    (h : acting.permits (classify census branch copies fresh verdict reached).retirementClass
      (classify census branch copies fresh verdict reached).reason = true) :
    census.base.isSome ∧ census.baseTip.isSome ∧ copies.unreadable = [] := by
  rcases classify_cases census branch copies fresh verdict reached with
    hspared | ⟨hbase, htip, hreadable, -⟩
  · simp [not_permits_of_spared hspared acting] at h
  · exact ⟨hbase, htip, hreadable⟩

theorem classify_eq_verdict {census : Census κ} {branch : String} {copies : Copies κ}
    {fresh : FreshReads} {verdict : Retirement κ} {reached : Reached}
    (h : (classify census branch copies fresh verdict reached).retirementClass ≠ .keep) :
    classify census branch copies fresh verdict reached = verdict := by
  rcases classify_cases census branch copies fresh verdict reached with
    hspared | ⟨-, -, -, hverdict | ⟨reason, hkept⟩⟩
  · simp [Retirement.spared, h] at hspared
  · exact hverdict
  · exact absurd (congrArg Retirement.retirementClass hkept) h

end Onevcs.Retire
