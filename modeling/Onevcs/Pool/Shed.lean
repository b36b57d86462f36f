import Mathlib.Algebra.Group.Nat.Defs
import Mathlib.Data.List.Sort
import Onevcs.Foundations.Lines
import Onevcs.Foundations.Picking
import Onevcs.Pool.Capacity

/-!
# Which slots are shed

`retained_branches`, `keeps`, `sheddable`, `shed` and `pool_prune` of `pool.rs`, over what git
says of the slots' clones and of the checkouts they lend from.

What a clone has, and what a checkout reaches, stand beside what git answers about them. An
answer is true of what it is about; but git may also decline, and `is_repo` and `refs_reach`
answer no where it does.
-/

namespace Onevcs.Pool.Shed

open Foundations (Text pick EnoughBefore)

/-- What a clone has: its branches, and the commit each is at. -/
structure Clone (γ : Type) where
  branches : List Text
  tip : Text → γ

/-- The clones in slots' directories and the commits the refs of a checkout reach, and what
git answers about them. -/
structure Git (κ δ γ : Type) where
  clone : δ → Option (Clone γ)
  reaches : κ → γ → Bool
  isRepo : δ → Bool
  branches : δ → Except Text (List Text)
  tip : δ → Text → Option γ
  refsReach : κ → γ → Bool
  isRepo_clone : ∀ dir, isRepo dir = true → (clone dir).isSome
  branches_eq : ∀ dir held names, clone dir = some held → branches dir = .ok names →
    names = held.branches
  tip_eq : ∀ dir held name commit, clone dir = some held → tip dir name = some commit →
    commit = held.tip name
  reaches_of : ∀ lender commit, refsReach lender commit = true → reaches lender commit = true

/-- Why a slot is kept. -/
inductive Reason (τ κ : Type)
  | working (session : τ)
  | claimed (pid : ℕ) (since : String)
  | unasked (why : Text)
  | retains (branches : List Text) (lender : κ)
  | notRemoved (why : Text)
  deriving DecidableEq

/-- `Survey`, its slots by number. -/
structure Survey (τ κ δ : Type) where
  slots : List (Capacity.Surveyed τ κ δ)
  sorted : slots.Pairwise fun slot next => slot.number ≤ next.number

section Definitions

variable {τ κ δ γ : Type}

variable (git : Git κ δ γ)

/-- The lender reaches a branch of a clone. -/
def reached (dir : δ) (lender : Option κ) (branch : Text) : Bool :=
  match git.tip dir branch, lender with
  | some tip, some lender => git.refsReach lender tip
  | _, _ => false

def retainedBranches (dir : δ) (lender : Option κ) : Except Text (List Text) :=
  if !git.isRepo dir then .ok []
  else (git.branches dir).map fun branches =>
    branches.filter fun branch => !reached git dir lender branch

/-- What `keeps` says of a slot nobody has: one without a readable lender is judged against the
given checkout. -/
def keepsRetained (judge : κ) (slot : Capacity.Surveyed τ κ δ) : Option (Reason τ κ) :=
  let lender := slot.lender.getD judge
  match retainedBranches git slot.dir (some lender) with
  | .error why => some (.unasked why)
  | .ok [] => none
  | .ok (branch :: rest) => some (.retains (branch :: rest) lender)

/-- `keeps`: why a slot is kept rather than removed. -/
def keeps (judge : κ) (slot : Capacity.Surveyed τ κ δ) : Option (Reason τ κ) :=
  match slot.state with
  | .inUse session => some (.working session)
  | .maintaining pid since => some (.claimed pid since)
  | .idle | .broken _ => keepsRetained git judge slot

/-- How many slots are above the file's pool, as a `u32`. -/
def surplus (survey : Survey τ κ δ) (filePool : ℕ) : ℕ :=
  min survey.slots.length (2 ^ 32 - 1) - filePool

/-- The loop of `sheddable`. -/
def shedFrom (judge : κ) : List (Capacity.Surveyed τ κ δ) → ℕ → List (Capacity.Surveyed τ κ δ)
  | [], _ | _ :: _, 0 => []
  | slot :: rest, surplus + 1 =>
    if !slot.takeable || (keeps git judge slot).isSome then shedFrom judge rest (surplus + 1)
    else slot :: shedFrom judge rest surplus

def sheddable (survey : Survey τ κ δ) (filePool : ℕ) (judge : κ) : List (Capacity.Surveyed τ κ δ) :=
  shedFrom git judge survey.slots.reverse (surplus survey filePool)

variable (remove : Capacity.Surveyed τ κ δ → Except Text Unit)

/-- The clone of a slot has a branch its lender does not reach. -/
def Strands (judge : κ) (slot : Capacity.Surveyed τ κ δ) : Bool :=
  (git.clone slot.dir).any fun held => held.branches.any fun branch =>
    !git.reaches (slot.lender.getD judge) (held.tip branch)

/-- There is no clone, or git says that it is a repository, what its branches are, and of each
that the lender reaches it where it does. -/
def Asked (judge : κ) (slot : Capacity.Surveyed τ κ δ) : Bool :=
  (git.clone slot.dir).all fun held =>
    git.isRepo slot.dir && (git.branches slot.dir).isOk && held.branches.all fun branch =>
      (git.tip slot.dir branch).isSome &&
        (!git.reaches (slot.lender.getD judge) (held.tip branch) ||
          git.refsReach (slot.lender.getD judge) (held.tip branch))

/-- A slot that may be shed: takeable, and shown to retain nothing. -/
def Qualifies (judge : κ) (slot : Capacity.Surveyed τ κ δ) : Bool :=
  slot.takeable && Asked git judge slot && !Strands git judge slot

/-- A clone is there, and git does not say that it is a repository. -/
def Unread (slot : Capacity.Surveyed τ κ δ) : Bool :=
  (git.clone slot.dir).isSome && !git.isRepo slot.dir

/-- The slots shed are takeable; they are the first of those that qualify, from the highest
number down; none of them retains a branch, or could not be asked; enough are left for the
file's pool; and they are as many as are above it, where so many qualify. -/
structure Bounded (survey : Survey τ κ δ) (filePool : ℕ) (judge : κ)
    (shed : List (Capacity.Surveyed τ κ δ)) : Prop where
  takeable : ∀ slot ∈ shed, slot.takeable = true
  highestFirst : shed <+: survey.slots.reverse.filter (Qualifies git judge)
  descending : shed.Pairwise fun slot next => next.number ≤ slot.number
  spares : ∀ slot ∈ shed, Strands git judge slot = false ∧ Asked git judge slot = true
  leaves : min filePool survey.slots.length ≤ survey.slots.length - shed.length
  exactly : shed.length =
    min (surplus survey filePool) (survey.slots.countP (Qualifies git judge))

end Definitions

section Results

variable {τ κ δ γ : Type} {git : Git κ δ γ} {judge : κ} {slot : Capacity.Surveyed τ κ δ}
  {dir : δ} {lender : κ} {held : Clone γ} {survey : Survey τ κ δ} {filePool : ℕ}

/-- What the loops of `sheddable` and `pool_prune` may remove. -/
def removable (git : Git κ δ γ) (judge : κ) (slot : Capacity.Surveyed τ κ δ) : Bool :=
  slot.takeable && (keeps git judge slot).isNone

theorem keepsRetained_eq_none_iff : keepsRetained git judge slot = none ↔
    retainedBranches git slot.dir (some (slot.lender.getD judge)) = .ok [] := by
  simp only [keepsRetained]
  generalize retainedBranches git slot.dir (some (slot.lender.getD judge)) = answer
  rcases answer with why | retained
  · simp
  · cases retained <;> simp

theorem keeps_of_takeable (h : slot.takeable = true) :
    keeps git judge slot = keepsRetained git judge slot := by
  unfold Capacity.Surveyed.takeable at h
  unfold keeps
  cases hstate : slot.state with
  | inUse session => simp [hstate] at h
  | maintaining pid since => simp [hstate] at h
  | idle => rfl
  | broken reason => rfl

/-- Of a clone that was read, git says nothing is retained exactly where it could be asked
about every branch and the lender reaches each. -/
theorem retainedBranches_eq_nil_iff (hclone : git.clone dir = some held)
    (hrepo : git.isRepo dir = true) :
    retainedBranches git dir (some lender) = .ok [] ↔
      (git.branches dir).isOk = true ∧ ∀ branch ∈ held.branches,
        (git.tip dir branch).isSome = true ∧ git.refsReach lender (held.tip branch) = true := by
  unfold retainedBranches
  rw [hrepo, Bool.not_true, if_neg Bool.false_ne_true]
  cases hbranches : git.branches dir with
  | error why => simp [Except.map, Except.isOk, Except.toBool]
  | ok names =>
    obtain rfl := git.branches_eq dir held names hclone hbranches
    have hreached : ∀ branch ∈ held.branches, (reached git dir (some lender) branch = true ↔
        (git.tip dir branch).isSome = true ∧
          git.refsReach lender (held.tip branch) = true) := by
      intro branch _
      unfold reached
      cases htip : git.tip dir branch with
      | none => simp
      | some commit =>
        obtain rfl := git.tip_eq dir held branch commit hclone htip
        simp
    rw [Except.map, Except.ok.injEq, List.filter_eq_nil_iff]
    refine Iff.trans ?_ (and_iff_right rfl).symm
    refine forall₂_congr fun branch hbranch => ?_
    rw [← hreached branch hbranch]
    simp

/-- A slot is removable exactly where it qualifies, or is takeable and its clone was not
read. -/
theorem removable_iff : removable git judge slot = true ↔
    Qualifies git judge slot = true ∨ (slot.takeable = true ∧ Unread git slot = true) := by
  unfold removable Qualifies
  cases htakeable : slot.takeable with
  | false => simp
  | true =>
    rw [Bool.true_and, keeps_of_takeable htakeable, Option.isNone_iff_eq_none,
      keepsRetained_eq_none_iff]
    unfold Asked Strands Unread
    cases hclone : git.clone slot.dir with
    | none =>
      have hrepo : git.isRepo slot.dir = false := by
        by_contra hrepo
        have hsome := git.isRepo_clone slot.dir (by simpa using hrepo)
        simp [hclone] at hsome
      simp [retainedBranches, hrepo]
    | some held =>
      cases hrepo : git.isRepo slot.dir with
      | false => simp [retainedBranches, hrepo]
      | true =>
        rw [retainedBranches_eq_nil_iff hclone hrepo]
        have hreaches := git.reaches_of (slot.lender.getD judge)
        simp only [Option.all_some, Option.any_some, Option.isSome_some, Bool.true_and,
          Bool.not_true, Bool.and_false, reduceCtorEq, and_false, or_false, Bool.and_eq_true,
          List.all_eq_true, Bool.not_eq_true', List.any_eq_false, Bool.or_eq_true]
        constructor
        · rintro ⟨hok, hall⟩
          refine ⟨⟨hok, fun branch hbranch => ?_⟩, fun branch hbranch => ?_⟩
          · exact ⟨(hall branch hbranch).1, .inr (hall branch hbranch).2⟩
          · simp [hreaches _ (hall branch hbranch).2]
        · rintro ⟨⟨hok, hasked⟩, hreached⟩
          refine ⟨hok, fun branch hbranch => ⟨(hasked branch hbranch).1, ?_⟩⟩
          rcases (hasked branch hbranch).2 with hnot | href
          · exact absurd hnot (by simpa using hreached branch hbranch)
          · exact href

theorem qualifies_of_unread (h : Unread git slot = true) : Qualifies git judge slot = false := by
  unfold Unread at h
  unfold Qualifies Asked
  rw [Bool.and_eq_true] at h
  obtain ⟨held, hclone⟩ := Option.isSome_iff_exists.mp h.1
  have hrepo : git.isRepo slot.dir = false := by simpa using h.2
  simp [hclone, hrepo]

theorem removable_of_qualifies (h : Qualifies git judge slot = true) :
    removable git judge slot = true := removable_iff.mpr (.inl h)

theorem unread_iff : removable git judge slot = true ∧ Qualifies git judge slot = false ↔
    slot.takeable = true ∧ Unread git slot = true := by
  constructor
  · rintro ⟨hremovable, hnot⟩
    rcases removable_iff.mp hremovable with hqualifies | hunread
    · rw [hnot] at hqualifies
      cases hqualifies
    · exact hunread
  · rintro ⟨htakeable, hunread⟩
    exact ⟨removable_iff.mpr (.inr ⟨htakeable, hunread⟩), qualifies_of_unread hunread⟩

/-! ## What is shed -/

theorem shedFrom_eq (slots : List (Capacity.Surveyed τ κ δ)) (count : ℕ) :
    shedFrom git judge slots count = pick (removable git judge) slots count := by
  induction slots generalizing count with
  | nil => rfl
  | cons slot rest ih =>
    cases count with
    | zero => rfl
    | succ count =>
      unfold shedFrom pick removable
      cases slot.takeable <;> cases keeps git judge slot <;> simp [ih] <;> rfl

/-- A pick of one passes over what may not be picked. -/
example : pick (fun slot => slot % 2 == 0) [5, 4, 2] 1 = [4] := by decide +kernel

theorem sheddable_eq : sheddable git survey filePool judge =
    pick (removable git judge) survey.slots.reverse (surplus survey filePool) :=
  shedFrom_eq _ _

theorem descending_sheddable :
    (sheddable git survey filePool judge).Pairwise fun slot next => next.number ≤ slot.number := by
  rw [sheddable_eq]
  exact (List.pairwise_reverse.mpr survey.sorted).sublist (Foundations.pick_sublist _ _ _)

theorem leaves_sheddable : min filePool survey.slots.length ≤
    survey.slots.length - (sheddable git survey filePool judge).length := by
  have hlength : (sheddable git survey filePool judge).length ≤ surplus survey filePool := by
    rw [sheddable_eq, Foundations.length_pick]
    exact Nat.min_le_left _ _
  unfold surplus at hlength
  omega

theorem bounded_of_enough (h : EnoughBefore (removable git judge) (Qualifies git judge)
    survey.slots.reverse (surplus survey filePool)) :
    Bounded git survey filePool judge (sheddable git survey filePool judge) := by
  have heq : sheddable git survey filePool judge =
      pick (Qualifies git judge) survey.slots.reverse (surplus survey filePool) := by
    rw [sheddable_eq, Foundations.pick_congr (fun _ => removable_of_qualifies) h]
  have hqualifies : ∀ slot ∈ sheddable git survey filePool judge,
      Qualifies git judge slot = true := by
    intro slot hslot
    rw [heq] at hslot
    exact Foundations.of_mem_pick hslot
  refine ⟨fun slot hslot => ?_, ?_, descending_sheddable, fun slot hslot => ?_,
    leaves_sheddable, ?_⟩
  · have hslot := hqualifies slot hslot
    simp only [Qualifies, Bool.and_eq_true] at hslot
    exact hslot.1.1
  · rw [heq, Foundations.pick_eq_take]
    exact List.take_prefix _ _
  · have hslot := hqualifies slot hslot
    simp only [Qualifies, Bool.and_eq_true, Bool.not_eq_true'] at hslot
    exact ⟨hslot.2, hslot.1.2⟩
  · rw [heq, Foundations.length_pick, List.countP_reverse]

/-- What is shed is bounded exactly where, before any takeable slot whose clone is there and was
not read, enough others of higher numbers qualify. -/
theorem shed_bounded_iff (git : Git κ δ γ) (survey : Survey τ κ δ) (filePool : ℕ) (judge : κ) :
    Bounded git survey filePool judge (sheddable git survey filePool judge) ↔
      ∀ below slot above, survey.slots = below ++ slot :: above → slot.takeable = true →
        Unread git slot = true →
        surplus survey filePool ≤ above.countP (Qualifies git judge) := by
  have henough : EnoughBefore (removable git judge) (Qualifies git judge) survey.slots.reverse
        (surplus survey filePool) ↔
      ∀ below slot above, survey.slots = below ++ slot :: above → slot.takeable = true →
        Unread git slot = true →
        surplus survey filePool ≤ above.countP (Qualifies git judge) := by
    constructor
    · intro h below slot above hsplit htakeable hunread
      obtain ⟨hremovable, hnot⟩ := unread_iff.mpr ⟨htakeable, hunread⟩
      have hcount := h above.reverse slot below.reverse (by simp [hsplit]) hremovable hnot
      rwa [List.countP_reverse] at hcount
    · intro h before slot after hsplit hremovable hnot
      obtain ⟨htakeable, hunread⟩ := unread_iff.mp ⟨hremovable, hnot⟩
      have hreverse : survey.slots = after.reverse ++ slot :: before.reverse := by
        rw [← List.reverse_reverse survey.slots, hsplit]
        simp
      have hcount := h after.reverse slot before.reverse hreverse htakeable hunread
      rwa [List.countP_reverse] at hcount
  rw [← henough]
  constructor
  · intro h
    refine (Foundations.pick_congr_iff fun _ => removable_of_qualifies).mp fun slot hslot => ?_
    rw [← sheddable_eq] at hslot
    obtain ⟨hstrands, hasked⟩ := h.spares slot hslot
    simp [Qualifies, h.takeable slot hslot, hstrands, hasked]
  · exact bounded_of_enough

variable {remove : Capacity.Surveyed τ κ δ → Except Text Unit}

end Results

section Unread

/-- A clone with one branch, which the checkout does not reach; git does not read it as a
repository. -/
def unread : Git ℕ ℕ ℕ where
  clone _ := some ⟨["work".toList], fun _ => 7⟩
  reaches _ _ := false
  isRepo _ := false
  branches _ := .error "fatal: not a git repository".toList
  tip _ _ := none
  refsReach _ _ := false
  isRepo_clone _ h := by cases h
  branches_eq _ _ _ _ h := by cases h
  tip_eq _ _ _ _ _ h := by cases h
  reaches_of _ _ h := by cases h

/-- Its slot, which is broken, in a pool that the file has no room for. -/
def damaged : Survey ℕ ℕ ℕ where
  slots := [⟨1, 1, some 0, .broken "its clone is missing or not a repository", nofun⟩]
  sorted := List.pairwise_singleton _ _

/-- The slot is shed with the branch its clone has. -/
theorem unread_shed :
    sheddable unread damaged 0 0 = damaged.slots ∧
      ¬ Bounded unread damaged 0 0 (sheddable unread damaged 0 0) := by
  have hshed : sheddable unread damaged 0 0 = damaged.slots := rfl
  refine ⟨hshed, fun h => ?_⟩
  have hmem : damaged.slots.head (by decide) ∈ sheddable unread damaged 0 0 := by
    rw [hshed]
    exact List.head_mem _
  obtain ⟨hstrands, -⟩ := h.spares _ hmem
  exact absurd hstrands (by decide)

end Unread

end Onevcs.Pool.Shed
