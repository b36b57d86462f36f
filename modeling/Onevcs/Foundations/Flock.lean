import Mathlib.Data.List.Basic
import Mathlib.Data.List.Nodup
import Mathlib.Logic.Function.Basic

/-!
# Advisory file locks

The kernel's view of one lock file under `flock`: which open file descriptions hold
it and how. Two descriptions conflict exactly as `flock` says, whichever process or
thread opened them: any number may share the file, and an exclusive holder is alone.

The conflict rule is a field of the structure, so every value of `Flock` is a state
the kernel can be in, and the operations below each carry the proof that they keep
it. What a proof about a program then uses is `Flock.exclusive_alone` and the
membership lemmas of the operations.
-/

namespace Foundations

/-- How a lock file is held: beside other shared holders, or alone. -/
inductive Mode
  | shared
  | exclusive
  deriving DecidableEq

/-- One lock file: the open descriptions that hold it, each with its mode. -/
structure Flock (δ : Type*) where
  /-- The holders. -/
  held : List (δ × Mode)
  /-- A description holds the file in one mode. -/
  nodup : (held.map Prod.fst).Nodup
  /-- An exclusive holder is the only one. -/
  alone : ∀ e ∈ held, e.2 = Mode.exclusive → held = [e]

namespace Flock

variable {δ : Type*}

/-- A lock file nobody holds. -/
def free : Flock δ where
  held := []
  nodup := by simp
  alone := by simp

@[simp] theorem held_free : (free : Flock δ).held = [] := rfl

/-- Description `d` holds the file in `mode`. -/
def Holds (L : Flock δ) (d : δ) (mode : Mode) : Prop := (d, mode) ∈ L.held

/-- The kernel grants `mode` beside the present holders. -/
def Grants (L : Flock δ) : Mode → Prop
  | .exclusive => L.held = []
  | .shared => ∀ e ∈ L.held, e.2 = Mode.shared

/-- Description `d` does not hold the file. -/
def Fresh (L : Flock δ) (d : δ) : Prop := d ∉ L.held.map Prod.fst

instance [DecidableEq δ] (L : Flock δ) (mode : Mode) : Decidable (L.Grants mode) := by
  cases mode with
  | exclusive => exact decidable_of_iff (L.held.length = 0) List.length_eq_zero_iff
  | shared => exact List.decidableBAll _ _

instance [DecidableEq δ] (L : Flock δ) (d : δ) : Decidable (L.Fresh d) :=
  inferInstanceAs (Decidable (d ∉ L.held.map Prod.fst))

instance [DecidableEq δ] (L : Flock δ) (d : δ) (mode : Mode) : Decidable (L.Holds d mode) :=
  inferInstanceAs (Decidable ((d, mode) ∈ L.held))

/-- The one fact every exclusion argument ends in: beside an exclusive holder there
is no other. -/
theorem exclusive_alone {L : Flock δ} {d e : δ} {mode : Mode}
    (hd : L.Holds d .exclusive) (he : L.Holds e mode) : e = d ∧ mode = .exclusive := by
  have hsole : L.held = [(d, Mode.exclusive)] := L.alone _ hd rfl
  have hmem : (e, mode) ∈ L.held := he
  rw [hsole, List.mem_singleton, Prod.mk.injEq] at hmem
  exact hmem

theorem Grants.not_holds {L : Flock δ} {d : δ} {mode : Mode}
    (hfree : L.Grants .exclusive) : ¬ L.Holds d mode := by
  intro hheld
  have hnil : L.held = [] := hfree
  simp [Holds, hnil] at hheld

section Operations

variable [DecidableEq δ]

/-- The lock with `d` among its holders. -/
def grant (L : Flock δ) (d : δ) (mode : Mode) (hfresh : L.Fresh d) (hgrants : L.Grants mode) :
    Flock δ where
  held := (d, mode) :: L.held
  nodup := List.nodup_cons.mpr ⟨hfresh, L.nodup⟩
  alone := by
    intro e hmem hexclusive
    cases mode with
    | exclusive =>
      have hnil : L.held = [] := hgrants
      simp only [hnil, List.mem_singleton] at hmem ⊢
      rw [hmem]
    | shared =>
      rcases List.mem_cons.mp hmem with rfl | htail
      · exact Mode.noConfusion hexclusive
      · exact Mode.noConfusion ((hgrants e htail).symm.trans hexclusive)

/-- A take by a description that does not hold the file, answered at once: granted
when the present holders leave room for it. -/
def take (L : Flock δ) (d : δ) (mode : Mode) : Option (Flock δ) :=
  if h : L.Fresh d ∧ L.Grants mode then some (L.grant d mode h.1 h.2) else none

/-- The file once `d` has let it go, by `unlock` or by being closed. -/
def drop (L : Flock δ) (d : δ) : Flock δ where
  held := L.held.filter fun e => e.1 ≠ d
  nodup := (List.filter_sublist.map Prod.fst).nodup L.nodup
  alone := by
    intro e hmem hexclusive
    have hin := (List.mem_filter.mp hmem).1
    have hsole := L.alone e hin hexclusive
    have hkeep := (List.mem_filter.mp hmem).2
    rw [hsole]
    simp only [List.filter_cons, hkeep, if_true, List.filter_nil]

/-- Turn the hold of `d` into a shared one in place. -/
def share (L : Flock δ) (d : δ) : Flock δ where
  held := L.held.map fun e => if e.1 = d then (e.1, Mode.shared) else e
  nodup := by
    have hsame : (fun e : δ × Mode => (if e.1 = d then (e.1, Mode.shared) else e).1) = Prod.fst := by
      funext e
      split <;> rfl
    rw [List.map_map]
    simpa [Function.comp_def, hsame] using L.nodup
  alone := by
    intro e hmem hexclusive
    obtain ⟨f, hf, rfl⟩ := List.mem_map.mp hmem
    by_cases hd : f.1 = d
    · simp [hd] at hexclusive
    · have hfe : f.2 = Mode.exclusive := by simpa [hd] using hexclusive
      rw [L.alone f hf hfe]
      simp [hd]

variable {L L' : Flock δ} {d e : δ} {mode mode' : Mode}

theorem take_eq_some (h : L.take d mode = some L') :
    L.Fresh d ∧ L.Grants mode ∧ L'.held = (d, mode) :: L.held := by
  unfold take at h
  split at h
  · next hcan =>
    obtain rfl := Option.some.inj h
    exact ⟨hcan.1, hcan.2, rfl⟩
  · exact absurd h (by simp)

theorem take_holds_iff (h : L.take d mode = some L') :
    L'.Holds e mode' ↔ (e = d ∧ mode' = mode) ∨ L.Holds e mode' := by
  simp [Holds, (take_eq_some h).2.2]

theorem take_holds (h : L.take d mode = some L') : L'.Holds d mode :=
  (take_holds_iff h).mpr (Or.inl ⟨rfl, rfl⟩)

@[simp] theorem drop_holds_iff : (L.drop d).Holds e mode ↔ L.Holds e mode ∧ e ≠ d := by
  simp [Holds, drop, List.mem_filter]

theorem share_holds_iff :
    (L.share d).Holds e mode ↔
      (L.Holds e mode ∧ e ≠ d) ∨ (e = d ∧ mode = .shared ∧ ∃ m, L.Holds d m) := by
  constructor
  · intro h
    obtain ⟨⟨f, m⟩, hf, heq⟩ := List.mem_map.mp h
    by_cases hd : f = d
    · subst hd
      simp only [if_true, Prod.mk.injEq] at heq
      exact Or.inr ⟨heq.1.symm, heq.2.symm, m, hf⟩
    · simp only [hd, if_false, Prod.mk.injEq] at heq
      obtain ⟨rfl, rfl⟩ := heq
      exact Or.inl ⟨hf, hd⟩
  · rintro (⟨h, hne⟩ | ⟨rfl, rfl, m, h⟩)
    · exact List.mem_map.mpr ⟨(e, mode), h, by simp [hne]⟩
    · exact List.mem_map.mpr ⟨(e, m), h, by simp⟩

theorem share_holds_of_ne (hne : e ≠ d) : (L.share d).Holds e mode ↔ L.Holds e mode := by
  simp [share_holds_iff, hne]

/-- A holder that shares lets another share the file, and none take it alone. -/
example : ((((free : Flock ℕ).take 0 .shared).bind fun L => L.take 1 .shared).isSome ∧
    (((free : Flock ℕ).take 0 .shared).bind fun L => L.take 1 .exclusive).isSome = false) := by
  decide +kernel

section Family

variable {ι : Type*} [DecidableEq ι] {files : ι → Flock δ} {i j : ι}

/-- A take at one file leaves what is held at every file. -/
theorem holds_update_take (htake : (files i).take d mode = some L') (h : (files j).Holds e mode') :
    (Function.update files i L' j).Holds e mode' := by
  by_cases hji : j = i
  · subst hji
    rw [Function.update_self]
    exact (take_holds_iff htake).mpr (Or.inr h)
  · rwa [Function.update_of_ne hji]

theorem holds_update_drop :
    (Function.update files i ((files i).drop d) j).Holds e mode ↔
      (files j).Holds e mode ∧ ¬ (j = i ∧ e = d) := by
  by_cases hji : j = i
  · subst hji
    simp
  · simp [hji]

end Family

end Operations

end Flock

end Foundations
