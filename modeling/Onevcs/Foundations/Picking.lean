import Mathlib.Data.List.Basic
import Mathlib.Data.List.Count

/-!
# The first so many of a list that a predicate takes

A loop over a list that takes what a predicate admits until it has enough.
-/

namespace Foundations

variable {α : Type*} {p q : α → Bool} {x : α} {l : List α} {n : ℕ}

/-- The first so many elements that are admitted. -/
def pick (p : α → Bool) : List α → ℕ → List α
  | [], _ | _ :: _, 0 => []
  | x :: rest, n + 1 => if p x then x :: pick p rest n else pick p rest (n + 1)

theorem pick_zero (l : List α) : pick p l 0 = [] := by
  cases l <;> rfl

theorem pick_cons_of_pos (h : p x = true) (l : List α) (n : ℕ) :
    pick p (x :: l) (n + 1) = x :: pick p l n := by
  rw [pick, if_pos h]

theorem pick_cons_of_neg (h : p x = false) (l : List α) (n : ℕ) :
    pick p (x :: l) n = pick p l n := by
  cases n with
  | zero => rw [pick_zero, pick_zero]
  | succ n => rw [pick, h, if_neg Bool.false_ne_true]

theorem pick_eq_take (p : α → Bool) (l : List α) (n : ℕ) : pick p l n = (l.filter p).take n := by
  induction l generalizing n with
  | nil => rw [pick, List.filter_nil, List.take_nil]
  | cons x l ih =>
    cases hp : p x with
    | true =>
      cases n with
      | zero => rw [pick_zero, List.take_zero]
      | succ n => rw [pick_cons_of_pos hp, List.filter_cons_of_pos hp, List.take_succ_cons, ih]
    | false =>
      rw [pick_cons_of_neg hp, List.filter_cons_of_neg (by rw [hp]; exact Bool.false_ne_true), ih]

theorem pick_sublist (p : α → Bool) (l : List α) (n : ℕ) : (pick p l n).Sublist l := by
  rw [pick_eq_take]
  exact (List.take_sublist n _).trans List.filter_sublist

theorem of_mem_pick (h : x ∈ pick p l n) : p x = true := by
  rw [pick_eq_take] at h
  exact (List.mem_filter.mp (List.mem_of_mem_take h)).2

theorem length_pick (p : α → Bool) (l : List α) (n : ℕ) :
    (pick p l n).length = min n (l.countP p) := by
  rw [pick_eq_take, List.length_take, List.countP_eq_length_filter]

/-- Nothing the stricter predicate refuses stands among the first so many it admits. -/
def EnoughBefore (p q : α → Bool) (l : List α) (n : ℕ) : Prop :=
  ∀ before x after, l = before ++ x :: after → p x = true → q x = false → n ≤ before.countP q

theorem enoughBefore_cons_of_pos (hq : q x = true) :
    EnoughBefore p q (x :: l) (n + 1) ↔ EnoughBefore p q l n := by
  constructor
  · intro h before y after hsplit hp hqy
    have hcount := h (x :: before) y after (by rw [hsplit, List.cons_append]) hp hqy
    rw [List.countP_cons_of_pos hq] at hcount
    exact Nat.le_of_succ_le_succ hcount
  · intro h before y after hsplit hp hqy
    cases before with
    | nil =>
      obtain ⟨rfl, -⟩ := List.cons.inj hsplit
      rw [hq] at hqy
      cases hqy
    | cons z before =>
      obtain ⟨rfl, hrest⟩ := List.cons.inj hsplit
      rw [List.countP_cons_of_pos hq]
      exact Nat.succ_le_succ (h before y after hrest hp hqy)

theorem enoughBefore_cons_of_neg (hp : p x = false) (himp : ∀ y, q y = true → p y = true) :
    EnoughBefore p q (x :: l) n ↔ EnoughBefore p q l n := by
  have hq : ¬ q x = true := fun h => Bool.false_ne_true (hp.symm.trans (himp x h))
  constructor
  · intro h before y after hsplit hpy hqy
    have hcount := h (x :: before) y after (by rw [hsplit, List.cons_append]) hpy hqy
    rwa [List.countP_cons_of_neg hq] at hcount
  · intro h before y after hsplit hpy hqy
    cases before with
    | nil =>
      obtain ⟨rfl, -⟩ := List.cons.inj hsplit
      rw [hp] at hpy
      cases hpy
    | cons z before =>
      obtain ⟨rfl, hrest⟩ := List.cons.inj hsplit
      rw [List.countP_cons_of_neg hq]
      exact h before y after hrest hpy hqy

/-- What is picked is all admitted by the stricter predicate exactly where that admits enough
before anything it refuses. -/
theorem pick_congr_iff (himp : ∀ y, q y = true → p y = true) :
    (∀ x ∈ pick p l n, q x = true) ↔ EnoughBefore p q l n := by
  induction l generalizing n with
  | nil =>
    refine iff_of_true (fun x hx => ?_) (fun before x after hsplit => ?_)
    · cases hx
    · exact absurd hsplit.symm (List.append_ne_nil_of_right_ne_nil _ (List.cons_ne_nil _ _))
  | cons x l ih =>
    cases n with
    | zero =>
      rw [pick_zero]
      exact iff_of_true nofun fun _ _ _ _ _ _ => Nat.zero_le _
    | succ n =>
      cases hp : p x with
      | false => rw [pick_cons_of_neg hp, enoughBefore_cons_of_neg hp himp, ih]
      | true =>
        rw [pick_cons_of_pos hp]
        cases hq : q x with
        | true =>
          rw [enoughBefore_cons_of_pos hq, ← ih]
          exact List.forall_mem_cons.trans (and_iff_right hq)
        | false =>
          refine iff_of_false (fun h => ?_) fun h => ?_
          · have hx := h x List.mem_cons_self
            rw [hq] at hx
            cases hx
          · exact absurd (h [] x l rfl hp hq) (Nat.not_succ_le_zero n)

/-- It then picks what the stricter one does. -/
theorem pick_congr (himp : ∀ y, q y = true → p y = true) (h : EnoughBefore p q l n) :
    pick p l n = pick q l n := by
  induction l generalizing n with
  | nil => rfl
  | cons x l ih =>
    cases n with
    | zero => rw [pick_zero, pick_zero]
    | succ n =>
      cases hq : q x with
      | true =>
        rw [pick_cons_of_pos (himp x hq), pick_cons_of_pos hq,
          ih ((enoughBefore_cons_of_pos hq).mp h)]
      | false =>
        cases hp : p x with
        | false =>
          rw [pick_cons_of_neg hp, pick_cons_of_neg hq,
            ih ((enoughBefore_cons_of_neg hp himp).mp h)]
        | true => exact absurd (h [] x l rfl hp hq) (Nat.not_succ_le_zero n)

end Foundations
