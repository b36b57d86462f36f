import Mathlib.Data.List.Nodup
import Mathlib.Data.List.TakeWhile

/-!
# First in, first out

A queue whose entries may leave from anywhere: what was pushed, in order, what has been
served, and what still waits. First in, first out means that what was served, followed by
what waits, is in the order of the pushes.
-/

namespace Foundations

variable {α : Type*}

/-- What is served, followed by what waits, is in the order of the pushes. -/
structure Fifo (served waiting pushed : List α) : Prop where
  nodup : pushed.Nodup
  ordered : (served ++ waiting).Sublist pushed

/-- Two entries stand in one order only. -/
theorem not_sublist_swap {l : List α} (hnodup : l.Nodup) {a b : α} (hab : [a, b].Sublist l) :
    ¬ [b, a].Sublist l := by
  induction l with
  | nil => cases hab
  | cons c l ih =>
    obtain ⟨hc, hnodup⟩ := List.nodup_cons.mp hnodup
    intro hba
    rcases List.sublist_cons_iff.mp hab with hab' | ⟨r, hr, hrest⟩
    · rcases List.sublist_cons_iff.mp hba with hba' | ⟨r, hr, -⟩
      · exact ih hnodup hab' hba'
      · have hbc : b = c := (List.cons.inj hr).1
        exact hc (hbc ▸ hab'.subset (by simp))
    · obtain ⟨hac, rfl⟩ := List.cons.inj hr
      rcases List.sublist_cons_iff.mp hba with hba' | ⟨r, hr, -⟩
      · exact hc (hac ▸ hba'.subset (by simp))
      · have hbc : b = c := (List.cons.inj hr).1
        exact hc (hbc ▸ hrest.subset (by simp))

namespace Fifo

variable {served waiting waiting' pushed : List α} {a b : α}

theorem start (hnodup : pushed.Nodup) (hwaiting : waiting.Sublist pushed) :
    Fifo [] waiting pushed :=
  ⟨hnodup, hwaiting⟩

theorem served_sublist (h : Fifo served waiting pushed) : served.Sublist pushed :=
  (List.sublist_append_left served waiting).trans h.ordered

/-- Entries leave the queue. -/
theorem leave (h : Fifo served waiting pushed) (hleft : waiting'.Sublist waiting) :
    Fifo served waiting' pushed :=
  ⟨h.nodup, (hleft.append_left served).trans h.ordered⟩

/-- A new entry goes to the end. -/
theorem push (h : Fifo served waiting pushed) (ha : a ∉ pushed) :
    Fifo served (waiting ++ [a]) (pushed ++ [a]) := by
  refine ⟨List.nodup_append'.mpr ⟨h.nodup, List.nodup_singleton a, ?_⟩, ?_⟩
  · exact List.disjoint_singleton.mpr ha
  · rw [← List.append_assoc]
    exact h.ordered.append_right [a]

/-- The first that waits is served. -/
theorem serve (h : Fifo served (a :: waiting) pushed) : Fifo (served ++ [a]) waiting pushed :=
  ⟨h.nodup, by simpa using h.ordered⟩

theorem not_overtaken (h : Fifo served waiting pushed) (ha : a ∈ served) (hb : b ∈ waiting) :
    ¬ [b, a].Sublist pushed := by
  apply not_sublist_swap h.nodup
  have hpair : [a, b].Sublist (served ++ waiting) :=
    (List.singleton_sublist.mpr ha).append (List.singleton_sublist.mpr hb)
  exact hpair.trans h.ordered

end Fifo

/-- A queue that loses entries and keeps its head has the same head. -/
theorem head?_eq_of_sublist {l l' : List α} (hnodup : l.Nodup) (hsub : l'.Sublist l) {a : α}
    (hhead : l.head? = some a) (hkept : a ∈ l') : l'.head? = some a := by
  cases l with
  | nil => cases hhead
  | cons b l =>
    obtain rfl : b = a := Option.some.inj hhead
    rcases List.sublist_cons_iff.mp hsub with hsub | ⟨r, rfl, -⟩
    · exact absurd (hsub.subset hkept) (List.nodup_cons.mp hnodup).1
    · rfl

variable [DecidableEq α]

def ahead (a : α) (l : List α) : List α := l.takeWhile fun b => b ≠ a

@[simp] theorem ahead_cons_self (a : α) (l : List α) : ahead a (a :: l) = [] := by
  simp [ahead]

theorem ahead_cons_of_ne {a b : α} (hne : b ≠ a) (l : List α) :
    ahead a (b :: l) = b :: ahead a l := by
  simp [ahead, hne]

theorem mem_of_mem_ahead {a b : α} {l : List α} (hb : b ∈ ahead a l) : b ∈ l :=
  (List.takeWhile_sublist _).subset hb

theorem ne_of_mem_ahead {a b : α} {l : List α} (hb : b ∈ ahead a l) : b ≠ a := by
  simpa using List.mem_takeWhile_imp hb

/-- What comes after an entry is not ahead of it. -/
theorem ahead_append {a : α} {l : List α} (ha : a ∈ l) (l' : List α) :
    ahead a (l ++ l') = ahead a l := by
  induction l with
  | nil => cases ha
  | cons b l ih =>
    rw [List.cons_append]
    by_cases hba : b = a
    · subst hba
      rw [ahead_cons_self, ahead_cons_self]
    · rw [ahead_cons_of_ne hba, ahead_cons_of_ne hba,
        ih ((List.mem_cons.mp ha).resolve_left (Ne.symm hba))]

theorem ahead_subset {a : α} {l l' : List α} (hnodup : l.Nodup) (hsub : l'.Sublist l)
    (ha : a ∈ l') : ahead a l' ⊆ ahead a l := by
  induction hsub with
  | slnil => cases ha
  | cons b hsub ih =>
    obtain ⟨hb, hnodup⟩ := List.nodup_cons.mp hnodup
    have hne : b ≠ a := fun heq => hb (heq ▸ hsub.subset ha)
    rw [ahead_cons_of_ne hne]
    exact List.subset_cons_of_subset b (ih hnodup ha)
  | cons_cons b hsub ih =>
    by_cases hba : b = a
    · subst hba
      rw [ahead_cons_self]
      exact List.nil_subset _
    · rw [ahead_cons_of_ne hba, ahead_cons_of_ne hba]
      apply List.cons_subset_cons
      exact ih (List.nodup_cons.mp hnodup).2 ((List.mem_cons.mp ha).resolve_left (Ne.symm hba))

end Foundations
