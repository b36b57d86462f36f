import Mathlib.Data.List.DropRight
import Mathlib.Data.List.Basic

/-!
# Trimming

A list without what it begins and ends in, as far as a test holds of that.
-/

namespace Foundations

variable {α : Type*} {p : α → Bool} {l core front back : List α}

/-- A list without what the test holds of at both ends. -/
def trimMatches (p : α → Bool) (l : List α) : List α := (l.dropWhile p).rdropWhile p

/-- The test fails at both ends of a list. -/
structure Bare (p : α → Bool) (l : List α) : Prop where
  head : ∀ a ∈ l.head?, p a = false
  last : ∀ a ∈ l.getLast?, p a = false

theorem rdropWhile_append_of_pos (hback : ∀ a ∈ back, p a = true) (l : List α) :
    (l ++ back).rdropWhile p = l.rdropWhile p := by
  rw [List.rdropWhile, List.reverse_append, List.dropWhile_append_of_pos, List.rdropWhile]
  exact fun a ha => hback a (List.mem_reverse.mp ha)

theorem dropWhile_eq_self (h : ∀ a ∈ l.head?, p a = false) : l.dropWhile p = l := by
  cases l with
  | nil => rfl
  | cons a rest => exact List.dropWhile_cons_of_neg (by rw [h a rfl]; exact Bool.false_ne_true)

theorem rdropWhile_eq_self (h : ∀ a ∈ l.getLast?, p a = false) : l.rdropWhile p = l := by
  rw [List.rdropWhile, dropWhile_eq_self, List.reverse_reverse]
  rwa [List.head?_reverse]

theorem head_dropWhile (p : α → Bool) (l : List α) : ∀ a ∈ (l.dropWhile p).head?, p a = false := by
  intro a ha
  have hnot := List.head?_dropWhile_not p l
  rw [Option.mem_def.mp ha] at hnot
  exact hnot

theorem last_rdropWhile (p : α → Bool) (l : List α) :
    ∀ a ∈ (l.rdropWhile p).getLast?, p a = false := by
  rw [List.rdropWhile, List.getLast?_reverse]
  exact head_dropWhile p l.reverse

/-- A list is bare once it is trimmed of what stands around it. -/
theorem trimMatches_of_bare (hfront : ∀ a ∈ front, p a = true) (hback : ∀ a ∈ back, p a = true)
    (h : Bare p core) : trimMatches p (front ++ (core ++ back)) = core := by
  rw [trimMatches, List.dropWhile_append_of_pos hfront]
  cases core with
  | nil =>
    rw [List.nil_append, List.dropWhile_eq_nil_iff.mpr hback]
    rfl
  | cons a rest =>
    rw [dropWhile_eq_self, rdropWhile_append_of_pos hback, rdropWhile_eq_self h.last]
    exact h.head

theorem trimMatches_self (h : Bare p l) : trimMatches p l = l := by
  have hnone : ∀ a ∈ ([] : List α), p a = true := fun _ h => (nomatch h)
  have htrim := trimMatches_of_bare hnone hnone h
  rwa [List.nil_append, List.append_nil] at htrim

/-- A list is what is left of it, between what the test holds of. -/
theorem exists_trimMatches (p : α → Bool) (l : List α) :
    ∃ front back, (∀ a ∈ front, p a = true) ∧ (∀ a ∈ back, p a = true) ∧
      l = front ++ (trimMatches p l ++ back) := by
  refine ⟨l.takeWhile p, (l.dropWhile p).rtakeWhile p, fun a ha => List.mem_takeWhile_imp ha,
    fun a ha => List.mem_rtakeWhile_imp ha, ?_⟩
  rw [trimMatches, List.rdropWhile_append_rtakeWhile, List.takeWhile_append_dropWhile]

theorem bare_trimMatches (p : α → Bool) (l : List α) : Bare p (trimMatches p l) where
  head := by
    intro a ha
    obtain ⟨rest, hrest⟩ : trimMatches p l <+: l.dropWhile p := List.rdropWhile_prefix p _
    refine head_dropWhile p l a ?_
    rw [← hrest, List.head?_append, Option.mem_def.mp ha]
    rfl
  last := last_rdropWhile p (l.dropWhile p)

/-- A list is left alone exactly where it is bare. -/
theorem trimMatches_eq_self_iff : trimMatches p l = l ↔ Bare p l := by
  refine ⟨fun h => ?_, trimMatches_self⟩
  rw [← h]
  exact bare_trimMatches p l

end Foundations
