import Mathlib.Data.List.Nodup

/-!
# The first of each key

A loop over a list that keeps an element unless one of its key was seen before.
-/

namespace Foundations

variable {α κ : Type*} [DecidableEq κ] {key : α → κ} {seen : List κ} {l : List α} {x : α} {k : κ}

/-- The elements whose key is neither seen yet nor that of an earlier one. -/
def firstsFrom (key : α → κ) : List κ → List α → List α
  | _, [] => []
  | seen, x :: l =>
    if key x ∈ seen then firstsFrom key seen l else x :: firstsFrom key (key x :: seen) l

def firsts (key : α → κ) (l : List α) : List α := firstsFrom key [] l

theorem firstsFrom_sublist (key : α → κ) (seen : List κ) (l : List α) :
    (firstsFrom key seen l).Sublist l := by
  induction l generalizing seen with
  | nil => exact .slnil
  | cons x l ih =>
    unfold firstsFrom
    split
    · exact (ih seen).cons x
    · exact (ih _).cons_cons x

theorem firsts_sublist (key : α → κ) (l : List α) : (firsts key l).Sublist l :=
  firstsFrom_sublist key [] l

/-- What is kept is the first of its key. -/
theorem mem_firstsFrom_iff :
    x ∈ firstsFrom key seen l ↔ key x ∉ seen ∧ l.find? (fun y => key y = key x) = some x := by
  induction l generalizing seen with
  | nil => simp [firstsFrom]
  | cons y l ih =>
    unfold firstsFrom
    by_cases hsame : key y = key x
    · rw [List.find?_cons_of_pos (by simp [hsame]), Option.some.injEq]
      split
      · next hseen =>
        rw [ih]
        rw [hsame] at hseen
        exact iff_of_false (fun h => h.1 hseen) fun h => h.1 hseen
      · next hseen =>
        rw [List.mem_cons, ih]
        constructor
        · rintro (rfl | ⟨hnot, -⟩)
          · exact ⟨hseen, rfl⟩
          · exact absurd (hsame ▸ List.mem_cons_self) hnot
        · rintro ⟨-, rfl⟩
          exact .inl rfl
    · rw [List.find?_cons_of_neg (by simp [hsame])]
      split
      · rw [ih]
      · have hne : x ≠ y := fun h => hsame (by rw [h])
        rw [List.mem_cons, ih, List.mem_cons, not_or]
        constructor
        · rintro (rfl | ⟨⟨-, hnot⟩, hfind⟩)
          · exact absurd rfl hne
          · exact ⟨hnot, hfind⟩
        · rintro ⟨hnot, hfind⟩
          exact .inr ⟨⟨Ne.symm hsame, hnot⟩, hfind⟩

theorem mem_firsts_iff : x ∈ firsts key l ↔ l.find? (fun y => key y = key x) = some x := by
  rw [firsts, mem_firstsFrom_iff]
  exact and_iff_right List.not_mem_nil

theorem nodup_firstsFrom (key : α → κ) (seen : List κ) (l : List α) :
    ((firstsFrom key seen l).map key).Nodup := by
  induction l generalizing seen with
  | nil => exact List.nodup_nil
  | cons y l ih =>
    unfold firstsFrom
    split
    · exact ih seen
    · rw [List.map_cons, List.nodup_cons]
      refine ⟨fun hmem => ?_, ih _⟩
      obtain ⟨x, hx, hkey⟩ := List.mem_map.mp hmem
      exact (mem_firstsFrom_iff.mp hx).1 (hkey ▸ List.mem_cons_self)

/-- No key is kept twice. -/
theorem nodup_firsts (key : α → κ) (l : List α) : ((firsts key l).map key).Nodup :=
  nodup_firstsFrom key [] l

/-- Every key is kept. -/
theorem exists_firsts_iff : (∃ x ∈ firsts key l, key x = k) ↔ ∃ x ∈ l, key x = k := by
  constructor
  · rintro ⟨x, hx, rfl⟩
    exact ⟨x, (firsts_sublist key l).subset hx, rfl⟩
  · rintro ⟨x, hx, rfl⟩
    obtain ⟨y, hy⟩ := Option.isSome_iff_exists.mp
      (List.find?_isSome.mpr ⟨x, hx, by simp⟩ : (l.find? fun y => key y = key x).isSome)
    have hkey : key y = key x := by simpa using List.find?_some hy
    refine ⟨y, mem_firsts_iff.mpr ?_, hkey⟩
    rwa [hkey]

theorem firstsFrom_eq_self (hnodup : (l.map key).Nodup) (hseen : ∀ x ∈ l, key x ∉ seen) :
    firstsFrom key seen l = l := by
  induction l generalizing seen with
  | nil => rfl
  | cons x l ih =>
    rw [List.map_cons, List.nodup_cons] at hnodup
    rw [firstsFrom, if_neg (hseen x List.mem_cons_self), ih hnodup.2]
    intro y hy hmem
    rcases List.mem_cons.mp hmem with heq | hmem
    · exact hnodup.1 (List.mem_map.mpr ⟨y, hy, heq⟩)
    · exact hseen y (List.mem_cons_of_mem x hy) hmem

/-- A list without two elements of one key is kept whole. -/
theorem firsts_eq_self (h : (l.map key).Nodup) : firsts key l = l :=
  firstsFrom_eq_self h fun _ _ => List.not_mem_nil

/-- Of a list without two elements of one key, the one element of a key is changed. -/
theorem exists_map_if (h : (l.map key).Nodup) (hk : k ∈ l.map key) (f : α → α) :
    ∃ before x after, l = before ++ x :: after ∧ key x = k ∧
      (l.map fun x => if key x = k then f x else x) = before ++ f x :: after := by
  induction l with
  | nil => cases hk
  | cons first rest ih =>
    rw [List.map_cons, List.nodup_cons] at h
    by_cases hfirst : key first = k
    · refine ⟨[], first, rest, rfl, hfirst, ?_⟩
      rw [List.map_cons, if_pos hfirst, List.nil_append]
      refine congrArg (f first :: ·) ((List.map_congr_left fun x hx => ?_).trans (List.map_id rest))
      refine if_neg fun heq => h.1 ?_
      rw [hfirst, ← heq]
      exact List.mem_map_of_mem hx
    · obtain ⟨before, x, after, hbefore, hx, hmap⟩ :=
        ih h.2 ((List.mem_cons.mp hk).resolve_left (Ne.symm hfirst))
      exact ⟨first :: before, x, after, congrArg (first :: ·) hbefore, hx, by
        rw [List.map_cons, if_neg hfirst, hmap, List.cons_append]⟩

end Foundations
