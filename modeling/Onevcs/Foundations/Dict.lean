import Mathlib.Data.List.Basic

/-!
# Ordered maps and sets as lists

A map as its entries, least key first, and a set as its elements in order: what is in one after an
insertion, and that a key that is found is one of the entries.
-/

namespace Foundations

variable {K V : Type}

/-- A map: its entries, least key first. -/
abbrev Dict (K V : Type) := List (K × V)

namespace Dict

variable [DecidableEq K]

/-- The value of a key. -/
@[grind] def get (k : K) : Dict K V → Option V
  | [] => none
  | (other, v) :: rest => if other = k then some v else get k rest

/-- Set the value of a key. -/
@[grind] def insert [LT K] [DecidableLT K] (k : K) (v : V) : Dict K V → Dict K V
  | [] => [(k, v)]
  | (other, w) :: rest =>
    if other = k then (k, v) :: rest
    else if other < k then (other, w) :: insert k v rest
    else (k, v) :: (other, w) :: rest

/-- Change the value of a key that is there. -/
@[grind] def modify (k : K) (f : V → V) : Dict K V → Dict K V
  | [] => []
  | (other, v) :: rest => if other = k then (other, f v) :: rest else (other, v) :: modify k f rest

variable {k : K} {v : V} {f : V → V} {m : Dict K V}

theorem get_insert_self [LT K] [DecidableLT K] : get k (insert k v m) = some v := by
  induction m with
  | nil => simp [insert, get]
  | cons entry rest ih =>
    obtain ⟨other, w⟩ := entry
    rw [insert]
    split
    · simp [get]
    · next hne =>
      split
      · rw [get, if_neg hne, ih]
      · simp [get]

theorem get_insert_of_ne [LT K] [DecidableLT K] {other : K} (hne : other ≠ k) :
    get other (insert k v m) = get other m := by
  induction m with
  | nil => simp [insert, get, Ne.symm hne]
  | cons entry rest ih =>
    obtain ⟨first, w⟩ := entry
    rw [insert]
    split
    · next heq => simp [get, heq, Ne.symm hne]
    · split
      · rw [get, get, ih]
      · simp [get, Ne.symm hne]

/-- Another key keeps its value. -/
example : get 1 (insert 2 'b' [(1, 'a')]) = some 'a' := by decide +kernel

theorem mem_of_get (h : get k m = some v) : (k, v) ∈ m := by
  induction m with
  | nil => cases h
  | cons entry rest ih =>
    obtain ⟨other, w⟩ := entry
    rw [get] at h
    split at h
    · next heq =>
      obtain rfl := Option.some.inj h
      rw [heq]
      exact List.mem_cons_self
    · exact List.mem_cons_of_mem _ (ih h)

theorem mem_insert [LT K] [DecidableLT K] {entry : K × V} (h : entry ∈ insert k v m) :
    entry = (k, v) ∨ entry ∈ m := by
  induction m with
  | nil => exact .inl (List.mem_singleton.mp h)
  | cons first rest ih =>
    obtain ⟨other, w⟩ := first
    rw [insert] at h
    split at h
    · exact (List.mem_cons.mp h).imp_right (List.mem_cons_of_mem _)
    · split at h
      · rcases List.mem_cons.mp h with rfl | h
        · exact .inr List.mem_cons_self
        · exact (ih h).imp_right (List.mem_cons_of_mem _)
      · exact List.mem_cons.mp h

/-- A key is there exactly where one of the entries has it. -/
theorem isSome_get_iff : (get k m).isSome ↔ k ∈ m.map Prod.fst := by
  induction m with
  | nil => simp [get]
  | cons entry rest ih =>
    obtain ⟨other, w⟩ := entry
    rw [get, List.map_cons, List.mem_cons]
    split
    · next heq => simp [heq]
    · next hne => simp only [ih, Ne.symm hne, false_or]

/-- Where no key is there twice, a change is made to every entry of the key. -/
theorem modify_eq_map (h : (m.map Prod.fst).Nodup) :
    modify k f m = m.map fun entry => (entry.1, if entry.1 = k then f entry.2 else entry.2) := by
  induction m with
  | nil => rfl
  | cons entry rest ih =>
    obtain ⟨other, w⟩ := entry
    obtain ⟨hnot, hrest⟩ := List.nodup_cons.mp h
    rw [modify, List.map_cons]
    split
    · next heq =>
      have hsame :
          rest.map (fun entry => (entry.1, if entry.1 = k then f entry.2 else entry.2)) =
            rest := by
        refine (List.map_congr_left fun entry hentry => ?_).trans (List.map_id rest)
        have hne : entry.1 ≠ k := by
          intro hsame
          refine hnot (List.mem_map.mpr ⟨entry, hentry, ?_⟩)
          rw [hsame, heq]
        rw [if_neg hne]
        rfl
      rw [hsame]
    · rw [ih hrest]

end Dict

/-- Put an element in an ordered set. -/
@[grind] def insertKey [DecidableEq K] [LT K] [DecidableLT K] (k : K) : List K → List K
  | [] => [k]
  | other :: rest =>
    if other = k then other :: rest
    else if other < k then other :: insertKey k rest
    else k :: other :: rest

theorem mem_insertKey [DecidableEq K] [LT K] [DecidableLT K] {k other : K} {keys : List K}
    (h : other ∈ insertKey k keys) : other = k ∨ other ∈ keys := by
  induction keys with
  | nil => exact .inl (List.mem_singleton.mp h)
  | cons first rest ih =>
    rw [insertKey] at h
    split at h
    · exact .inr h
    · split at h
      · rcases List.mem_cons.mp h with rfl | h
        · exact .inr List.mem_cons_self
        · exact (ih h).imp_right (List.mem_cons_of_mem _)
      · exact List.mem_cons.mp h

theorem mem_insertKey_self [DecidableEq K] [LT K] [DecidableLT K] {k : K} {keys : List K} :
    k ∈ insertKey k keys := by
  induction keys with
  | nil => exact List.mem_cons_self
  | cons first rest ih =>
    rw [insertKey]
    split
    · next heq => exact heq ▸ List.mem_cons_self
    · split
      · exact List.mem_cons_of_mem _ ih
      · exact List.mem_cons_self

theorem mem_insertKey_of_mem [DecidableEq K] [LT K] [DecidableLT K] {k other : K} {keys : List K}
    (h : other ∈ keys) : other ∈ insertKey k keys := by
  induction keys with
  | nil => cases h
  | cons first rest ih =>
    rw [insertKey]
    split
    · exact h
    · split
      · rcases List.mem_cons.mp h with rfl | h
        · exact List.mem_cons_self
        · exact List.mem_cons_of_mem _ (ih h)
      · exact List.mem_cons_of_mem _ h

end Foundations
