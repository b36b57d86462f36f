import Mathlib.Logic.Function.Basic

/-!
# Memo tables

A memo is a table of answers by the question they were given to. What makes it worth reading is a
relation that every entry keeps: that the answer is the right one now, or was the right one of some
moment. Writing an entry asks for the relation at that entry alone, forgetting entries asks for
nothing, and a change of the world asks that the relation carry over.
-/

namespace Foundations

variable {κ ν : Type*}

/-- A table of answers by question. -/
abbrev Memo (κ ν : Type*) := κ → Option ν

namespace Memo

/-- The table that remembers nothing. -/
def empty : Memo κ ν := fun _ => none

/-- The table with one answer written over. -/
def insert [DecidableEq κ] (memo : Memo κ ν) (key : κ) (value : ν) : Memo κ ν :=
  Function.update memo key (some value)

/-- The table with only the entries that `retained` says are retained. -/
def retain (memo : Memo κ ν) (retained : κ → ν → Bool) : Memo κ ν :=
  fun key => (memo key).filter (retained key)

/-- Every entry of the table is in the relation. -/
def Keeps (R : κ → ν → Prop) (memo : Memo κ ν) : Prop :=
  ∀ key value, memo key = some value → R key value

variable {R R' : κ → ν → Prop} {memo : Memo κ ν}

@[simp] theorem empty_apply (key : κ) : (empty : Memo κ ν) key = none := rfl

theorem keeps_empty : Keeps R (empty : Memo κ ν) := by
  intro key value hvalue
  cases hvalue

theorem Keeps.insert [DecidableEq κ] (hmemo : Keeps R memo) {key : κ} {value : ν}
    (hvalue : R key value) : Keeps R (memo.insert key value) := by
  intro other found hfound
  rw [Memo.insert, Function.update_apply] at hfound
  split at hfound
  case isTrue heq =>
    obtain rfl : value = found := Option.some.inj hfound
    rw [heq]
    exact hvalue
  case isFalse => exact hmemo other found hfound

theorem retain_eq_some {retained : κ → ν → Bool} {key : κ} {value : ν} :
    memo.retain retained key = some value ↔ memo key = some value ∧ retained key value := by
  rw [Memo.retain, Option.filter_eq_some_iff]

/-- What is left of a table is in a relation that holds of what was retained. -/
theorem Keeps.retain {retained : κ → ν → Bool} (hmemo : Keeps R memo)
    (himp : ∀ key value, R key value → retained key value → R' key value) :
    Keeps R' (memo.retain retained) := by
  intro key value hvalue
  obtain ⟨hkey, hretained⟩ := retain_eq_some.mp hvalue
  exact himp key value (hmemo key value hkey) hretained

theorem Keeps.mono (hmemo : Keeps R memo) (himp : ∀ key value, R key value → R' key value) :
    Keeps R' memo :=
  fun key value hvalue => himp key value (hmemo key value hvalue)

/-- The table with entries written over, the last of a key standing. -/
def insertAll [DecidableEq κ] (memo : Memo κ ν) (entries : List (κ × ν)) : Memo κ ν :=
  entries.foldl (fun memo entry => memo.insert entry.1 entry.2) memo

section InsertAll

variable [DecidableEq κ] {entries : List (κ × ν)} {key : κ} {value : ν}

theorem insertAll_of_forall_ne (h : ∀ entry ∈ entries, entry.1 ≠ key) :
    memo.insertAll entries key = memo key := by
  induction entries generalizing memo with
  | nil => rfl
  | cons first rest ih =>
    rw [List.forall_mem_cons] at h
    exact (ih h.2).trans (Function.update_of_ne h.1.symm _ _)

/-- A key that is written holds one of the values written. -/
theorem exists_insertAll (memo : Memo κ ν) (hkey : ∃ entry ∈ entries, entry.1 = key) :
    ∃ value, (key, value) ∈ entries ∧ memo.insertAll entries key = some value := by
  induction entries generalizing memo with
  | nil =>
    obtain ⟨_, hentry, -⟩ := hkey
    cases hentry
  | cons first rest ih =>
    by_cases hrest : ∃ entry ∈ rest, entry.1 = key
    · obtain ⟨value, hvalue, hheld⟩ := ih (memo.insert first.1 first.2) hrest
      exact ⟨value, List.mem_cons_of_mem _ hvalue, hheld⟩
    · -- the first entry is the only one of the key
      have hnone : ∀ entry ∈ rest, entry.1 ≠ key := fun entry hentry heq =>
        hrest ⟨entry, hentry, heq⟩
      obtain ⟨entry, hentry, rfl⟩ := hkey
      rcases List.mem_cons.mp hentry with rfl | hentry
      · exact ⟨entry.2, List.mem_cons_self,
          (insertAll_of_forall_ne hnone).trans (Function.update_self _ _ _)⟩
      · exact absurd rfl (hnone entry hentry)

/-- A key that is written with one value alone holds it. -/
theorem insertAll_of_agree (hkey : ∃ entry ∈ entries, entry.1 = key)
    (hagree : ∀ entry ∈ entries, entry.1 = key → entry.2 = value) :
    memo.insertAll entries key = some value := by
  obtain ⟨found, hfound, hheld⟩ := exists_insertAll memo hkey
  exact hheld.trans (congrArg some (hagree _ hfound rfl))

end InsertAll

end Memo

end Foundations
