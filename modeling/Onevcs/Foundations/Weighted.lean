import Mathlib.Algebra.GroupWithZero.Nat
import Mathlib.Data.List.AList

/-!
# Weighted tables

A table whose values have a weight has a total: the sum of the weights of the values it holds. A
cache that carries the total beside the table has to change it by what each write of a key adds and
by what the write replaces, and the law of the total under a write says that it can: what is
replaced is never more than the total.
-/

namespace Foundations

open AList (lookup)

variable {κ ν : Type*} [DecidableEq κ] {weight : ν → ℕ} {table : AList fun _ : κ => ν} {key : κ}
  {value : ν}

/-- The sum of the weights of the values that are held. -/
def total (weight : ν → ℕ) (table : AList fun _ : κ => ν) : ℕ :=
  (table.entries.map fun entry => weight entry.2).sum

/-- The weight of what is held at a key, nothing where nothing is. -/
def weightAt (weight : ν → ℕ) (table : AList fun _ : κ => ν) (key : κ) : ℕ :=
  ((lookup key table).map weight).getD 0

omit [DecidableEq κ] in
@[simp] theorem total_empty : total weight (∅ : AList fun _ : κ => ν) = 0 := rfl

/-- Taking the entry of a key out of a list takes out the weight it looks up to. -/
theorem sum_kerase (weight : ν → ℕ) (key : κ) (entries : List (Sigma fun _ : κ => ν)) :
    ((entries.kerase key).map fun entry => weight entry.2).sum +
        ((entries.dlookup key).map weight).getD 0 =
      (entries.map fun entry => weight entry.2).sum := by
  induction entries with
  | nil => rfl
  | cons first rest ih =>
    by_cases hkey : key = first.1
    · subst hkey
      rw [List.kerase_cons_eq rfl, List.dlookup_cons_eq, List.map_cons, List.sum_cons]
      exact Nat.add_comm _ _
    · rw [List.kerase_cons_ne hkey, List.dlookup_cons_ne _ _ hkey, List.map_cons, List.map_cons,
        List.sum_cons, List.sum_cons, Nat.add_assoc, ih]

/-- What a write replaces leaves the total, and what it writes enters it. -/
theorem total_insert (weight : ν → ℕ) (table : AList fun _ : κ => ν) (key : κ) (value : ν) :
    total weight (table.insert key value) + weightAt weight table key =
      total weight table + weight value := by
  have herase := sum_kerase weight key table.entries
  have hinsert : total weight (table.insert key value) =
      weight value + ((table.entries.kerase key).map fun entry => weight entry.2).sum := by
    rw [total, AList.entries_insert, List.map_cons, List.sum_cons]
  rw [hinsert, total, ← herase, Nat.add_assoc, Nat.add_comm]
  rfl

theorem weightAt_le_total (weight : ν → ℕ) (table : AList fun _ : κ => ν) (key : κ) :
    weightAt weight table key ≤ total weight table := by
  rw [total, ← sum_kerase weight key table.entries]
  exact Nat.le_add_left _ _

theorem weight_le_total (weight : ν → ℕ) (h : lookup key table = some value) :
    weight value ≤ total weight table := by
  have hheld : weightAt weight table key = weight value := by
    rw [weightAt, h, Option.map_some, Option.getD_some]
  exact hheld ▸ weightAt_le_total weight table key

/-- A write holds at most one entry more. -/
theorem length_insert_le (table : AList fun _ : κ => ν) (key : κ) (value : ν) :
    (table.insert key value).entries.length ≤ table.entries.length + 1 := by
  rw [AList.entries_insert, List.length_cons]
  exact Nat.succ_le_succ (List.kerase_sublist key table.entries).length_le

end Foundations
