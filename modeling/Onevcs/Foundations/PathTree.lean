import Mathlib.Data.List.Basic
import Mathlib.Data.List.Infix

/-!
# Trees of names

A level holds entries under names, each a leaf or a level of its own; a path leads through levels.
Putting a level at a path replaces what is there, and makes the levels that lead there where there
are none.
-/

namespace Foundations

/-- A leaf, or a level of entries. -/
inductive PathEntry (ν α : Type)
  | leaf (a : α)
  | node (level : List (ν × PathEntry ν α))

/-- Entries under names. -/
abbrev PathLevel (ν α : Type) := List (ν × PathEntry ν α)

section Names

variable {ν α : Type}

mutual

/-- Every level an entry holds has each name once. -/
def PathEntry.Distinct : PathEntry ν α → Prop
  | .leaf _ => True
  | .node level => PathLevel.Distinct level

/-- Every level has each name once. -/
def PathLevel.Distinct : PathLevel ν α → Prop
  | [] => True
  | (name, entry) :: rest =>
    name ∉ rest.map Prod.fst ∧ PathEntry.Distinct entry ∧ PathLevel.Distinct rest

end

end Names

namespace PathLevel

variable {ν α : Type} [DecidableEq ν]

/-- The level with one entry under a name. -/
def set (name : ν) (entry : PathEntry ν α) (level : PathLevel ν α) : PathLevel ν α :=
  (name, entry) :: level.filter fun other => other.1 ≠ name

/-- The leaf that a path leads to. -/
def leafAt : List ν → PathLevel ν α → Option α
  | [], _ => none
  | name :: rest, level =>
    match level.lookup name with
    | some (.leaf a) => if rest.isEmpty then some a else none
    | some (.node below) => leafAt rest below
    | none => none

/-- What an entry holds, as a level. -/
def below : Option (PathEntry ν α) → PathLevel ν α
  | some (.node level) => level
  | some (.leaf _) | none => []

/-- The entry that a path leads to. -/
def entryAt : List ν → PathLevel ν α → Option (PathEntry ν α)
  | [], _ => none
  | [name], level => level.lookup name
  | name :: next :: rest, level => entryAt (next :: rest) (below (level.lookup name))

/-- A level put at a path. -/
def graft (grafted : PathLevel ν α) : List ν → PathLevel ν α → PathLevel ν α
  | [], _ => grafted
  | name :: rest, level => level.set name (.node (graft grafted rest (below (level.lookup name))))

/-- A leaf stands on the way to a path. -/
def blocked : List ν → PathLevel ν α → Bool
  | [], _ => false
  | name :: rest, level =>
    match level.lookup name with
    | some (.leaf _) => !rest.isEmpty
    | some (.node below) => blocked rest below
    | none => false

variable {level grafted : PathLevel ν α} {name other : ν} {entry : PathEntry ν α}
  {path rest target : List ν} {a b : α}

/-! ## Looking up -/

@[simp] theorem lookup_set_self : (level.set name entry).lookup name = some entry := by
  simp [set]

theorem lookup_set_of_ne (h : other ≠ name) :
    (level.set name entry).lookup other = level.lookup other := by
  rw [set, List.lookup_cons, beq_eq_false_iff_ne.mpr h]
  change (level.filter fun entry => entry.1 ≠ name).lookup other = level.lookup other
  induction level with
  | nil => rfl
  | cons first level ih =>
    by_cases hfirst : first.1 = name
    · rw [List.filter_cons_of_neg (by simpa using hfirst), List.lookup_cons,
        beq_eq_false_iff_ne.mpr (hfirst ▸ h)]
      exact ih
    · rw [List.filter_cons_of_pos (by simpa using hfirst), List.lookup_cons, List.lookup_cons, ih]

@[simp] theorem leafAt_nil : leafAt path ([] : PathLevel ν α) = none := by
  cases path <;> rfl

@[simp] theorem entryAt_nil : entryAt path ([] : PathLevel ν α) = none := by
  induction path with
  | nil => rfl
  | cons name rest ih =>
    cases rest with
    | nil => rfl
    | cons next rest => exact ih

theorem leafAt_cons : leafAt (name :: rest) level =
    match entryAt [name] level with
    | some (.leaf a) => if rest.isEmpty then some a else none
    | some (.node below) => leafAt rest below
    | none => none := by
  rw [leafAt, entryAt]

theorem leafAt_cons_of_ne_nil (h : rest ≠ []) :
    leafAt (name :: rest) level = leafAt rest (below (level.lookup name)) := by
  rw [leafAt]
  split
  · next hleaf => simp [hleaf, below, h]
  · next hnode => rw [hnode, below]
  · next hnone => simp [hnone, below]

theorem leafAt_singleton_eq_some_iff : leafAt [name] level = some a ↔
    level.lookup name = some (.leaf a) := by
  rw [leafAt]
  split
  · next hleaf => simp [hleaf]
  · next hnode => simp [hnode, leafAt]
  · next hnone => simp [hnone]

/-- Nothing is beneath a leaf. -/
theorem leafAt_append_of_leaf (h : leafAt path level = some a) (hrest : rest ≠ []) :
    leafAt (path ++ rest) level = none := by
  induction path generalizing level with
  | nil => cases h
  | cons name path ih =>
    rw [List.cons_append, leafAt_cons_of_ne_nil (by simp [hrest])]
    by_cases hpath : path = []
    · subst hpath
      rw [leafAt_singleton_eq_some_iff.mp h]
      exact leafAt_nil
    · rw [leafAt_cons_of_ne_nil hpath] at h
      exact ih h

theorem leafAt_graft_append : leafAt (target ++ path) (graft grafted target level) =
    leafAt path grafted := by
  induction target generalizing level with
  | nil => rfl
  | cons name rest ih =>
    rw [graft, List.cons_append, leafAt, lookup_set_self]
    exact ih

/-- Off the path that a level is put at, every entry is as it was. -/
theorem entryAt_graft (hbeneath : ¬ target <+: path) (hleads : ¬ path <+: target) :
    entryAt path (graft grafted target level) = entryAt path level := by
  induction target generalizing level path with
  | nil => exact absurd List.nil_prefix hbeneath
  | cons name rest ih =>
    cases path with
    | nil => exact absurd List.nil_prefix hleads
    | cons first path =>
      rw [graft]
      by_cases hname : first = name
      · subst hname
        rw [List.cons_prefix_cons, not_and] at hbeneath hleads
        cases path with
        | nil => exact absurd List.nil_prefix (hleads rfl)
        | cons next path =>
          rw [entryAt, entryAt, lookup_set_self]
          exact ih (hbeneath rfl) (hleads rfl)
      · cases path with
        | nil => rw [entryAt, entryAt, lookup_set_of_ne hname]
        | cons next path => rw [entryAt, entryAt, lookup_set_of_ne hname]

/-- Where no leaf stands on the way, no leaf elsewhere comes or goes. -/
theorem leafAt_graft (hfree : blocked target level = false) (hbeneath : ¬ target <+: path) :
    leafAt path (graft grafted target level) = leafAt path level := by
  induction target generalizing level path with
  | nil => exact absurd List.nil_prefix hbeneath
  | cons name rest ih =>
    cases path with
    | nil => rfl
    | cons first path =>
      rw [graft]
      by_cases hname : first = name
      · subst hname
        rw [List.cons_prefix_cons, not_and] at hbeneath
        have hrest := hbeneath rfl
        rw [leafAt, lookup_set_self, leafAt]
        rw [blocked] at hfree
        split at hfree
        · next hleaf =>
          -- the path ends here, and so there is nothing else it could lead to
          obtain rfl : rest = [] := by simpa using hfree
          exact absurd List.nil_prefix hrest
        · next hnode =>
          rw [hnode]
          exact ih hfree hrest
        · next hnone =>
          rw [hnone, below]
          exact (ih (by cases rest <;> rfl) hrest).trans leafAt_nil
      · rw [leafAt, leafAt, lookup_set_of_ne hname]

/-- A leaf on the way is lost. -/
theorem exists_lost (grafted : PathLevel ν α) (h : blocked target level = true) :
    ∃ path a, path <+: target ∧ path ≠ target ∧ leafAt path level = some a ∧
      leafAt path (graft grafted target level) = none := by
  induction target generalizing level with
  | nil => cases h
  | cons name rest ih =>
    rw [blocked] at h
    split at h
    · next a hleaf =>
      have hrest : rest ≠ [] := by simpa using h
      refine ⟨[name], a, ⟨rest, rfl⟩, by simpa using hrest.symm, ?_, ?_⟩
      · exact leafAt_singleton_eq_some_iff.mpr hleaf
      · rw [graft, leafAt, lookup_set_self]
        rfl
    · next hnode =>
      obtain ⟨path, a, hlead, hne, hleaf, hlost⟩ := ih h
      refine ⟨name :: path, a, List.cons_prefix_cons.mpr ⟨rfl, hlead⟩, ?_, ?_, ?_⟩
      · exact fun heq => hne (List.cons.inj heq).2
      · rw [leafAt, hnode]
        exact hleaf
      · rw [graft, leafAt, lookup_set_self, hnode]
        exact hlost
    · cases h

end PathLevel

end Foundations
