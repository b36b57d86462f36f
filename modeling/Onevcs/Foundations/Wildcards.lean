import Mathlib.Data.List.Basic
import Mathlib.Data.List.Infix

/-!
# Patterns of single symbols and of runs

A pattern is a list of pieces, each of them one symbol of a kind or a run, of any length, of symbols
of a kind. A list is spelled by a pattern where it is cut into parts that the pieces take one by
one.

A matcher that is greedy at a run of anything is right because such a run takes up whatever a later
match of what follows it leaves: `Spells.anything_mono`.
-/

namespace Foundations

variable {α : Type*}

inductive Piece (α : Type*)
  /-- One symbol that fits. -/
  | one (fits : α → Bool)
  /-- Any number of symbols that fit. -/
  | run (fits : α → Bool)

/-- The list is cut into parts that the pieces take one by one. -/
inductive Spells : List (Piece α) → List α → Prop
  | nil : Spells [] []
  | one {fits : α → Bool} {a : α} {pieces : List (Piece α)} {rest : List α} :
      fits a = true → Spells pieces rest → Spells (.one fits :: pieces) (a :: rest)
  | run {fits : α → Bool} {taken : List α} {pieces : List (Piece α)} {rest : List α} :
      (∀ a ∈ taken, fits a = true) → Spells pieces rest →
        Spells (.run fits :: pieces) (taken ++ rest)

/-- A run of any symbols. -/
def anything : Piece α := .run fun _ => true

/-- The pattern of a list that stands for itself. -/
def word [BEq α] (l : List α) : List (Piece α) := l.map fun a => .one (a == ·)

variable {fits : α → Bool} {pieces others : List (Piece α)} {l m : List α}

@[simp] theorem spells_nil_iff : Spells ([] : List (Piece α)) l ↔ l = [] := by
  constructor
  · intro h
    cases h
    rfl
  · rintro rfl
    exact .nil

theorem spells_one_iff : Spells (.one fits :: pieces) l ↔
    ∃ a rest, l = a :: rest ∧ fits a = true ∧ Spells pieces rest := by
  constructor
  · intro h
    cases h with
    | one hfits hrest => exact ⟨_, _, rfl, hfits, hrest⟩
  · rintro ⟨a, rest, rfl, hfits, hrest⟩
    exact .one hfits hrest

@[simp] theorem not_spells_one_nil : ¬ Spells (.one fits :: pieces) ([] : List α) := nofun

@[simp] theorem spells_one_cons_iff {a : α} :
    Spells (.one fits :: pieces) (a :: l) ↔ fits a = true ∧ Spells pieces l := by
  rw [spells_one_iff]
  constructor
  · rintro ⟨b, rest, heq, h⟩
    obtain ⟨rfl, rfl⟩ := List.cons.inj heq
    exact h
  · exact fun h => ⟨a, l, rfl, h⟩

theorem spells_run_iff : Spells (.run fits :: pieces) l ↔
    ∃ taken rest, l = taken ++ rest ∧ (∀ a ∈ taken, fits a = true) ∧ Spells pieces rest := by
  constructor
  · intro h
    cases h with
    | run hfits hrest => exact ⟨_, _, rfl, hfits, hrest⟩
  · rintro ⟨taken, rest, rfl, hfits, hrest⟩
    exact .run hfits hrest

/-- A run by how much of the list it takes. -/
theorem spells_run_iff_drop : Spells (.run fits :: pieces) l ↔
    ∃ k ≤ l.length, (∀ a ∈ l.take k, fits a = true) ∧ Spells pieces (l.drop k) := by
  rw [spells_run_iff]
  constructor
  · rintro ⟨taken, rest, rfl, hfits, hrest⟩
    refine ⟨taken.length, by simp, ?_, ?_⟩
    · rwa [List.take_left]
    · rwa [List.drop_left]
  · rintro ⟨k, -, hfits, hrest⟩
    exact ⟨l.take k, l.drop k, (List.take_append_drop k l).symm, hfits, hrest⟩

theorem Spells.append (h : Spells pieces l) (hothers : Spells others m) :
    Spells (pieces ++ others) (l ++ m) := by
  induction h with
  | nil => exact hothers
  | one hfits _ ih => exact .one hfits ih
  | run hfits _ ih =>
    rw [List.append_assoc]
    exact .run hfits ih

theorem spells_append_iff : Spells (pieces ++ others) l ↔
    ∃ first second, l = first ++ second ∧ Spells pieces first ∧ Spells others second := by
  constructor
  · intro h
    induction pieces generalizing l with
    | nil => exact ⟨[], l, rfl, .nil, h⟩
    | cons piece pieces ih =>
      cases h with
      | one hfits hrest =>
        obtain ⟨first, second, rfl, hfirst, hsecond⟩ := ih hrest
        exact ⟨_ :: first, second, rfl, .one hfits hfirst, hsecond⟩
      | @run _ taken _ _ hfits hrest =>
        obtain ⟨first, second, rfl, hfirst, hsecond⟩ := ih hrest
        exact ⟨taken ++ first, second, (List.append_assoc _ _ _).symm, .run hfits hfirst,
          hsecond⟩
  · rintro ⟨first, second, rfl, hfirst, hsecond⟩
    exact hfirst.append hsecond

theorem spells_anything_iff :
    Spells (anything :: pieces) l ↔ ∃ rest, rest <:+ l ∧ Spells pieces rest := by
  rw [anything, spells_run_iff]
  constructor
  · rintro ⟨taken, rest, rfl, -, hrest⟩
    exact ⟨rest, List.suffix_append _ _, hrest⟩
  · rintro ⟨rest, ⟨taken, rfl⟩, hrest⟩
    exact ⟨taken, rest, rfl, fun _ _ => rfl, hrest⟩

/-- A run of anything takes up what is put in front. -/
theorem Spells.anything_mono (h : Spells (anything :: pieces) l) (hsuffix : l <:+ m) :
    Spells (anything :: pieces) m := by
  obtain ⟨rest, hrest, hspells⟩ := spells_anything_iff.mp h
  exact spells_anything_iff.mpr ⟨rest, hrest.trans hsuffix, hspells⟩

theorem Spells.length_eq (hones : ∀ piece ∈ pieces, ∃ fits, piece = .one fits)
    (h : Spells pieces l) : l.length = pieces.length := by
  induction h with
  | nil => rfl
  | one _ _ ih =>
    rw [List.length_cons, List.length_cons, ih fun piece hpiece =>
      hones piece (List.mem_cons_of_mem _ hpiece)]
  | run _ _ _ =>
    obtain ⟨fits, hfits⟩ := hones _ List.mem_cons_self
    cases hfits

@[simp] theorem spells_word_iff [BEq α] [LawfulBEq α] : Spells (word l) m ↔ m = l := by
  induction l generalizing m with
  | nil => exact spells_nil_iff
  | cons a rest ih =>
    rw [word, List.map_cons, spells_one_iff]
    constructor
    · rintro ⟨b, tail, rfl, hfits, htail⟩
      rw [ih.mp htail, eq_of_beq hfits]
    · rintro rfl
      exact ⟨a, rest, rfl, beq_self_eq_true a, ih.mpr rfl⟩

theorem spells_word_append_iff [BEq α] [LawfulBEq α] :
    Spells (word l ++ pieces) m ↔ ∃ rest, m = l ++ rest ∧ Spells pieces rest := by
  rw [spells_append_iff]
  constructor
  · rintro ⟨first, second, rfl, hfirst, hsecond⟩
    exact ⟨second, by rw [spells_word_iff.mp hfirst], hsecond⟩
  · rintro ⟨rest, rfl, hrest⟩
    exact ⟨l, rest, rfl, spells_word_iff.mpr rfl, hrest⟩

end Foundations
