import Mathlib.Data.List.Basic

/-!
# Agreement

The meet of a flat order: two values agree on what they both are, and otherwise come to a
bottom. What a list comes to, one value after the other, is what all of them are, so it
depends on which values are in the list and on nothing else.
-/

namespace Foundations

variable {α : Type} [DecidableEq α] {bot : α}

def agree (bot x y : α) : α := if x = y then x else bot

/-- What a value comes to beside what was agreed on before it, if anything was. -/
def agreeWith (bot : α) (before : Option α) (x : α) : α :=
  before.elim x fun seen => agree bot seen x

/-- What the values of a list agree on, where there are any. -/
def agreement (bot : α) : List α → Option α
  | [] => none
  | x :: rest => some (rest.foldl (agree bot) x)

@[simp] theorem agree_self (bot x : α) : agree bot x x = x := if_pos rfl

theorem agree_bot_left (bot x : α) : agree bot bot x = bot := by
  unfold agree
  split <;> rfl

theorem foldl_agree_bot (bot : α) (l : List α) : l.foldl (agree bot) bot = bot := by
  induction l with
  | nil => rfl
  | cons y rest ih => rw [List.foldl_cons, agree_bot_left, ih]

theorem foldl_agree_of_forall {x : α} {l : List α} (h : ∀ y ∈ l, y = x) :
    l.foldl (agree bot) x = x := by
  induction l with
  | nil => rfl
  | cons y rest ih =>
    obtain rfl : y = x := h y List.mem_cons_self
    rw [List.foldl_cons, agree_self]
    exact ih fun z hz => h z (List.mem_cons_of_mem y hz)

theorem foldl_agree_of_ne {x y : α} {l : List α} (hmem : y ∈ l) (hne : y ≠ x) :
    l.foldl (agree bot) x = bot := by
  induction l with
  | nil => cases hmem
  | cons z rest ih =>
    rw [List.foldl_cons]
    by_cases hz : x = z
    · subst hz
      rw [agree_self]
      exact ih ((List.mem_cons.mp hmem).resolve_left hne)
    · rw [agree, if_neg hz]
      exact foldl_agree_bot bot rest

/-- Agreement, one value at a time. -/
theorem agreement_concat (l : List α) (x : α) :
    agreement bot (l ++ [x]) = some (agreeWith bot (agreement bot l) x) := by
  cases l with
  | nil => rfl
  | cons y rest => simp [agreement, agreeWith, List.foldl_append]

theorem agreement_of_forall {x : α} {l : List α} (hmem : x ∈ l) (h : ∀ y ∈ l, y = x) :
    agreement bot l = some x := by
  cases l with
  | nil => cases hmem
  | cons y rest =>
    obtain rfl : y = x := h y List.mem_cons_self
    exact congrArg some (foldl_agree_of_forall fun z hz => h z (List.mem_cons_of_mem y hz))

theorem agreement_of_ne {x y : α} {l : List α} (hx : x ∈ l) (hy : y ∈ l) (hne : x ≠ y) :
    agreement bot l = some bot := by
  cases l with
  | nil => cases hx
  | cons z rest =>
    by_cases hz : z = x
    · subst hz
      have hrest : y ∈ rest := (List.mem_cons.mp hy).resolve_left (Ne.symm hne)
      exact congrArg some (foldl_agree_of_ne hrest (Ne.symm hne))
    · have hrest : x ∈ rest := (List.mem_cons.mp hx).resolve_left (Ne.symm hz)
      exact congrArg some (foldl_agree_of_ne hrest (Ne.symm hz))

/-- A list comes to a value other than the bottom where that is all it holds. -/
theorem agreement_eq_some_iff {x : α} (hx : x ≠ bot) {l : List α} :
    agreement bot l = some x ↔ x ∈ l ∧ ∀ y ∈ l, y = x := by
  constructor
  · intro h
    cases l with
    | nil => cases h
    | cons y rest =>
      have hsome := Option.some.inj h
      by_cases hall : ∀ z ∈ rest, z = y
      · rw [foldl_agree_of_forall hall] at hsome
        subst hsome
        exact ⟨List.mem_cons_self, List.forall_mem_cons.mpr ⟨rfl, hall⟩⟩
      · push Not at hall
        obtain ⟨z, hz, hne⟩ := hall
        rw [foldl_agree_of_ne hz hne] at hsome
        exact absurd hsome.symm hx
  · rintro ⟨hmem, h⟩
    exact agreement_of_forall hmem h

/-- Any list of values comes to one of them, or to the bottom. -/
theorem agreement_cases (bot : α) {l : List α} (hne : l ≠ []) :
    agreement bot l = some bot ∨ ∃ x ∈ l, agreement bot l = some x ∧ ∀ y ∈ l, y = x := by
  obtain ⟨x, hx⟩ := List.exists_mem_of_ne_nil l hne
  by_cases hall : ∀ y ∈ l, y = x
  · exact .inr ⟨x, hx, agreement_of_forall hx hall, hall⟩
  · push Not at hall
    obtain ⟨y, hy, hxy⟩ := hall
    exact .inl (agreement_of_ne hy hx hxy)

/-- What a list comes to depends only on which values it holds. -/
theorem agreement_congr {l l' : List α} (h : ∀ x, x ∈ l ↔ x ∈ l') :
    agreement bot l = agreement bot l' := by
  by_cases hnil : l = []
  · subst hnil
    have hnil' : l' = [] := List.eq_nil_iff_forall_not_mem.mpr fun x hx => by
      simpa using (h x).mpr hx
    rw [hnil']
  · obtain ⟨x, hx⟩ := List.exists_mem_of_ne_nil l hnil
    by_cases hall : ∀ y ∈ l, y = x
    · rw [agreement_of_forall hx hall,
        agreement_of_forall ((h x).mp hx) fun y hy => hall y ((h y).mpr hy)]
    · push Not at hall
      obtain ⟨y, hy, hxy⟩ := hall
      rw [agreement_of_ne hy hx hxy, agreement_of_ne ((h y).mp hy) ((h x).mp hx) hxy]

end Foundations
