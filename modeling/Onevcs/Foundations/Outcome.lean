import Mathlib.Data.List.Basic
import Mathlib.Data.List.Forall2

/-!
# Computations that may fail

What a computation that answered did on the way: inversion lemmas for a sequence, for a
choice and for a list of calls that all answered.
-/

namespace Foundations

/-- A sequence answers where its first part does and the rest answers on what it gave. -/
theorem bind_eq_ok {ε α β : Type} {x : Except ε α} {f : α → Except ε β} {b : β} :
    x >>= f = .ok b ↔ ∃ a, x = .ok a ∧ f a = .ok b := by
  cases x with
  | error e => simp [bind, Except.bind]
  | ok a => simp [bind, Except.bind]

/-- A test that may fail, and a choice by it. -/
theorem bind_ite_eq_ok {ε β : Type} {test : Except ε Bool} {yes no : Except ε β} {b : β} :
    (do if ← test then yes else no) = .ok b ↔
      (test = .ok true ∧ yes = .ok b) ∨ (test = .ok false ∧ no = .ok b) := by
  cases test with
  | error e => simp [bind, Except.bind]
  | ok answer => cases answer <;> simp [bind, Except.bind]

/-- A loop over a list answers where each turn of it does. -/
theorem forM_eq_ok_iff {ε α : Type} {f : α → Except ε Unit} {l : List α} :
    l.forM f = .ok () ↔ ∀ a ∈ l, f a = .ok () := by
  induction l with
  | nil => exact ⟨fun _ _ h => (nomatch h), fun _ => rfl⟩
  | cons first rest ih =>
    change (do f first; rest.forM f) = .ok () ↔ _
    rw [bind_eq_ok, List.forall_mem_cons, ← ih]
    exact ⟨fun ⟨_, hfirst, hrest⟩ => ⟨hfirst, hrest⟩, fun ⟨hfirst, hrest⟩ => ⟨(), hfirst, hrest⟩⟩

theorem exists_of_mapM_ok {ε α β : Type} {f : α → Except ε β} {l : List α} {r : List β}
    (h : l.mapM f = .ok r) {a : α} (ha : a ∈ l) : ∃ b ∈ r, f a = .ok b := by
  induction l generalizing r with
  | nil => cases ha
  | cons first rest ih =>
    rw [List.mapM_cons] at h
    obtain ⟨b, hfirst, h⟩ := bind_eq_ok.mp h
    obtain ⟨bs, hrest, h⟩ := bind_eq_ok.mp h
    obtain rfl : b :: bs = r := Except.ok.inj h
    rcases List.mem_cons.mp ha with rfl | ha
    · exact ⟨b, List.mem_cons_self, hfirst⟩
    · obtain ⟨b', hb', hfb⟩ := ih hrest ha
      exact ⟨b', List.mem_cons_of_mem _ hb', hfb⟩

/-- Each value of the list answers for an argument. -/
theorem exists_of_mem_mapM_ok {ε α β : Type} {f : α → Except ε β} {l : List α} {r : List β}
    (h : l.mapM f = .ok r) {b : β} (hb : b ∈ r) : ∃ a ∈ l, f a = .ok b := by
  induction l generalizing r with
  | nil =>
    obtain rfl : [] = r := Except.ok.inj h
    cases hb
  | cons first rest ih =>
    rw [List.mapM_cons] at h
    obtain ⟨c, hfirst, h⟩ := bind_eq_ok.mp h
    obtain ⟨cs, hrest, h⟩ := bind_eq_ok.mp h
    obtain rfl : c :: cs = r := Except.ok.inj h
    rcases List.mem_cons.mp hb with rfl | hb
    · exact ⟨first, List.mem_cons_self, hfirst⟩
    · obtain ⟨a, ha, hfa⟩ := ih hrest hb
      exact ⟨a, List.mem_cons_of_mem _ ha, hfa⟩

/-- The values answer the arguments in their order. -/
theorem forall₂_of_mapM_ok {ε α β : Type} {f : α → Except ε β} {l : List α} {r : List β}
    (h : l.mapM f = .ok r) : List.Forall₂ (fun a b => f a = .ok b) l r := by
  induction l generalizing r with
  | nil =>
    obtain rfl : [] = r := Except.ok.inj h
    exact .nil
  | cons first rest ih =>
    rw [List.mapM_cons] at h
    obtain ⟨b, hfirst, h⟩ := bind_eq_ok.mp h
    obtain ⟨bs, hrest, h⟩ := bind_eq_ok.mp h
    obtain rfl : b :: bs = r := Except.ok.inj h
    exact .cons hfirst (ih hrest)

/-- A list of calls that each answer answers. -/
theorem exists_mapM_ok {ε α β : Type} {f : α → Except ε β} {l : List α}
    (h : ∀ a ∈ l, ∃ b, f a = .ok b) : ∃ r, l.mapM f = .ok r := by
  induction l with
  | nil => exact ⟨[], rfl⟩
  | cons first rest ih =>
    obtain ⟨b, hfirst⟩ := h first List.mem_cons_self
    obtain ⟨bs, hrest⟩ := ih fun a ha => h a (List.mem_cons_of_mem _ ha)
    refine ⟨b :: bs, ?_⟩
    rw [List.mapM_cons, hfirst, hrest]
    rfl

end Foundations
