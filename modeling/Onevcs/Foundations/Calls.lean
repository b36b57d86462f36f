import Mathlib.Logic.Basic

/-!
# What a call that may fail promises

Two readings of a promise about what a call answers: that it answers, and so; and that whatever
it answers is so. Each goes through a sequence of calls by one rule, so that a promise about a
sequence is one about its first call.
-/

namespace Foundations

variable {ε α β : Type} {x : Except ε α} {P Q : α → Prop} {a : α} {e : ε}

/-- The call answers, and what it answers is as promised. -/
def Answers (x : Except ε α) (P : α → Prop) : Prop := ∃ a, x = .ok a ∧ P a

/-- What the call answers is as promised, where it answers. -/
def Whenever (x : Except ε α) (P : α → Prop) : Prop := ∀ a, x = .ok a → P a

@[simp] theorem answers_ok : Answers (.ok a : Except ε α) P ↔ P a := by
  simp [Answers]

@[simp] theorem answers_error : ¬ Answers (.error e : Except ε α) P := by
  simp [Answers]

@[simp] theorem whenever_ok : Whenever (.ok a : Except ε α) P ↔ P a := by
  simp [Whenever]

@[simp] theorem whenever_error : Whenever (.error e : Except ε α) P := by
  simp [Whenever]

@[simp] theorem answers_pure : Answers (pure a : Except ε α) P ↔ P a := answers_ok

@[simp] theorem whenever_pure : Whenever (pure a : Except ε α) P ↔ P a := whenever_ok

/-- A sequence answers where its first call does and the rest does on what it answered. -/
@[simp] theorem answers_bind {f : α → Except ε β} {R : β → Prop} :
    Answers (x >>= f) R ↔ Answers x fun a => Answers (f a) R := by
  cases x with
  | error e => simp [bind, Except.bind]
  | ok a => simp [bind, Except.bind]

@[simp] theorem whenever_bind {f : α → Except ε β} {R : β → Prop} :
    Whenever (x >>= f) R ↔ Whenever x fun a => Whenever (f a) R := by
  cases x with
  | error e => simp [bind, Except.bind]
  | ok a => simp [bind, Except.bind]

/-- A call with nothing to answer. -/
theorem answers_unit {x : Except ε Unit} {P : Unit → Prop} : Answers x P ↔ x = .ok () ∧ P () :=
  Iff.rfl.trans ⟨fun ⟨_, h⟩ => h, fun h => ⟨(), h⟩⟩

theorem whenever_unit {x : Except ε Unit} {P : Unit → Prop} : Whenever x P ↔ (x = .ok () → P ()) :=
  ⟨fun h => h (), fun h _ => h⟩

theorem answers_true : Answers x (fun _ => True) ↔ ∃ a, x = .ok a := by
  simp [Answers]

theorem answers_congr (h : ∀ a, x = .ok a → (P a ↔ Q a)) : Answers x P ↔ Answers x Q :=
  exists_congr fun a => and_congr_right (h a)

theorem whenever_congr (h : ∀ a, x = .ok a → (P a ↔ Q a)) : Whenever x P ↔ Whenever x Q :=
  forall_congr' fun a => imp_congr_right (h a)

/-- A promise that only one answer could break. -/
theorem whenever_iff_of_forall_ne (h : ∀ b, b ≠ a → P b) : Whenever x P ↔ (x = .ok a → P a) := by
  constructor
  · intro hwhenever
    exact hwhenever a
  · intro hone b hb
    by_cases heq : b = a
    · subst heq
      exact hone hb
    · exact h b heq

theorem Whenever.mono (h : Whenever x P) (himp : ∀ a, P a → Q a) : Whenever x Q :=
  fun a ha => himp a (h a ha)

/-- A promise that holds of everything. -/
theorem Whenever.of_forall (h : ∀ a, P a) : Whenever x P := fun a _ => h a

end Foundations
