import Mathlib.Data.List.Basic

/-!
# Computations that record the calls they make

A computation that may fail and leaves behind the calls it made, whether or not it failed. That a
sequence makes none goes by one rule: its first part makes none, and the rest makes none on what
the first part answered.
-/

namespace Foundations

variable {κ ε α β : Type}

/-- What a computation answers, and the calls it made on the way. -/
structure Traced (κ ε α : Type) where
  answer : Except ε α
  calls : List κ

namespace Traced

/-- A computation that makes no calls. -/
def quietly (answer : Except ε α) : Traced κ ε α := ⟨answer, []⟩

def call (made : κ) (answer : Except ε α) : Traced κ ε α := ⟨answer, [made]⟩

/-- One computation after another; the second is made where the first answers. -/
def andThen (x : Traced κ ε α) (f : α → Traced κ ε β) : Traced κ ε β :=
  match x.answer with
  | .error e => ⟨.error e, x.calls⟩
  | .ok a => ⟨(f a).answer, x.calls ++ (f a).calls⟩

instance : Monad (Traced κ ε) where
  pure a := quietly (.ok a)
  bind := andThen

/-- A computation whose failure is an answer. -/
def attempt (x : Traced κ ε α) : Traced κ ε (Except ε α) := ⟨.ok x.answer, x.calls⟩

/-- No call was made. -/
def Silent (x : Traced κ ε α) : Prop := x.calls = []

@[simp] theorem silent_quietly (answer : Except ε α) : (quietly answer : Traced κ ε α).Silent := rfl

@[simp] theorem silent_pure (a : α) : (pure a : Traced κ ε α).Silent := rfl

@[simp] theorem not_silent_call (made : κ) (answer : Except ε α) : ¬ (call made answer).Silent :=
  nofun

@[simp] theorem silent_attempt {x : Traced κ ε α} : x.attempt.Silent ↔ x.Silent := Iff.rfl

@[simp] theorem answer_quietly (answer : Except ε α) :
    (quietly answer : Traced κ ε α).answer = answer := rfl

@[simp] theorem answer_pure (a : α) : (pure a : Traced κ ε α).answer = .ok a := rfl

/-- What follows an attempt goes by what was answered or not. -/
theorem answer_attempt_bind {x : Traced κ ε α} {f : Except ε α → Traced κ ε β} :
    (x.attempt >>= f).answer = (f x.answer).answer := rfl

/-- A sequence makes no call where its first part makes none and the rest makes none on what that
answered. -/
theorem silent_bind {x : Traced κ ε α} {f : α → Traced κ ε β} :
    (x >>= f).Silent ↔ x.Silent ∧ ∀ a, x.answer = .ok a → (f a).Silent := by
  change (x.andThen f).Silent ↔ _
  unfold andThen Silent
  cases hanswer : x.answer with
  | error e => simp
  | ok a => simp

theorem Silent.bind {x : Traced κ ε α} {f : α → Traced κ ε β} (hx : x.Silent)
    (hf : ∀ a, (f a).Silent) : (x >>= f).Silent :=
  silent_bind.mpr ⟨hx, fun a _ => hf a⟩

theorem silent_attempt_bind {x : Traced κ ε α} {f : Except ε α → Traced κ ε β} :
    (x.attempt >>= f).Silent ↔ x.Silent ∧ (f x.answer).Silent := by
  rw [silent_bind, silent_attempt]
  exact and_congr_right fun _ => ⟨fun h => h _ rfl, fun h _ ha => Except.ok.inj ha ▸ h⟩

/-- What makes no call is followed by what does on its answer alone. -/
theorem silent_quietly_bind {answer : Except ε α} {f : α → Traced κ ε β} :
    (quietly answer >>= f).Silent ↔ ∀ a, answer = .ok a → (f a).Silent := by
  simp [silent_bind]

end Traced

end Foundations
