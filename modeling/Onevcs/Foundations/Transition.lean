import Mathlib.Logic.Relation
import Mathlib.Data.List.Basic

/-!
# Guarded transition systems

A transition system whose step is a partial function of the state and a label.
Nondeterminism lives in the labels: an interleaving of several parties is a list
of labels, and a step that a party cannot take in a state answers `none`.

A property of a system often holds only of the runs whose steps meet a condition,
so reachability is stated under a guard on the step about to be taken. Plain
reachability is the guard that admits every step.
-/

namespace Foundations

universe u v

/-- A transition system: its initial states, and a step that answers `none` where
the label is not enabled. -/
structure System (σ : Type u) (α : Type v) where
  /-- The states a run may start from. -/
  Initial : σ → Prop
  /-- The state after a label, where the label is enabled. -/
  step : σ → α → Option σ

namespace System

variable {σ : Type u} {α : Type v} (S : System σ α)

/-- The states reached by runs all of whose steps meet the guard `ok`. -/
inductive ReachableBy (ok : σ → α → Prop) : σ → Prop
  | start {s : σ} : S.Initial s → ReachableBy ok s
  | step {s s' : σ} {a : α} :
      ReachableBy ok s → ok s a → S.step s a = some s' → ReachableBy ok s'

/-- Every state some run reaches. -/
def Reachable (s : σ) : Prop :=
  S.ReachableBy (fun _ _ => True) s

/-- Execute a list of labels, stopping with `none` at the first that is not enabled. -/
def run : σ → List α → Option σ
  | s, [] => some s
  | s, a :: rest => (S.step s a).bind fun next => run next rest

/-- Every step of the run of `labels` from `s` meets the guard. -/
def RunMeets (ok : σ → α → Prop) : σ → List α → Prop
  | _, [] => True
  | s, a :: rest => ok s a ∧ ∀ next ∈ S.step s a, RunMeets ok next rest

/-- Every state the run of `labels` from `s` visits, `s` among them, has the property. -/
def Throughout (P : σ → Prop) : σ → List α → Prop
  | s, [] => P s
  | s, a :: rest => P s ∧ ∀ next ∈ S.step s a, Throughout P next rest

@[simp] theorem run_nil (s : σ) : S.run s [] = some s := rfl

@[simp] theorem run_cons (s : σ) (a : α) (rest : List α) :
    S.run s (a :: rest) = (S.step s a).bind fun next => S.run next rest := rfl

instance RunMeets.decidable (ok : σ → α → Prop) [∀ s a, Decidable (ok s a)] :
    (s : σ) → (labels : List α) → Decidable (S.RunMeets ok s labels)
  | _, [] => isTrue trivial
  | s, a :: rest =>
    match hstep : S.step s a with
    | none =>
      decidable_of_iff (ok s a) (by simp [RunMeets, hstep])
    | some next =>
      have := RunMeets.decidable ok next rest
      decidable_of_iff (ok s a ∧ S.RunMeets ok next rest) (by simp [RunMeets, hstep])

instance Throughout.decidable (P : σ → Prop) [∀ s, Decidable (P s)] :
    (s : σ) → (labels : List α) → Decidable (S.Throughout P s labels)
  | s, [] => inferInstanceAs (Decidable (P s))
  | s, a :: rest =>
    match hstep : S.step s a with
    | none => decidable_of_iff (P s) (by simp [Throughout, hstep])
    | some next =>
      have := Throughout.decidable P next rest
      decidable_of_iff (P s ∧ S.Throughout P next rest) (by simp [Throughout, hstep])

variable {S} {ok ok' : σ → α → Prop}

/-- The invariant rule for guarded runs. -/
theorem ReachableBy.invariant {Inv : σ → Prop} {s : σ} (hreach : S.ReachableBy ok s)
    (hinit : ∀ s, S.Initial s → Inv s)
    (hstep : ∀ s a s', Inv s → ok s a → S.step s a = some s' → Inv s') : Inv s := by
  induction hreach with
  | start h => exact hinit _ h
  | step _ hok htaken ih => exact hstep _ _ _ ih hok htaken

/-- A weaker guard reaches at least as much. -/
theorem ReachableBy.mono {s : σ} (hreach : S.ReachableBy ok s)
    (himp : ∀ s a, ok s a → ok' s a) : S.ReachableBy ok' s := by
  induction hreach with
  | start h => exact .start h
  | step _ hok htaken ih => exact .step ih (himp _ _ hok) htaken

/-- Running admitted labels from a reached state reaches the state they end in. -/
theorem ReachableBy.run {labels : List α} {s s' : σ} (hreach : S.ReachableBy ok s)
    (hmeets : S.RunMeets ok s labels) (hrun : S.run s labels = some s') :
    S.ReachableBy ok s' := by
  induction labels generalizing s with
  | nil =>
    obtain rfl : s = s' := by simpa using hrun
    exact hreach
  | cons a rest ih =>
    obtain ⟨next, hnext, hrest⟩ := Option.bind_eq_some_iff.mp hrun
    exact ih (.step hreach hmeets.1 hnext) (hmeets.2 next hnext) hrest

/-- A concrete admitted run from an initial state witnesses reachability. -/
theorem reachableBy_of_run {labels : List α} {s s' : σ} (hinit : S.Initial s)
    (hmeets : S.RunMeets ok s labels) (hrun : S.run s labels = some s') :
    S.ReachableBy ok s' :=
  (ReachableBy.start hinit).run hmeets hrun

/-- Labels that meet the guard in every state make a run that meets it. -/
theorem runMeets_of_forall {labels : List α} (hmeets : ∀ a ∈ labels, ∀ s, ok s a) (s : σ) :
    S.RunMeets ok s labels := by
  induction labels generalizing s with
  | nil => trivial
  | cons a rest ih =>
    rw [List.forall_mem_cons] at hmeets
    exact ⟨hmeets.1 s, fun next _ => ih hmeets.2 next⟩

theorem runMeets_true (s : σ) (labels : List α) :
    S.RunMeets (fun _ _ => True) s labels :=
  runMeets_of_forall (fun _ _ _ => trivial) s

/-- Any concrete run from an initial state witnesses plain reachability. -/
theorem reachable_of_run {labels : List α} {s s' : σ} (hinit : S.Initial s)
    (hrun : S.run s labels = some s') : S.Reachable s' :=
  reachableBy_of_run hinit (runMeets_true s labels) hrun

theorem Throughout.head {P : σ → Prop} {s : σ} {labels : List α}
    (h : S.Throughout P s labels) : P s := by
  cases labels with
  | nil => exact h
  | cons a rest => exact h.1

/-- A property that a step keeps exactly where it meets the guard is kept throughout
exactly the runs whose steps all meet it. -/
theorem throughout_iff_runMeets {P : σ → Prop}
    (henabled : ∀ s a s', P s → S.step s a = some s' → (P s' ↔ ok s a))
    (hdisabled : ∀ s a, P s → S.step s a = none → ok s a) {s : σ} (h : P s) (labels : List α) :
    S.Throughout P s labels ↔ S.RunMeets ok s labels := by
  induction labels generalizing s with
  | nil => exact ⟨fun _ => trivial, fun _ => h⟩
  | cons a rest ih =>
    cases hstep : S.step s a with
    | none =>
      simp only [Throughout, RunMeets, hstep]
      exact ⟨fun _ => ⟨hdisabled s a h hstep, nofun⟩, fun _ => ⟨h, nofun⟩⟩
    | some next =>
      have hkept := henabled s a next h hstep
      constructor
      · intro hthroughout
        have hrest := hthroughout.2 next hstep
        refine ⟨hkept.mp hrest.head, fun other hother => ?_⟩
        obtain rfl : next = other := Option.some.inj (hstep.symm.trans hother)
        exact (ih hrest.head).mp hrest
      · intro hmeets
        refine ⟨h, fun other hother => ?_⟩
        obtain rfl : next = other := Option.some.inj (hstep.symm.trans hother)
        exact (ih (hkept.mpr hmeets.1)).mpr (hmeets.2 next hstep)

/-- As `throughout_iff_runMeets`, of a property that a step keeps where it meets the guard
because of what else holds wherever the property does. -/
theorem throughout_iff_runMeets_of_invariant {P Inv : σ → Prop}
    (hinvariant : ∀ s a s', Inv s → P s → P s' → S.step s a = some s' → Inv s')
    (henabled : ∀ s a s', Inv s → P s → S.step s a = some s' → (P s' ↔ ok s a))
    (hdisabled : ∀ s a, Inv s → P s → S.step s a = none → ok s a) {s : σ} (hinv : Inv s)
    (h : P s) (labels : List α) :
    S.Throughout P s labels ↔ S.RunMeets ok s labels := by
  have hboth : S.Throughout P s labels ↔ S.Throughout (fun s => Inv s ∧ P s) s labels := by
    induction labels generalizing s with
    | nil => exact ⟨fun _ => ⟨hinv, h⟩, fun _ => h⟩
    | cons a rest ih =>
      constructor
      · intro hthroughout
        refine ⟨⟨hinv, h⟩, fun next hnext => ?_⟩
        have hrest := hthroughout.2 next hnext
        exact (ih (hinvariant s a next hinv h hrest.head hnext) hrest.head).mp hrest
      · intro hthroughout
        refine ⟨h, fun next hnext => ?_⟩
        have hrest := hthroughout.2 next hnext
        exact (ih hrest.head.1 hrest.head.2).mpr hrest
  rw [hboth]
  refine throughout_iff_runMeets (fun s a s' hs hstep => ?_) (fun s a hs => ?_) ⟨hinv, h⟩ labels
  · rw [← henabled s a s' hs.1 hs.2 hstep]
    exact ⟨And.right, fun hkept => ⟨hinvariant s a s' hs.1 hs.2 hkept hstep, hkept⟩⟩
  · exact hdisabled s a hs.1 hs.2

end System

end Foundations
