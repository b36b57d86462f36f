import Mathlib.Logic.Relation
import Mathlib.Logic.Function.Basic
import Mathlib.Data.Set.Finite.Basic
import Mathlib.Data.Finset.Card

/-!
# Chains of links

Nodes with at most one link out of each: `next a` is the node that `a` links to, if any.
Following links from a node runs to a node without one, closes on itself, or goes on
for ever.
-/

namespace Foundations

variable {κ : Type*} {next : κ → Option κ} {a b c : κ}

/-- `a` links to `b`. -/
def Links (next : κ → Option κ) (a b : κ) : Prop := next a = some b

/-- Following links never comes back. -/
def Acyclic (next : κ → Option κ) : Prop := ∀ a, ¬ Relation.TransGen (Links next) a a

/-- The links from `a` run through the nodes listed, `a` first, to one without a link. -/
inductive Runs (next : κ → Option κ) : κ → List κ → Prop
  | last {a : κ} : next a = none → Runs next a [a]
  | step {a b : κ} {l : List κ} : next a = some b → Runs next b l → Runs next a (a :: l)

/-- A run passes through everything that is reached. -/
theorem Runs.mem_of_reaches {l : List κ} (h : Runs next a l)
    (hreach : Relation.ReflTransGen (Links next) a b) : b ∈ l := by
  induction h with
  | last hnone =>
    rcases hreach.cases_head with rfl | ⟨c, hlink, -⟩
    · exact List.mem_singleton.mpr rfl
    · rw [Links, hnone] at hlink
      cases hlink
  | step hsome hrun ih =>
    rcases hreach.cases_head with rfl | ⟨c, hlink, hrest⟩
    · exact List.mem_cons_self
    · obtain rfl := Option.some.inj (hsome.symm.trans hlink)
      exact List.mem_cons_of_mem _ (ih hrest)

/-- From a node that links come back to, everything that is reached leads back to it. -/
theorem reaches_back (hcycle : Relation.TransGen (Links next) c c)
    (hreach : Relation.ReflTransGen (Links next) c a) :
    Relation.ReflTransGen (Links next) a c := by
  induction hreach with
  | refl => exact .refl
  | @tail d e _ hlink ih =>
    rcases ih.cases_head with rfl | ⟨x, hx, hrest⟩
    · obtain ⟨x, hx, hrest⟩ := Relation.TransGen.head'_iff.mp hcycle
      obtain rfl : e = x := Option.some.inj (hlink.symm.trans hx)
      exact hrest
    · obtain rfl : e = x := Option.some.inj (hlink.symm.trans hx)
      exact hrest

section Update

variable [DecidableEq κ]

/-- Where `a` is not reached, what is reached is reached without the link `a` was given. -/
theorem reaches_of_update {link : Option κ}
    (hreach : Relation.TransGen (Links (Function.update next a link)) b c)
    (havoid : ¬ Relation.ReflTransGen (Links (Function.update next a link)) b a) :
    Relation.TransGen (Links next) b c := by
  induction hreach with
  | single hlink =>
    have hne : b ≠ a := fun heq => havoid (heq ▸ .refl)
    exact .single (by rwa [Links, Function.update_of_ne hne] at hlink)
  | tail hprev hlink ih =>
    rename_i d e
    have hne : d ≠ a := fun heq => havoid (heq ▸ hprev.to_reflTransGen)
    exact ih.tail (by rwa [Links, Function.update_of_ne hne] at hlink)

/-- A cycle of the changed links passes through the node that was changed. -/
theorem Acyclic.through_update (h : Acyclic next) {link : Option κ}
    (hcycle : Relation.TransGen (Links (Function.update next a link)) c c) :
    Relation.TransGen (Links (Function.update next a link)) a a := by
  by_cases hreach : Relation.ReflTransGen (Links (Function.update next a link)) c a
  · exact (Relation.TransGen.trans_right (reaches_back hcycle hreach) hcycle).trans_left hreach
  · exact absurd (reaches_of_update hcycle hreach) (h c)

/-- Taking a node's link away keeps the links acyclic. -/
theorem Acyclic.update_none (h : Acyclic next) (a : κ) :
    Acyclic (Function.update next a none) := by
  intro c hcycle
  obtain ⟨b, hlink, -⟩ := Relation.TransGen.head'_iff.mp (h.through_update hcycle)
  rw [Links, Function.update_self] at hlink
  cases hlink

/-- A node nothing links to can be linked to any other. -/
theorem Acyclic.update_unlinked (h : Acyclic next) {link : Option κ}
    (hunlinked : ∀ b, next b ≠ some a) (hlink : link ≠ some a) :
    Acyclic (Function.update next a link) := by
  intro c hcycle
  obtain ⟨b, -, hback⟩ := Relation.TransGen.tail'_iff.mp (h.through_update hcycle)
  rw [Links] at hback
  by_cases hb : b = a
  · subst hb
    rw [Function.update_self] at hback
    exact hlink hback
  · rw [Function.update_of_ne hb] at hback
    exact hunlinked b hback

/-- A run is kept by a change of a node it does not pass through. -/
theorem Runs.update {l : List κ} (h : Runs next b l) (havoid : a ∉ l) (link : Option κ) :
    Runs (Function.update next a link) b l := by
  induction h with
  | @last c hnone =>
    have hne : c ≠ a := fun heq => havoid (heq ▸ List.mem_cons_self)
    exact .last (by rwa [Function.update_of_ne hne])
  | @step c d l hsome _ ih =>
    have hne : c ≠ a := fun heq => havoid (heq ▸ List.mem_cons_self)
    refine .step ?_ (ih fun hmem => havoid (List.mem_cons_of_mem _ hmem))
    rwa [Function.update_of_ne hne]

/-- Linking a node to one whose run does not pass through it keeps the links acyclic. -/
theorem Acyclic.update_some (h : Acyclic next) {l : List κ} (hrun : Runs next b l)
    (havoid : a ∉ l) : Acyclic (Function.update next a (some b)) := by
  intro c hcycle
  obtain ⟨x, hlink, hback⟩ := Relation.TransGen.head'_iff.mp (h.through_update hcycle)
  rw [Links, Function.update_self] at hlink
  obtain rfl := Option.some.inj hlink
  exact havoid ((hrun.update havoid _).mem_of_reaches hback)

end Update

open Classical in
/-- Where finitely many nodes have links and none closes on itself, every node's links run
to an end. -/
theorem Acyclic.exists_runs (h : Acyclic next) (domain : Finset κ)
    (hdomain : ∀ a, next a ≠ none → a ∈ domain) (a : κ) : ∃ l, Runs next a l := by
  -- By the number of nodes with links that are reached: each link reaches one fewer.
  induction hcount : (domain.filter (Relation.ReflTransGen (Links next) a)).card using
    Nat.strong_induction_on generalizing a with
  | _ count ih =>
    cases hnext : next a with
    | none => exact ⟨_, .last hnext⟩
    | some b =>
      have hfewer : domain.filter (Relation.ReflTransGen (Links next) b) ⊂
          domain.filter (Relation.ReflTransGen (Links next) a) := by
        rw [Finset.ssubset_iff_of_subset]
        · refine ⟨a, ?_, fun hback => ?_⟩
          · exact Finset.mem_filter.mpr ⟨hdomain a (by simp [hnext]), .refl⟩
          · exact h a (.head' hnext (Finset.mem_filter.mp hback).2)
        · intro x hx
          obtain ⟨hmem, hreach⟩ := Finset.mem_filter.mp hx
          exact Finset.mem_filter.mpr ⟨hmem, .head hnext hreach⟩
      obtain ⟨l, hrun⟩ := ih _ (hcount ▸ Finset.card_lt_card hfewer) b rfl
      exact ⟨_, .step hnext hrun⟩

end Foundations
