import Mathlib.Data.List.Nodup
import Mathlib.Logic.Function.Basic
import Onevcs.NativeObjects.Paint

/-!
# What the walk keeps

The invariant of the paint-down walk, over a history its view reads from. The flags
are sound; a commit that carries a side's mark is either queued or has handed what it
carries to its parents; and the entry the walk remembers as its oldest one that was
not stale is popped after every other such entry, whatever the committer times are.

The last point is all the walk uses of the times. It makes the end of the loop mean
that every commit still queued is stale.
-/

set_option linter.unusedSectionVars false

namespace Onevcs.NativeObjects

open Foundations

/-! ## Flags -/

/-- The two commits a walk starts from. -/
inductive Side
  | one
  | two

namespace Flags

def has (f : Flags) : Side → Bool
  | .one => f.parent1
  | .two => f.parent2

theorem union_has (f g : Flags) (side : Side) :
    (f.union g).has side = (f.has side || g.has side) := by
  cases side <;> rfl

theorem union_stale (f g : Flags) : (f.union g).stale = (f.stale || g.stale) := rfl

theorem union_result (f g : Flags) : (f.union g).result = (f.result || g.result) := rfl

theorem carries_iff {f g : Flags} :
    f.carries g = true ↔
      (∀ side, g.has side = true → f.has side = true) ∧ (g.stale = true → f.stale = true) ∧
        (g.result = true → f.result = true) := by
  obtain ⟨f1, f2, f3, f4⟩ := f
  obtain ⟨g1, g2, g3, g4⟩ := g
  constructor
  · intro h
    simp only [carries, Bool.and_eq_true, Bool.or_eq_true, Bool.not_eq_true'] at h
    refine ⟨fun side => ?_, ?_, ?_⟩
    · cases side <;> simp only [has] <;> grind
    · simp only; grind
    · simp only; grind
  · rintro ⟨hside, hstale, hresult⟩
    have h1 := hside .one
    have h2 := hside .two
    simp only [has] at h1 h2 hstale hresult
    simp only [carries, Bool.and_eq_true, Bool.or_eq_true, Bool.not_eq_true']
    grind

theorem carries_refl (f : Flags) : f.carries f = true :=
  carries_iff.mpr ⟨fun _ h => h, fun h => h, fun h => h⟩

theorem carries_trans {f g h : Flags} (hfg : f.carries g = true) (hgh : g.carries h = true) :
    f.carries h = true := by
  rw [carries_iff] at hfg hgh ⊢
  exact ⟨fun side hs => hfg.1 side (hgh.1 side hs), fun hs => hfg.2.1 (hgh.2.1 hs),
    fun hs => hfg.2.2 (hgh.2.2 hs)⟩

theorem union_carries_left (f g : Flags) : (f.union g).carries f = true :=
  carries_iff.mpr ⟨fun side h => by rw [union_has, h, Bool.true_or],
    fun h => by rw [union_stale, h, Bool.true_or], fun h => by rw [union_result, h, Bool.true_or]⟩

theorem union_carries_right (f g : Flags) : (f.union g).carries g = true :=
  carries_iff.mpr ⟨fun side h => by rw [union_has, h, Bool.or_true],
    fun h => by rw [union_stale, h, Bool.or_true], fun h => by rw [union_result, h, Bool.or_true]⟩

theorem handed_has (f : Flags) (side : Side) : f.handed.has side = f.has side := by
  unfold handed
  split <;> cases side <;> rfl

@[simp] theorem handed_result (f : Flags) : f.handed.result = false := by
  unfold handed
  split <;> rfl

theorem handed_stale_iff {f : Flags} :
    f.handed.stale = true ↔ f.stale = true ∨ f.candidate = true := by
  unfold handed
  split
  · next h => simp [h]
  · next h => simp [marks, h]

theorem candidate_iff {f : Flags} :
    f.candidate = true ↔ (∀ side, f.has side = true) ∧ f.stale = false := by
  constructor
  · intro h
    simp only [candidate, Bool.and_eq_true, Bool.not_eq_true'] at h
    exact ⟨fun side => by cases side <;> simp [has, h], h.2⟩
  · rintro ⟨hside, hstale⟩
    have h1 : f.parent1 = true := hside .one
    have h2 : f.parent2 = true := hside .two
    simp [candidate, h1, h2, hstale]

theorem handed_with_result (f : Flags) : ({ f with result := true } : Flags).handed = f.handed := by
  simp [handed, candidate, marks]

end Flags

section Queue

variable {κ : Type*}

theorem Entry.before.trans {e f g : Entry κ} (hef : e.before f) (hfg : f.before g) :
    e.before g := by
  unfold Entry.before at *
  omega

theorem Entry.before_irrefl (e : Entry κ) : ¬ e.before e := by
  unfold Entry.before
  omega

/-- `pop` takes an entry that goes before every other, and leaves the others. -/
theorem popMax_spec {queue rest : List (Entry κ)} {m : Entry κ}
    (hserial : ∀ e ∈ queue, ∀ f ∈ queue, e.pushed = f.pushed → e = f)
    (hnodup : queue.Nodup) (hpop : popMax queue = some (m, rest)) :
    queue.Perm (m :: rest) ∧ ∀ e ∈ rest, m.before e := by
  induction queue generalizing m rest with
  | nil => simp [popMax] at hpop
  | cons e tail ih =>
    unfold popMax at hpop
    cases htail : popMax tail with
    | none =>
      simp only [htail, Option.some.injEq, Prod.mk.injEq] at hpop
      obtain ⟨rfl, rfl⟩ := hpop
      have hnil : tail = [] := by
        cases tail with
        | nil => rfl
        | cons f fs =>
          unfold popMax at htail
          cases h : popMax fs <;> simp only [h] at htail
          · exact absurd htail (by simp)
          · split at htail <;> exact absurd htail (by simp)
      subst hnil
      exact ⟨List.Perm.refl _, by simp⟩
    | some answer =>
      obtain ⟨n, others⟩ := answer
      obtain ⟨hperm, hfirst⟩ :=
        ih (fun f hf g hg => hserial f (.tail _ hf) g (.tail _ hg)) hnodup.of_cons htail
      have hn : n ∈ tail := hperm.symm.subset List.mem_cons_self
      simp only [htail] at hpop
      split at hpop
      · next hbefore =>
        obtain ⟨rfl, rfl⟩ : n = m ∧ e :: others = rest := by simpa using hpop
        refine ⟨(hperm.cons e).trans (.swap n e others), fun f hf => ?_⟩
        rcases List.mem_cons.mp hf with rfl | hin
        · exact hbefore
        · exact hfirst f hin
      · next hnot =>
        obtain ⟨rfl, rfl⟩ : e = m ∧ n :: others = rest := by simpa using hpop
        have hne : e ≠ n := by
          rintro rfl
          exact (List.nodup_cons.mp hnodup).1 hn
        have hpushed : e.pushed ≠ n.pushed :=
          fun h => hne (hserial e List.mem_cons_self n (.tail _ hn) h)
        -- of two entries that differ, one goes first
        have hbefore : e.before n := by
          unfold Entry.before at hnot ⊢
          omega
        refine ⟨hperm.cons e, fun f hf => ?_⟩
        rcases List.mem_cons.mp hf with rfl | hin
        · exact hbefore
        · exact hbefore.trans (hfirst f hin)

theorem popMax_none {queue : List (Entry κ)} (hpop : popMax queue = none) : queue = [] := by
  cases queue with
  | nil => rfl
  | cons e tail =>
    unfold popMax at hpop
    cases h : popMax tail <;> simp only [h] at hpop
    · exact absurd hpop (by simp)
    · split at hpop <;> exact absurd hpop (by simp)

end Queue

section Paint

variable {κ : Type*} [DecidableEq κ]

namespace Walk

/-- Add `marks` to a commit and queue it: what the walk does to the parent of a popped
commit, and to the two commits it starts from. -/
def paintOn (s : Walk κ) (id : κ) (time : Int) (marks : Flags) : Walk κ :=
  (s.mark id ((s.flags id).union marks)).push id time marks.stale

@[simp] theorem push_flags (s : Walk κ) (id : κ) (time : Int) (stale : Bool) :
    (s.push id time stale).flags = s.flags := by
  unfold push
  split <;> rfl

@[simp] theorem push_results (s : Walk κ) (id : κ) (time : Int) (stale : Bool) :
    (s.push id time stale).results = s.results := by
  unfold push
  split <;> rfl

@[simp] theorem push_reader (s : Walk κ) (id : κ) (time : Int) (stale : Bool) :
    (s.push id time stale).reader = s.reader := by
  unfold push
  split <;> rfl

theorem push_enqueued (s : Walk κ) (id : κ) (time : Int) (stale : Bool) :
    (s.push id time stale).enqueued = insert id s.enqueued := by
  unfold push
  split
  · next h => rw [Finset.insert_eq_of_mem h]
  · rfl

variable {s : Walk κ} {i : κ} {t : Int} {m : Flags}

@[simp] theorem paintOn_results : (s.paintOn i t m).results = s.results := by
  simp [paintOn, mark]

theorem paintOn_enqueued : (s.paintOn i t m).enqueued = insert i s.enqueued := by
  rw [paintOn, push_enqueued]
  rfl

theorem paintOn_flags_self :
    (s.paintOn i t m).flags i = (s.flags i).union m := by
  simp [paintOn, mark]

theorem paintOn_flags_of_ne {c : κ} (hne : c ≠ i) :
    (s.paintOn i t m).flags c = s.flags c := by
  simp [paintOn, mark, Function.update_of_ne hne]

theorem paintOn_carries (c : κ) :
    ((s.paintOn i t m).flags c).carries (s.flags c) = true := by
  by_cases h : c = i
  · subst h
    rw [paintOn_flags_self]
    exact Flags.union_carries_left _ _
  · rw [paintOn_flags_of_ne h]
    exact Flags.carries_refl _

end Walk

/-- A commit has handed what it carries to its parents, and is a result if it is a
candidate. -/
structure Settled (G : Dag κ) (s : Walk κ) (c : κ) : Prop where
  handed : ∀ p ∈ G.parents c, (s.flags p).carries (s.flags c).handed = true
  harvested : (s.flags c).candidate = true → c ∈ s.results

/-- The walk's queue, with the entries it holds told apart. -/
structure Queued (s : Walk κ) : Prop where
  ids : ∀ e ∈ s.queue, ∀ f ∈ s.queue, e.id = f.id → e = f
  serials : ∀ e ∈ s.queue, ∀ f ∈ s.queue, e.pushed = f.pushed → e = f
  bounded : ∀ e ∈ s.queue, e.pushed < s.pushed
  nodup : s.queue.Nodup
  enqueued : ∀ c, c ∈ s.enqueued ↔ ∃ e ∈ s.queue, e.id = c

/-- The entry remembered as the oldest one that was not stale is queued, and every queued
entry is stale or popped no later than it. -/
structure OldestLast (s : Walk κ) : Prop where
  held : ∀ old, s.oldestNonstale = some old → ∃ o ∈ s.queue, old = (o.time, o.id)
  last : ∀ e ∈ s.queue, (s.flags e.id).stale = true ∨
    ∃ o ∈ s.queue, s.oldestNonstale = some (o.time, o.id) ∧ (e = o ∨ e.before o)

/-- The invariant of the walk from the two roots over a history. While a popped commit
is handing its marks on, `busy` names it. -/
structure Painted (G : Dag κ) (root : Side → κ) (busy : Option κ) (s : Walk κ) : Prop where
  sound : ∀ side c, (s.flags c).has side = true → G.Reaches (root side) c
  stale : ∀ c, (s.flags c).stale = true → (∀ side, (s.flags c).has side = true) ∧
    ∃ d, G.Common (root .one) (root .two) d ∧ G.Above d c
  queued : Queued s
  nodes : ∀ c ∈ s.enqueued, c ∈ G.nodes
  settled : ∀ c side, busy ≠ some c → (s.flags c).has side = true →
    c ∈ s.enqueued ∨ Settled G s c
  oldest : OldestLast s
  results : ∀ c, (s.flags c).result = true → c ∈ s.results
  reached : ∀ c ∈ s.results, ∀ side, (s.flags c).has side = true

theorem Queued.push {s : Walk κ} (hq : Queued s) (id : κ) (time : Int) (stale : Bool) :
    Queued (s.push id time stale) := by
  unfold Walk.push
  split
  · exact hq
  · next hnew =>
    have hother : ∀ e ∈ s.queue, e.id ≠ id := fun e he h =>
      hnew ((hq.enqueued id).mpr ⟨e, he, h⟩)
    refine ⟨?_, ?_, ?_, ?_, ?_⟩
    · intro e he f hf hid
      rcases List.mem_cons.mp he with rfl | he' <;> rcases List.mem_cons.mp hf with rfl | hf'
      · rfl
      · exact absurd hid.symm (hother f hf')
      · exact absurd hid (hother e he')
      · exact hq.ids e he' f hf' hid
    · intro e he f hf hpushed
      rcases List.mem_cons.mp he with rfl | he' <;> rcases List.mem_cons.mp hf with rfl | hf'
      · rfl
      · exact absurd (hq.bounded f hf') (by simp only at hpushed; omega)
      · exact absurd (hq.bounded e he') (by simp only at hpushed; omega)
      · exact hq.serials e he' f hf' hpushed
    · intro e he
      rcases List.mem_cons.mp he with rfl | he'
      · exact Nat.lt_succ_self _
      · exact Nat.lt_succ_of_lt (hq.bounded e he')
    · exact List.nodup_cons.mpr ⟨fun h => hother _ h rfl, hq.nodup⟩
    · intro c
      rw [Finset.mem_insert, hq.enqueued]
      constructor
      · rintro (rfl | ⟨e, he, rfl⟩)
        · exact ⟨_, List.mem_cons_self, rfl⟩
        · exact ⟨e, .tail _ he, rfl⟩
      · rintro ⟨e, he, rfl⟩
        rcases List.mem_cons.mp he with rfl | he'
        · exact Or.inl rfl
        · exact Or.inr ⟨e, he', rfl⟩

/-- A push keeps the oldest entry last, the pushed commit being marked stale already
where it is pushed as stale. -/
theorem OldestLast.push {s : Walk κ} (ho : OldestLast s) (hq : Queued s) {id : κ} {time : Int}
    {stale : Bool} (hstale : stale = true → (s.flags id).stale = true) :
    OldestLast (s.push id time stale) := by
  by_cases hin : id ∈ s.enqueued
  · rwa [show s.push id time stale = s by simp [Walk.push, hin]]
  · cases hwhether : !stale && s.oldestNonstale.all fun old => decide (time ≤ old.1) with
    | true =>
      -- the new entry is popped after the oldest one before it
      have hpush : s.push id time stale =
          { s with
            queue := ⟨time, s.pushed, id⟩ :: s.queue, enqueued := insert id s.enqueued
            pushed := s.pushed + 1, oldestNonstale := some (time, id) } := by
        simp [Walk.push, hin, hwhether]
      obtain ⟨-, hall⟩ : stale = false ∧
          (s.oldestNonstale.all fun old => decide (time ≤ old.1)) = true := by
        simpa only [Bool.and_eq_true, Bool.not_eq_true'] using hwhether
      rw [hpush]
      refine ⟨?_, fun e he => ?_⟩
      · rintro _ ⟨⟩
        exact ⟨_, List.mem_cons_self, rfl⟩
      · rcases List.mem_cons.mp he with rfl | he'
        · exact Or.inr ⟨_, List.mem_cons_self, rfl, Or.inl rfl⟩
        · rcases ho.last e he' with h | ⟨o, hoin, hold, hlast⟩
          · exact Or.inl h
          · have htime : time ≤ o.time := by simpa [hold] using hall
            have hserial := hq.bounded o hoin
            have hafter : o.before ⟨time, s.pushed, id⟩ := by
              unfold Entry.before
              simp only
              omega
            refine Or.inr ⟨_, List.mem_cons_self, rfl, Or.inr ?_⟩
            rcases hlast with rfl | hbefore
            · exact hafter
            · exact hbefore.trans hafter
    | false =>
      have hpush : s.push id time stale =
          { s with
            queue := ⟨time, s.pushed, id⟩ :: s.queue, enqueued := insert id s.enqueued
            pushed := s.pushed + 1 } := by
        simp [Walk.push, hin, hwhether]
      rw [hpush]
      refine ⟨fun old hold => ?_, fun e he => ?_⟩
      · obtain ⟨o, hoin, ho'⟩ := ho.held old hold
        exact ⟨o, .tail _ hoin, ho'⟩
      · rcases List.mem_cons.mp he with rfl | he'
        · -- pushed as stale, or later than an entry that is remembered
          cases hs : stale with
          | true => exact Or.inl (hstale hs)
          | false =>
            cases hold : s.oldestNonstale with
            | none => simp [hs, hold] at hwhether
            | some old =>
              obtain ⟨o, hoin, rfl⟩ := ho.held old hold
              have htime : o.time < time := by simpa [hs, hold] using hwhether
              exact Or.inr ⟨o, .tail _ hoin, rfl, Or.inr (Or.inl htime)⟩
        · rcases ho.last e he' with h | ⟨o, hoin, hold, hlast⟩
          · exact Or.inl h
          · exact Or.inr ⟨o, .tail _ hoin, hold, hlast⟩

theorem Queued.mark {s : Walk κ} (hq : Queued s) (id : κ) (f : Flags) : Queued (s.mark id f) :=
  ⟨hq.ids, hq.serials, hq.bounded, hq.nodup, hq.enqueued⟩

theorem OldestLast.mark {s : Walk κ} (ho : OldestLast s) {id : κ} {f : Flags}
    (hcarries : f.carries (s.flags id) = true) : OldestLast (s.mark id f) := by
  refine ⟨ho.held, fun e he => ?_⟩
  rcases ho.last e he with h | hlast
  · refine Or.inl ?_
    by_cases hid : e.id = id
    · subst hid
      simp only [Walk.mark, Function.update_self]
      exact (Flags.carries_iff.mp hcarries).2.1 h
    · simpa only [Walk.mark, Function.update_of_ne hid] using h
  · exact Or.inr hlast

theorem Settled.paintOn {G : Dag κ} {s : Walk κ} {i c : κ} {t : Int} {m : Flags}
    (h : Settled G s c) (hne : c ≠ i) : Settled G (s.paintOn i t m) c where
  handed := by
    intro p hp
    rw [Walk.paintOn_flags_of_ne hne]
    exact Flags.carries_trans (Walk.paintOn_carries p) (h.handed p hp)
  harvested := by
    rw [Walk.paintOn_flags_of_ne hne, Walk.paintOn_results]
    exact h.harvested

/-- Painting a commit keeps the invariant where the marks are right for it. -/
theorem Painted.paintOn {G : Dag κ} {root : Side → κ} {busy : Option κ} {s : Walk κ}
    (hp : Painted G root busy s) {i : κ} {t : Int} {m : Flags}
    (hsound : ∀ side, m.has side = true → G.Reaches (root side) i)
    (hstale : m.stale = true → (∀ side, m.has side = true) ∧
      ∃ d, G.Common (root .one) (root .two) d ∧ G.Above d i)
    (hresult : m.result = false) (hnode : i ∈ G.nodes) :
    Painted G root busy (s.paintOn i t m) where
  sound := by
    intro side c h
    by_cases hc : c = i
    · subst hc
      rw [Walk.paintOn_flags_self, Flags.union_has, Bool.or_eq_true] at h
      exact h.elim (hp.sound side c) (hsound side)
    · rw [Walk.paintOn_flags_of_ne hc] at h
      exact hp.sound side c h
  stale := by
    intro c h
    have hkeeps := (Flags.carries_iff.mp (Walk.paintOn_carries (s := s) (t := t)
      (m := m) (i := i) c)).1
    by_cases hc : c = i
    · subst hc
      rw [Walk.paintOn_flags_self, Flags.union_stale, Bool.or_eq_true] at h
      rcases h with h | h
      · exact ⟨fun side => hkeeps side ((hp.stale c h).1 side), (hp.stale c h).2⟩
      · refine ⟨fun side => ?_, (hstale h).2⟩
        rw [Walk.paintOn_flags_self, Flags.union_has, (hstale h).1 side, Bool.or_true]
    · rw [Walk.paintOn_flags_of_ne hc] at h
      exact ⟨fun side => hkeeps side ((hp.stale c h).1 side), (hp.stale c h).2⟩
  queued := (hp.queued.mark i _).push i t m.stale
  nodes := by
    intro c hc
    rw [Walk.paintOn_enqueued, Finset.mem_insert] at hc
    rcases hc with rfl | hc
    · exact hnode
    · exact hp.nodes c hc
  settled := by
    intro c side hbusy h
    rw [Walk.paintOn_enqueued]
    by_cases hc : c = i
    · exact Or.inl (Finset.mem_insert.mpr (Or.inl hc))
    · rw [Walk.paintOn_flags_of_ne hc] at h
      exact (hp.settled c side hbusy h).imp (fun hin => Finset.mem_insert.mpr (Or.inr hin))
        fun hset => hset.paintOn hc
  oldest := by
    refine OldestLast.push (hp.oldest.mark (Flags.union_carries_left _ _))
      (hp.queued.mark i _) fun h => ?_
    simp only [Walk.mark, Function.update_self, Flags.union_stale, h, Bool.or_true]
  results := by
    intro c h
    rw [Walk.paintOn_results]
    by_cases hc : c = i
    · subst hc
      rw [Walk.paintOn_flags_self, Flags.union_result, hresult, Bool.or_false] at h
      exact hp.results c h
    · rw [Walk.paintOn_flags_of_ne hc] at h
      exact hp.results c h
  reached := by
    intro c hc side
    rw [Walk.paintOn_results] at hc
    exact (Flags.carries_iff.mp (Walk.paintOn_carries c)).1 side (hp.reached c hc side)

/-! ## One round of the loop -/

/-- A view that reads a history: what it stores of a commit is the history's. -/
structure View.Reads (view : View κ) (G : Dag κ) : Prop where
  node : ∀ c parsed, view.stored c = some parsed → c ∈ G.nodes
  parents : ∀ c parsed, view.stored c = some parsed → parsed.parents = G.parents c

theorem View.commit_stored {view : View κ} {reader reader' : Reader κ} {c : κ} {parsed : Parsed κ}
    (h : view.commit reader c = some (parsed, reader')) : view.stored c = some parsed := by
  unfold View.commit at h
  split at h
  · obtain ⟨_, hstored, heq⟩ := Option.map_eq_some_iff.mp h
    cases heq
    exact hstored
  · split at h
    · exact absurd h (by simp)
    · obtain ⟨_, hstored, heq⟩ := Option.map_eq_some_iff.mp h
      cases heq
      exact hstored

theorem Walk.read_eq {s s' : Walk κ} {view : View κ} {c : κ} {parsed : Parsed κ}
    (h : s.read view c = some (parsed, s')) :
    view.stored c = some parsed ∧ ∃ reader, s' = { s with reader := reader } := by
  obtain ⟨⟨_, reader⟩, hcommit, heq⟩ := Option.map_eq_some_iff.mp h
  cases heq
  exact ⟨View.commit_stored hcommit, reader, rfl⟩

section Round

variable {G : Dag κ} {root : Side → κ} {view : View κ} {busy : Option κ} {s s' : Walk κ}

theorem Painted.read (hp : Painted G root busy s) (reader : Reader κ) :
    Painted G root busy { s with reader := reader } :=
  ⟨hp.sound, hp.stale, ⟨hp.queued.ids, hp.queued.serials, hp.queued.bounded, hp.queued.nodup,
    hp.queued.enqueued⟩, hp.nodes,
    fun c side hb h => (hp.settled c side hb h).imp id fun hs => ⟨hs.handed, hs.harvested⟩,
    ⟨hp.oldest.held, hp.oldest.last⟩, hp.results, hp.reached⟩

theorem Painted.handed_right (hp : Painted G root busy s) {c p : κ} (hparent : p ∈ G.parents c) :
    (∀ side, (s.flags c).handed.has side = true → G.Reaches (root side) p) ∧
      ((s.flags c).handed.stale = true → (∀ side, (s.flags c).handed.has side = true) ∧
        ∃ d, G.Common (root .one) (root .two) d ∧ G.Above d p) := by
  refine ⟨fun side h => ?_, fun h => ?_⟩
  · rw [Flags.handed_has] at h
    exact (hp.sound side c h).tail hparent
  · rcases Flags.handed_stale_iff.mp h with hstale | hcandidate
    · obtain ⟨hboth, d, hd, habove⟩ := hp.stale c hstale
      exact ⟨fun side => by rw [Flags.handed_has]; exact hboth side, d, hd, habove.tail hparent⟩
    · obtain ⟨hboth, -⟩ := Flags.candidate_iff.mp hcandidate
      exact ⟨fun side => by rw [Flags.handed_has]; exact hboth side, c,
        ⟨hp.sound .one c (hboth .one), hp.sound .two c (hboth .two)⟩, Dag.above_of_parent hparent⟩

theorem Painted.visitParent (hp : Painted G root busy s) {c p : κ} (hparent : p ∈ G.parents c)
    (hnode : p ∈ G.nodes) (hvisit : s.visitParent view (s.flags c).handed p = some s') :
    Painted G root busy s' ∧ s'.flags c = s.flags c ∧ s'.results = s.results ∧
      (s'.flags p).carries (s.flags c).handed = true ∧
      ∀ q, (s'.flags q).carries (s.flags q) = true := by
  unfold Walk.visitParent at hvisit
  split at hvisit
  · next hcarries =>
    obtain rfl := Option.some.inj hvisit
    exact ⟨hp, rfl, rfl, hcarries, fun q => Flags.carries_refl _⟩
  · obtain ⟨⟨parsed, s₁⟩, hread, rfl⟩ := Option.map_eq_some_iff.mp hvisit
    obtain ⟨-, reader, rfl⟩ := Walk.read_eq hread
    have hne : c ≠ p := by
      rintro rfl
      exact Dag.parent_not_self c hparent
    obtain ⟨hsound, hstale⟩ := hp.handed_right hparent
    have hread : Painted G root busy { s with reader := reader } := hp.read reader
    refine ⟨hread.paintOn (t := parsed.time) hsound hstale (Flags.handed_result _) hnode,
      Walk.paintOn_flags_of_ne (s := { s with reader := reader }) hne,
      Walk.paintOn_results (s := { s with reader := reader }), ?_, fun q =>
      Walk.paintOn_carries (s := { s with reader := reader }) q⟩
    have hself := Walk.paintOn_flags_self (s := { s with reader := reader }) (i := p)
      (t := parsed.time) (m := (s.flags c).handed)
    unfold Walk.paintOn at hself
    rw [hself]
    exact Flags.union_carries_right _ _

theorem Painted.visitParents {c : κ} {parents : List κ} (hp : Painted G root busy s)
    (hparents : ∀ p ∈ parents, p ∈ G.parents c) (hnodes : ∀ p ∈ parents, p ∈ G.nodes)
    (hvisit : Walk.visitParents view (s.flags c).handed s parents = some s') :
    Painted G root busy s' ∧ s'.flags c = s.flags c ∧ s'.results = s.results ∧
      (∀ p ∈ parents, (s'.flags p).carries (s.flags c).handed = true) ∧
      ∀ q, (s'.flags q).carries (s.flags q) = true := by
  induction parents generalizing s with
  | nil =>
    obtain rfl : s = s' := by simpa [Walk.visitParents] using hvisit
    exact ⟨hp, rfl, rfl, by simp, fun q => Flags.carries_refl _⟩
  | cons p rest ih =>
    obtain ⟨s₁, hfirst, hrest⟩ := Option.bind_eq_some_iff.mp hvisit
    obtain ⟨hp₁, hflags₁, hresults₁, hcarries₁, hmono₁⟩ :=
      hp.visitParent (hparents p List.mem_cons_self) (hnodes p List.mem_cons_self) hfirst
    rw [← hflags₁] at hrest
    obtain ⟨hp', hflags', hresults', hcarries', hmono'⟩ :=
      ih hp₁ (fun q hq => hparents q (.tail _ hq)) (fun q hq => hnodes q (.tail _ hq)) hrest
    refine ⟨hp', hflags'.trans hflags₁, hresults'.trans hresults₁, fun q hq => ?_, fun q =>
      Flags.carries_trans (hmono' q) (hmono₁ q)⟩
    rcases List.mem_cons.mp hq with rfl | hin
    · exact Flags.carries_trans (hmono' q) hcarries₁
    · rw [← hflags₁]
      exact hcarries' q hin

/-- Popping an entry leaves its commit to hand its marks on. -/
theorem Painted.popped (hp : Painted G root none s) {e : Entry κ} {rest : List (Entry κ)}
    (hpop : popMax s.queue = some (e, rest)) : Painted G root (some e.id) (s.popped e rest) := by
  obtain ⟨hperm, hfirst⟩ := popMax_spec hp.queued.serials hp.queued.nodup hpop
  have hin : ∀ f ∈ rest, f ∈ s.queue := fun f hf => hperm.symm.subset (.tail _ hf)
  have he : e ∈ s.queue := hperm.symm.subset List.mem_cons_self
  have hnodup : (e :: rest).Nodup := hperm.nodup_iff.mp hp.queued.nodup
  have hother : ∀ f ∈ rest, f.id ≠ e.id := by
    intro f hf hid
    obtain rfl := hp.queued.ids f (hin f hf) e he hid
    exact (List.nodup_cons.mp hnodup).1 hf
  have henqueued : ∀ c, c ∈ s.enqueued.erase e.id ↔ c ≠ e.id ∧ c ∈ s.enqueued :=
    fun c => Finset.mem_erase
  refine
    { sound := hp.sound
      stale := hp.stale
      queued := ⟨fun f hf g hg => hp.queued.ids f (hin f hf) g (hin g hg),
        fun f hf g hg => hp.queued.serials f (hin f hf) g (hin g hg),
        fun f hf => hp.queued.bounded f (hin f hf), hnodup.of_cons, fun c => ?_⟩
      nodes := fun c hc => hp.nodes c ((henqueued c).mp hc).2
      settled := fun c side hbusy h => ?_
      oldest := ?_
      results := hp.results
      reached := hp.reached }
  · refine (henqueued c).trans ⟨fun h => ?_, fun h => ?_⟩
    · obtain ⟨f, hf, rfl⟩ := (hp.queued.enqueued c).mp h.2
      rcases List.mem_cons.mp (hperm.subset hf) with rfl | hf'
      · exact absurd rfl h.1
      · exact ⟨f, hf', rfl⟩
    · obtain ⟨f, hf, rfl⟩ := h
      exact ⟨hother f hf, (hp.queued.enqueued f.id).mpr ⟨f, hin f hf, rfl⟩⟩
  · have hne : c ≠ e.id := fun hc => hbusy (congrArg some hc.symm)
    exact (hp.settled c side (by simp) h).imp (fun hq => (henqueued c).mpr ⟨hne, hq⟩)
      fun hs => ⟨hs.handed, hs.harvested⟩
  · -- the oldest entry is forgotten with its commit, and only stale ones are left then
    by_cases hold : s.oldestNonstale.any fun old => decide (old.2 = e.id)
    · have hforgotten : (s.popped e rest).oldestNonstale = none := by simp [Walk.popped, hold]
      refine ⟨fun old h => absurd (hforgotten.symm.trans h) (by simp), fun f hf => Or.inl ?_⟩
      rcases hp.oldest.last f (hin f hf) with hstale | ⟨o, ho, hoeq, hlast⟩
      · exact hstale
      · have hid : o.id = e.id := by simpa [hoeq] using hold
        obtain rfl := hp.queued.ids o ho e he hid
        have hbefore := hfirst f hf
        rcases hlast with rfl | hafter
        · exact absurd hbefore (Entry.before_irrefl _)
        · exact absurd (hbefore.trans hafter) (Entry.before_irrefl _)
    · have hkept : (s.popped e rest).oldestNonstale = s.oldestNonstale := by
        simp [Walk.popped, hold]
      have hstays : ∀ o ∈ s.queue, s.oldestNonstale = some (o.time, o.id) → o ∈ rest := by
        intro o ho hoeq
        rcases List.mem_cons.mp (hperm.subset ho) with rfl | ho'
        · exact absurd (by simp [hoeq]) hold
        · exact ho'
      refine ⟨fun old h => ?_, fun f hf => ?_⟩
      · obtain ⟨o, ho, rfl⟩ := hp.oldest.held old (hkept.symm.trans h)
        exact ⟨o, hstays o ho (hkept.symm.trans h), rfl⟩
      · rcases hp.oldest.last f (hin f hf) with hstale | ⟨o, ho, hoeq, hlast⟩
        · exact Or.inl hstale
        · exact Or.inr ⟨o, hstays o ho hoeq, hkept.trans hoeq, hlast⟩

/-- Recording a result keeps the invariant and what the commit hands on. -/
theorem Painted.harvest (hp : Painted G root busy s) (c : κ) :
    Painted G root busy (s.harvest c) ∧
      ((s.harvest c).flags c).handed = (s.flags c).handed ∧
      (((s.harvest c).flags c).candidate = true → c ∈ (s.harvest c).results) ∧
      ∀ q, ((s.harvest c).flags q).carries (s.flags q) = true := by
  unfold Walk.harvest
  split
  · next hnew =>
    simp only [Bool.and_eq_true, Bool.not_eq_true'] at hnew
    obtain ⟨hcandidate, -⟩ := hnew
    obtain ⟨hboth, -⟩ := Flags.candidate_iff.mp hcandidate
    have hself : (s.mark c { s.flags c with result := true }).flags c =
        { s.flags c with result := true } := Function.update_self ..
    have hother : ∀ d ≠ c, (s.mark c { s.flags c with result := true }).flags d = s.flags d :=
      fun d hd => Function.update_of_ne hd ..
    -- apart from the result bit, no commit's flags change
    have hhas : ∀ d side, ((s.mark c { s.flags c with result := true }).flags d).has side =
        (s.flags d).has side := by
      intro d side
      by_cases hd : d = c
      · subst hd
        rw [hself]
        cases side <;> rfl
      · rw [hother d hd]
    have hstale : ∀ d, ((s.mark c { s.flags c with result := true }).flags d).stale =
        (s.flags d).stale := by
      intro d
      by_cases hd : d = c
      · subst hd
        rw [hself]
      · rw [hother d hd]
    have hhanded : ∀ d, ((s.mark c { s.flags c with result := true }).flags d).handed =
        (s.flags d).handed := by
      intro d
      by_cases hd : d = c
      · subst hd
        rw [hself, Flags.handed_with_result]
      · rw [hother d hd]
    have hcand : ∀ d, ((s.mark c { s.flags c with result := true }).flags d).candidate =
        (s.flags d).candidate := by
      intro d
      by_cases hd : d = c
      · subst hd
        rw [hself]
        rfl
      · rw [hother d hd]
    have hgrown : ∀ d, ((s.mark c { s.flags c with result := true }).flags d).carries
        (s.flags d) = true := by
      intro d
      refine Flags.carries_iff.mpr ⟨fun side h => (hhas d side).trans h,
        fun h => (hstale d).trans h, fun h => ?_⟩
      by_cases hd : d = c
      · subst hd
        rw [hself]
      · rwa [hother d hd]
    refine ⟨?_, hhanded c, fun _ => by simp, hgrown⟩
    refine
      { sound := fun side d h => hp.sound side d ((hhas d side).symm.trans h)
        stale := fun d h => ?_
        queued := ⟨hp.queued.ids, hp.queued.serials, hp.queued.bounded, hp.queued.nodup,
          hp.queued.enqueued⟩
        nodes := hp.nodes
        settled := fun d side hbusy h => ?_
        oldest := ⟨hp.oldest.held, fun e he => ?_⟩
        results := fun d h => ?_
        reached := fun d hd side => ?_ }
    · obtain ⟨h1, h2⟩ := hp.stale d ((hstale d).symm.trans h)
      exact ⟨fun side => (hhas d side).trans (h1 side), h2⟩
    · refine (hp.settled d side hbusy ((hhas d side).symm.trans h)).imp id fun hset => ?_
      refine ⟨fun p hpar => ?_, fun hc => ?_⟩
      · exact Flags.carries_trans (hgrown p) ((hhanded d).symm ▸ hset.handed p hpar)
      · exact List.mem_append_left _ (hset.harvested ((hcand d).symm.trans hc))
    · exact (hp.oldest.last e he).imp (fun h => (hstale e.id).trans h) id
    · by_cases hd : d = c
      · subst hd
        simp
      · rw [hother d hd] at h
        exact List.mem_append_left _ (hp.results d h)
    · rcases List.mem_append.mp hd with hin | hin
      · exact (hhas d side).trans (hp.reached d hin side)
      · obtain rfl := List.mem_singleton.mp hin
        exact (hhas d side).trans (hboth side)
  · next hnot =>
    refine ⟨hp, rfl, fun hcandidate => hp.results c ?_, fun q => Flags.carries_refl _⟩
    simpa [hcandidate] using hnot

theorem Painted.round (hreads : view.Reads G) (hp : Painted G root none s) {e : Entry κ}
    {rest : List (Entry κ)} (hpop : popMax s.queue = some (e, rest))
    (hround : s.round view e rest = some s') :
    Painted G root none s' ∧ ∀ q, (s'.flags q).carries (s.flags q) = true := by
  obtain ⟨⟨parsed, s₃⟩, hread, hvisit⟩ := Option.bind_eq_some_iff.mp hround
  obtain ⟨hstored, reader, rfl⟩ := Walk.read_eq hread
  obtain ⟨hharvest, hhanded, hresult, hgrown⟩ := (hp.popped hpop).harvest e.id
  have hnode : e.id ∈ G.nodes := hreads.node _ _ hstored
  have hparents : parsed.parents = G.parents e.id := hreads.parents _ _ hstored
  rw [hparents, ← hhanded] at hvisit
  obtain ⟨hp', hflags, hresults, hcarries, hmono⟩ :=
    (hharvest.read reader).visitParents (fun p h => h) (G.closed _ hnode) hvisit
  refine ⟨{ hp' with settled := fun c side _ h => ?_ }, fun q =>
    Flags.carries_trans (hmono q) (hgrown q)⟩
  by_cases hc : c = e.id
  · subst hc
    refine Or.inr ⟨fun p hpar => ?_, fun hcandidate => ?_⟩
    · rw [hflags]
      exact hcarries p hpar
    · rw [hresults]
      exact hresult (hflags ▸ hcandidate)
  · exact hp'.settled c side (fun h => hc (Option.some.inj h).symm) h

theorem View.start_eq {reader : Reader κ} {one two : κ}
    (hstart : view.start reader one two = some s) :
    ∃ parsed₁ reader₁ parsed₂ reader₂, view.stored one = some parsed₁ ∧
      view.stored two = some parsed₂ ∧
      s = Walk.paintOn { (Walk.blank reader₁).paintOn one parsed₁.time .first with
        reader := reader₂ } two parsed₂.time .second := by
  obtain ⟨⟨parsed₁, s₁⟩, hread₁, hrest⟩ := Option.bind_eq_some_iff.mp hstart
  obtain ⟨hstored₁, reader₁, rfl⟩ := Walk.read_eq hread₁
  obtain ⟨⟨parsed₂, s₂⟩, hread₂, rfl⟩ := Option.map_eq_some_iff.mp hrest
  obtain ⟨hstored₂, reader₂, rfl⟩ := Walk.read_eq hread₂
  exact ⟨parsed₁, reader₁, parsed₂, reader₂, hstored₁, hstored₂, rfl⟩

theorem Painted.blank (reader : Reader κ) : Painted G root none (Walk.blank reader) where
  sound side c h := by cases side <;> simp [Walk.blank, Flags.none, Flags.has] at h
  stale c h := by simp [Walk.blank, Flags.none] at h
  queued := ⟨by simp [Walk.blank], by simp [Walk.blank], by simp [Walk.blank],
    by simp [Walk.blank], by simp [Walk.blank]⟩
  nodes := by simp [Walk.blank]
  settled c side _ h := by cases side <;> simp [Walk.blank, Flags.none, Flags.has] at h
  oldest := ⟨by simp [Walk.blank], by simp [Walk.blank]⟩
  results c h := by simp [Walk.blank, Flags.none] at h
  reached := by simp [Walk.blank]

/-- The walk as it is set up satisfies the invariant, and marks both its roots. -/
theorem Painted.start (hreads : view.Reads G) {reader : Reader κ}
    (hstart : view.start reader (root .one) (root .two) = some s) :
    Painted G root none s ∧ ∀ side, (s.flags (root side)).has side = true := by
  obtain ⟨parsed₁, reader₁, parsed₂, reader₂, hstored₁, hstored₂, rfl⟩ := View.start_eq hstart
  have hfirst : Painted G root none
      ((Walk.blank reader₁).paintOn (root .one) parsed₁.time .first) :=
    (Painted.blank reader₁).paintOn
      (fun side h => by cases side with
        | one => exact Dag.Reaches.refl _
        | two => simp [Flags.first, Flags.has] at h)
      (fun h => by simp [Flags.first] at h) rfl (hreads.node _ _ hstored₁)
  have hmarked : (((Walk.blank reader₁).paintOn (root .one) parsed₁.time .first).flags
      (root .one)).has .one = true := by
    rw [Walk.paintOn_flags_self, Flags.union_has]
    rfl
  generalize (Walk.blank reader₁).paintOn (root .one) parsed₁.time .first = s₁ at hfirst hmarked
  have hsecond := (hfirst.read reader₂).paintOn (t := parsed₂.time) (i := root .two)
    (m := .second)
    (fun side h => by cases side with
      | one => simp [Flags.second, Flags.has] at h
      | two => exact Dag.Reaches.refl _)
    (fun h => by simp [Flags.second] at h) rfl (hreads.node _ _ hstored₂)
  refine ⟨hsecond, fun side => ?_⟩
  cases side with
  | one => exact (Flags.carries_iff.mp (Walk.paintOn_carries (root .one))).1 .one hmarked
  | two =>
    rw [Walk.paintOn_flags_self, Flags.union_has]
    simp [Flags.second, Flags.has]

end Round

end Paint

end Onevcs.NativeObjects
