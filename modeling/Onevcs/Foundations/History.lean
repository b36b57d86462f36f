import Mathlib.Logic.Relation
import Mathlib.Data.List.Dedup

/-!
# Histories with generation numbers

A history whose nodes list their parents, each of a smaller generation: the shape of a
commit graph, where a parent is older than its child. The graph may be infinite; what
one node reaches is finite, and is listed by walking as deep as its generation.
-/

namespace Foundations

/-- A history: every parent is of a smaller generation than its child. -/
structure History (κ : Type*) where
  /-- The parents of a node, the first one first. -/
  parents : κ → List κ
  /-- How deep the history below a node can be. -/
  generation : κ → Nat
  /-- A parent is older than its child. -/
  older : ∀ c, ∀ p ∈ parents c, generation p < generation c

namespace History

variable {κ : Type*} (H : History κ)

/-- `a` is `c` or an ancestor of it. -/
def Reaches (c a : κ) : Prop := Relation.ReflTransGen (fun c p => p ∈ H.parents c) c a

/-- What a node reaches by at most so many parent edges. -/
def walk : Nat → κ → List κ
  | 0, c => [c]
  | depth + 1, c => c :: (H.parents c).flatMap (walk depth)

/-- What a node reaches. -/
def ancestors (c : κ) : List κ := H.walk (H.generation c) c

/-- Some tip of the list reaches the node. -/
def Reached (tips : List κ) (a : κ) : Prop := ∃ tip ∈ tips, H.Reaches tip a

variable {H} {a b c p : κ} {tips : List κ}

theorem Reaches.refl (c : κ) : H.Reaches c c := Relation.ReflTransGen.refl

theorem Reaches.trans (h : H.Reaches a b) (h' : H.Reaches b c) : H.Reaches a c :=
  Relation.ReflTransGen.trans h h'

theorem Reaches.of_parent (hp : p ∈ H.parents c) (h : H.Reaches p a) : H.Reaches c a :=
  Relation.ReflTransGen.head hp h

theorem reaches_iff : H.Reaches c a ↔ a = c ∨ ∃ p ∈ H.parents c, H.Reaches p a := by
  constructor
  · intro h
    rcases Relation.ReflTransGen.cases_head h with heq | ⟨p, hp, hrest⟩
    · exact Or.inl heq.symm
    · exact Or.inr ⟨p, hp, hrest⟩
  · rintro (rfl | ⟨p, hp, hrest⟩)
    · exact Reaches.refl _
    · exact Reaches.of_parent hp hrest

theorem Reaches.generation_le (h : H.Reaches c a) : H.generation a ≤ H.generation c := by
  induction h with
  | refl => exact Nat.le_refl _
  | tail _ hp ih => exact Nat.le_trans (Nat.le_of_lt (H.older _ _ hp)) ih

/-- Two nodes that reach each other are one. -/
theorem Reaches.antisymm (h : H.Reaches a b) (h' : H.Reaches b a) : a = b := by
  rcases Relation.ReflTransGen.cases_head h with heq | ⟨p, hp, hrest⟩
  · exact heq
  · have hold := H.older a p hp
    have hle := (Reaches.trans hrest h').generation_le
    omega

theorem mem_walk_self (depth : Nat) (c : κ) : c ∈ H.walk depth c := by
  cases depth <;> simp [walk]

theorem reaches_of_mem_walk {depth : Nat} (h : a ∈ H.walk depth c) : H.Reaches c a := by
  induction depth generalizing c with
  | zero =>
    obtain rfl : a = c := by simpa [walk] using h
    exact Reaches.refl a
  | succ depth ih =>
    rcases List.mem_cons.mp h with rfl | hbelow
    · exact Reaches.refl a
    · obtain ⟨p, hp, hmem⟩ := List.mem_flatMap.mp hbelow
      exact Reaches.of_parent hp (ih hmem)

/-- A walk as deep as the generation of its node leaves nothing out. -/
theorem mem_walk_of_reaches {depth : Nat} (hdepth : H.generation c ≤ depth)
    (h : H.Reaches c a) : a ∈ H.walk depth c := by
  induction depth generalizing c with
  | zero =>
    rcases reaches_iff.mp h with rfl | ⟨p, hp, -⟩
    · exact mem_walk_self 0 a
    · have hold := H.older c p hp
      omega
  | succ depth ih =>
    rcases reaches_iff.mp h with rfl | ⟨p, hp, hrest⟩
    · exact mem_walk_self _ a
    · have hold := H.older c p hp
      exact List.mem_cons_of_mem _ (List.mem_flatMap.mpr ⟨p, hp, ih (by omega) hrest⟩)

@[simp] theorem mem_ancestors : a ∈ H.ancestors c ↔ H.Reaches c a :=
  ⟨reaches_of_mem_walk, mem_walk_of_reaches (Nat.le_refl _)⟩

instance [DecidableEq κ] (c a : κ) : Decidable (H.Reaches c a) :=
  decidable_of_iff _ mem_ancestors

instance [DecidableEq κ] (tips : List κ) (a : κ) : Decidable (H.Reached tips a) :=
  inferInstanceAs (Decidable (∃ tip ∈ tips, H.Reaches tip a))

theorem Reached.of_mem (h : a ∈ tips) : H.Reached tips a := ⟨a, h, Reaches.refl a⟩

theorem Reached.down (h : H.Reached tips a) (hab : H.Reaches a b) : H.Reached tips b := by
  obtain ⟨tip, hmem, hreach⟩ := h
  exact ⟨tip, hmem, hreach.trans hab⟩

variable (H)

/-- What a node reaches and no tip of the list does, each once. -/
def beyond [DecidableEq κ] (tips : List κ) (c : κ) : List κ :=
  ((H.ancestors c).filter fun a => ¬ H.Reached tips a).dedup

variable {H} [DecidableEq κ]

theorem mem_beyond : a ∈ H.beyond tips c ↔ H.Reaches c a ∧ ¬ H.Reached tips a := by
  simp [beyond]

theorem beyond_eq_nil_iff : H.beyond tips c = [] ↔ H.Reached tips c := by
  constructor
  · intro h
    by_contra hnot
    have hmem : c ∈ H.beyond tips c := mem_beyond.mpr ⟨Reaches.refl c, hnot⟩
    simp [h] at hmem
  · intro h
    apply List.eq_nil_iff_forall_not_mem.mpr
    intro a ha
    obtain ⟨hreach, hnot⟩ := mem_beyond.mp ha
    exact hnot (h.down hreach)

variable (H)

/-- What two nodes both reach. -/
def common (a b : κ) : List κ := (H.ancestors a).filter fun x => H.Reaches b x

/-- A common ancestor that no other common ancestor reaches. -/
def mergeBase (a b : κ) : Option κ :=
  ((H.common a b).filter fun x => (H.common a b).all fun y => y = x ∨ ¬ H.Reaches y x).head?

variable {H} {x : κ}

theorem mem_common : x ∈ H.common a b ↔ H.Reaches a x ∧ H.Reaches b x := by
  simp [common]

theorem common_of_mergeBase (h : H.mergeBase a b = some x) : H.Reaches a x ∧ H.Reaches b x :=
  mem_common.mp (List.mem_filter.mp (List.mem_of_mem_head? h)).1

/-- A node another reaches is their only best common ancestor. -/
theorem mergeBase_eq_iff : H.mergeBase a b = some b ↔ H.Reaches a b := by
  constructor
  · intro h
    exact (common_of_mergeBase h).1
  · intro hab
    have hmem : b ∈ H.common a b := mem_common.mpr ⟨hab, Reaches.refl b⟩
    have hbest : ∀ x ∈ (H.common a b).filter fun x =>
        (H.common a b).all fun y => y = x ∨ ¬ H.Reaches y x, x = b := by
      intro x hx
      obtain ⟨hcommon, hall⟩ := List.mem_filter.mp hx
      have hb := of_decide_eq_true (List.all_eq_true.mp hall b hmem)
      rcases hb with heq | hnot
      · exact heq.symm
      · exact absurd (mem_common.mp hcommon).2 hnot
    have hself : b ∈ (H.common a b).filter fun x =>
        (H.common a b).all fun y => y = x ∨ ¬ H.Reaches y x := by
      refine List.mem_filter.mpr ⟨hmem, List.all_eq_true.mpr fun y hy => ?_⟩
      refine decide_eq_true ?_
      by_cases hback : H.Reaches y b
      · exact Or.inl (hback.antisymm (mem_common.mp hy).2)
      · exact Or.inr hback
    obtain ⟨x, hx⟩ := Option.isSome_iff_exists.mp
      (List.isSome_head?.mpr (List.ne_nil_of_mem hself))
    unfold mergeBase
    rw [hx, hbest x (List.mem_of_mem_head? hx)]

section Line

variable {κ : Type*} (H : History κ)

/-- A node and its first parents, by at most so many edges. -/
def follow : Nat → κ → List κ
  | 0, c => [c]
  | depth + 1, c => c :: ((H.parents c).head?.toList.flatMap (follow depth))

/-- A node and its first parents. -/
def line (c : κ) : List κ := H.follow (H.generation c) c

variable {H} {a b c p : κ}

/-- Followed as deep as its generation, a line is whole. -/
theorem follow_eq {depth other : Nat} (hdepth : H.generation c ≤ depth)
    (hother : H.generation c ≤ other) : H.follow depth c = H.follow other c := by
  induction depth generalizing c other with
  | zero =>
    have hroot : H.parents c = [] := by
      rw [List.eq_nil_iff_forall_not_mem]
      intro p hp
      have hold := H.older c p hp
      omega
    cases other <;> simp [follow, hroot]
  | succ depth ih =>
    cases hparents : H.parents c with
    | nil => cases other <;> simp [follow, hparents]
    | cons p rest =>
      have hold := H.older c p (by simp [hparents])
      cases other with
      | zero => omega
      | succ other =>
        have hbelow : H.follow depth p = H.follow other p := ih (by omega) (by omega)
        simp [follow, hparents, hbelow]

/-- A line starts at its node. -/
theorem head?_line (c : κ) : (H.line c).head? = some c := by
  rw [line]
  cases H.generation c <;> rfl

/-- A node's line is the node and then its first parent's line. -/
theorem line_cons {rest : List κ} (h : H.parents c = p :: rest) :
    H.line c = c :: H.line p := by
  have hold := H.older c p (by simp [h])
  have hbelow : H.follow (H.generation c) p = H.line p :=
    follow_eq (Nat.le_of_lt hold) (Nat.le_refl _)
  rw [line, follow_eq (Nat.le_refl _) (Nat.le_succ (H.generation c)), follow, h]
  simp [hbelow]

end Line

end History

end Foundations
