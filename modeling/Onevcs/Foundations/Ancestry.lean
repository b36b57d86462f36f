import Mathlib.Logic.Relation
import Mathlib.Order.WellFoundedSet

/-!
# Ancestry in a finite acyclic graph

Histories as finite graphs whose nodes list their parents and lead back to none of
themselves. `Reaches` goes from a node to its ancestors, itself included, and
`Above` to its proper ancestors.

What the merge-base problem needs of such a graph is that common ancestors have best
ones: every common ancestor of two nodes is reached from one that no other common
ancestor lies above (`Dag.exists_best`).
-/

namespace Foundations

/-- A finite acyclic history. -/
structure Dag (κ : Type*) where
  /-- The nodes. -/
  nodes : Finset κ
  /-- The parents of a node. -/
  parents : κ → List κ
  /-- The parents of a node are nodes. -/
  closed : ∀ c ∈ nodes, ∀ p ∈ parents c, p ∈ nodes
  /-- No node is its own proper ancestor. -/
  acyclic : ∀ c, ¬ Relation.TransGen (fun c p => p ∈ parents c) c c

namespace Dag

variable {κ : Type*} (G : Dag κ)

def Parent (c p : κ) : Prop := p ∈ G.parents c

/-- `p` is reached from `c` by parent edges, `c` itself included. -/
def Reaches (c p : κ) : Prop := Relation.ReflTransGen G.Parent c p

/-- `c` is above `p`: a proper descendant. -/
def Above (c p : κ) : Prop := Relation.TransGen G.Parent c p

/-- `x` is reached from both `a` and `b`. -/
def Common (a b x : κ) : Prop := G.Reaches a x ∧ G.Reaches b x

/-- A common ancestor that no common ancestor is above. -/
def Best (a b x : κ) : Prop := G.Common a b x ∧ ∀ y, G.Common a b y → ¬ G.Above y x

variable {G} {a b c p x y : κ}

theorem Reaches.refl (c : κ) : G.Reaches c c := Relation.ReflTransGen.refl

theorem Reaches.trans (h : G.Reaches a b) (h' : G.Reaches b c) : G.Reaches a c :=
  Relation.ReflTransGen.trans h h'

theorem Reaches.tail (h : G.Reaches a c) (hp : p ∈ G.parents c) : G.Reaches a p :=
  Relation.ReflTransGen.tail h hp

theorem Above.reaches (h : G.Above c p) : G.Reaches c p := Relation.TransGen.to_reflTransGen h

theorem above_of_parent (hp : p ∈ G.parents c) : G.Above c p := Relation.TransGen.single hp

theorem Above.trans (h : G.Above a b) (h' : G.Above b c) : G.Above a c :=
  Relation.TransGen.trans h h'

theorem Above.tail (h : G.Above a c) (hp : p ∈ G.parents c) : G.Above a p :=
  Relation.TransGen.tail h hp

theorem Above.irrefl (c : κ) : ¬ G.Above c c := G.acyclic c

/-- Nothing above a node is reached from it. -/
theorem Above.not_reaches (h : G.Above c p) : ¬ G.Reaches p c :=
  fun hback => G.acyclic p (Relation.TransGen.trans_right hback h)

theorem parent_not_self (c : κ) : c ∉ G.parents c :=
  fun h => Above.irrefl c (above_of_parent h)

theorem Reaches.mem_nodes (h : G.Reaches a c) (ha : a ∈ G.nodes) : c ∈ G.nodes := by
  induction h with
  | refl => exact ha
  | tail _ hp ih => exact G.closed _ ih _ hp

/-- What holds of a node and, from each node it holds of, of the parents that are not excluded, holds
of all that the node reaches and that is not excluded, where the parents of what is excluded are. -/
theorem Reaches.of_closed (holds excluded : κ → Prop) (h : G.Reaches a c)
    (hstart : holds a ∨ excluded a)
    (hclosed : ∀ c, holds c → ∀ p ∈ G.parents c, holds p ∨ excluded p)
    (hdown : ∀ c, excluded c → ∀ p ∈ G.parents c, excluded p) : holds c ∨ excluded c := by
  induction h with
  | refl => exact hstart
  | tail _ hp ih =>
    rcases ih with hholds | hexcluded
    · exact hclosed _ hholds _ hp
    · exact .inr (hdown _ hexcluded _ hp)

/-- Being above is a strict order. -/
instance : IsStrictOrder κ G.Above where
  irrefl c := Above.irrefl c
  trans _ _ _ h h' := Above.trans h h'

/-- Every common ancestor is reached from a best one. -/
theorem exists_best (ha : a ∈ G.nodes) (hy : G.Common a b y) :
    ∃ x, G.Best a b x ∧ G.Reaches x y := by
  classical
  -- among the finitely many common ancestors from which `y` is reached, one has none above
  let candidates : Set κ := Set.ofPred fun x => (x ∈ G.nodes ∧ G.Common a b x ∧ G.Reaches x y)
  have hfinite : candidates.Finite :=
    G.nodes.finite_toSet.subset fun x hx => hx.1
  have hmem : y ∈ candidates := ⟨hy.1.mem_nodes ha, hy, Reaches.refl y⟩
  have hwell : candidates.WellFoundedOn G.Above := hfinite.wellFoundedOn
  obtain ⟨⟨x, hx⟩, -, hmin⟩ :=
    hwell.has_min (Set.univ : Set candidates) ⟨⟨y, hmem⟩, trivial⟩
  refine ⟨x, ⟨hx.2.1, fun z hz habove => ?_⟩, hx.2.2⟩
  have hzmem : z ∈ candidates := ⟨hz.1.mem_nodes ha, hz, habove.reaches.trans hx.2.2⟩
  exact hmin ⟨z, hzmem⟩ trivial habove

/-- Where the best common ancestor is unique, every common ancestor is one of its own. -/
theorem reaches_of_unique_best (ha : a ∈ G.nodes) (hunique : ∀ z, G.Best a b z → z = x)
    (hy : G.Common a b y) : G.Reaches x y := by
  obtain ⟨z, hz, hreach⟩ := exists_best ha hy
  rwa [hunique z hz] at hreach

end Dag

end Foundations
