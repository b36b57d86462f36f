import Mathlib.Algebra.BigOperators.Group.Finset.Basic
import Mathlib.Algebra.Order.BigOperators.Group.Finset
import Onevcs.NativeObjects.PaintInvariant

/-!
# What the walk answers

The walk ends: every push marks a commit with something it did not carry, and a commit
carries three marks that are handed on. When it ends, every commit still queued is
stale, so what lies below nothing common has been painted in full. Both answers are
read off that: `isAncestor` is ancestry, and where `mergeBase` names a commit, every
common ancestor is reached from it.
-/

set_option linter.unusedSectionVars false

namespace Onevcs.NativeObjects

open Foundations

variable {κ : Type*} [DecidableEq κ] {G : Dag κ} {root : Side → κ} {view : View κ}
  {busy : Option κ} {s s' : Walk κ}

/-- The loop has nothing left to do. -/
def Walk.Ended (s : Walk κ) : Prop := s.oldestNonstale = none ∨ popMax s.queue = none

theorem Painted.stale_of_queued (hp : Painted G root none s) (hended : s.Ended) {c : κ}
    (hc : c ∈ s.enqueued) : (s.flags c).stale = true := by
  obtain ⟨e, he, rfl⟩ := (hp.queued.enqueued c).mp hc
  rcases hended with hnone | hempty
  · rcases hp.oldest.last e he with h | ⟨o, _, hold, _⟩
    · exact h
    · exact absurd (hnone.symm.trans hold) (by simp)
  · rw [popMax_none hempty] at he
    exact absurd he (by simp)

theorem Painted.common (hp : Painted G root busy s) {c : κ}
    (hboth : ∀ side, (s.flags c).has side = true) : G.Common (root .one) (root .two) c :=
  ⟨hp.sound .one c (hboth .one), hp.sound .two c (hboth .two)⟩

/-- At the end, what a side reaches below nothing common carries its mark: on the way
there every commit is below nothing common either, so none of them is stale, and each
has handed its marks on. -/
theorem Painted.marked_of_reaches (hp : Painted G root none s) (hended : s.Ended)
    (hroots : ∀ side, (s.flags (root side)).has side = true) {side : Side} {c : κ}
    (hreach : G.Reaches (root side) c)
    (hlow : ∀ d, G.Common (root .one) (root .two) d → ¬ G.Above d c) :
    (s.flags c).has side = true := by
  induction hreach with
  | refl => exact hroots side
  | tail hreach hparent ih =>
    rename_i e c
    have hmarked := ih fun d hd habove => hlow d hd (habove.tail hparent)
    have hfresh : (s.flags e).stale ≠ true := fun hstale =>
      hlow e (hp.common (hp.stale e hstale).1) (Dag.above_of_parent hparent)
    rcases hp.settled e side (by simp) hmarked with hqueued | hsettled
    · exact absurd (hp.stale_of_queued hended hqueued) hfresh
    · refine (Flags.carries_iff.mp (hsettled.handed c hparent)).1 side ?_
      rw [Flags.handed_has]
      exact hmarked

theorem Painted.result_of_best (hp : Painted G root none s) (hended : s.Ended)
    (hroots : ∀ side, (s.flags (root side)).has side = true) {c : κ}
    (hbest : G.Best (root .one) (root .two) c) :
    c ∈ s.results ∧ (s.flags c).stale = false := by
  have hmarked : ∀ side, (s.flags c).has side = true := by
    intro side
    refine hp.marked_of_reaches hended hroots ?_ hbest.2
    cases side with
    | one => exact hbest.1.1
    | two => exact hbest.1.2
  have hfresh : (s.flags c).stale = false := by
    rw [Bool.eq_false_iff]
    intro hstale
    obtain ⟨-, d, hd, habove⟩ := hp.stale c hstale
    exact hbest.2 d hd habove
  refine ⟨?_, hfresh⟩
  rcases hp.settled c .one (by simp) (hmarked .one) with hqueued | hsettled
  · exact absurd (hp.stale_of_queued hended hqueued) (by simp [hfresh])
  · exact hsettled.harvested (Flags.candidate_iff.mpr ⟨hmarked, hfresh⟩)

/-! ## The loop ends -/

/-- How many marks a commit has that are handed on. -/
def Flags.weight (f : Flags) : Nat := f.parent1.toNat + f.parent2.toNat + f.stale.toNat

theorem Flags.weight_le (f : Flags) : f.weight ≤ 3 := by
  have h1 := Bool.toNat_le f.parent1
  have h2 := Bool.toNat_le f.parent2
  have h3 := Bool.toNat_le f.stale
  unfold Flags.weight
  omega

theorem Flags.weight_union_lt {f g : Flags} (hnot : ¬ f.carries g = true)
    (hresult : g.result = false) : f.weight < (f.union g).weight := by
  obtain ⟨f1, f2, f3, f4⟩ := f
  obtain ⟨g1, g2, g3, g4⟩ := g
  revert hnot hresult
  cases f1 <;> cases f2 <;> cases f3 <;> cases g1 <;> cases g2 <;> cases g3 <;> cases g4 <;>
    simp [Flags.carries, Flags.union, Flags.weight]

/-- What the walk can still push, and what it has to pop. -/
def Walk.remaining (G : Dag κ) (s : Walk κ) : Nat :=
  (∑ c ∈ G.nodes, (3 - (s.flags c).weight)) + s.queue.length

theorem Walk.queue_paintOn {c : κ} {t : Int} {m : Flags} :
    (s.paintOn c t m).queue.length ≤ s.queue.length + 1 := by
  unfold Walk.paintOn Walk.push
  split
  · exact Nat.le_succ _
  · exact le_rfl

theorem Walk.remaining_paintOn {c : κ} {t : Int} {m : Flags} (hnode : c ∈ G.nodes)
    (hnot : ¬ (s.flags c).carries m = true) (hresult : m.result = false) :
    (s.paintOn c t m).remaining G ≤ s.remaining G := by
  have hqueue : (s.paintOn c t m).queue.length ≤ s.queue.length + 1 := Walk.queue_paintOn
  have hsum : (∑ d ∈ G.nodes, (3 - ((s.paintOn c t m).flags d).weight)) <
      ∑ d ∈ G.nodes, (3 - (s.flags d).weight) := by
    refine Finset.sum_lt_sum (fun d _ => ?_) ⟨c, hnode, ?_⟩
    · by_cases hd : d = c
      · subst hd
        rw [Walk.paintOn_flags_self]
        have := Flags.weight_union_lt hnot hresult
        omega
      · rw [Walk.paintOn_flags_of_ne hd]
    · rw [Walk.paintOn_flags_self]
      have hlt := Flags.weight_union_lt hnot hresult
      have hle := Flags.weight_le ((s.flags c).union m)
      omega
  unfold Walk.remaining
  omega

theorem Walk.remaining_visitParents {m : Flags} {parents : List κ}
    (hnodes : ∀ p ∈ parents, p ∈ G.nodes) (hresult : m.result = false)
    (hvisit : Walk.visitParents view m s parents = some s') :
    s'.remaining G ≤ s.remaining G := by
  induction parents generalizing s with
  | nil =>
    obtain rfl : s = s' := by simpa [Walk.visitParents] using hvisit
    exact le_rfl
  | cons p rest ih =>
    obtain ⟨s₁, hfirst, hrest⟩ := Option.bind_eq_some_iff.mp hvisit
    refine (ih (fun q hq => hnodes q (.tail _ hq)) hrest).trans ?_
    unfold Walk.visitParent at hfirst
    split at hfirst
    · obtain rfl := Option.some.inj hfirst
      exact le_rfl
    · next hnot =>
      obtain ⟨⟨parsed, s₂⟩, hread, rfl⟩ := Option.map_eq_some_iff.mp hfirst
      obtain ⟨-, reader, rfl⟩ := Walk.read_eq hread
      exact Walk.remaining_paintOn (s := { s with reader := reader })
        (hnodes p List.mem_cons_self) hnot hresult

theorem Walk.remaining_harvest (c : κ) : (s.harvest c).remaining G = s.remaining G := by
  unfold Walk.harvest
  split
  · unfold Walk.remaining
    congr 1
    refine Finset.sum_congr rfl fun d _ => ?_
    by_cases hd : d = c
    · subst hd
      simp [Walk.mark, Flags.weight]
    · simp [Walk.mark, Function.update_of_ne hd]
  · rfl

theorem Walk.remaining_round (hreads : view.Reads G) (hp : Painted G root none s)
    {e : Entry κ} {rest : List (Entry κ)} (hpop : popMax s.queue = some (e, rest))
    (hround : s.round view e rest = some s') : s'.remaining G < s.remaining G := by
  obtain ⟨⟨parsed, s₃⟩, hread, hvisit⟩ := Option.bind_eq_some_iff.mp hround
  obtain ⟨hstored, reader, rfl⟩ := Walk.read_eq hread
  have hparents : ∀ p ∈ parsed.parents, p ∈ G.nodes := by
    rw [hreads.parents _ _ hstored]
    exact G.closed _ (hreads.node _ _ hstored)
  have hlength := (popMax_spec hp.queued.serials hp.queued.nodup hpop).1.length_eq
  have hpopped : (s.popped e rest).remaining G + 1 = s.remaining G := by
    unfold Walk.remaining
    rw [hlength]
    rfl
  have hharvest : ((s.popped e rest).harvest e.id).remaining G = (s.popped e rest).remaining G :=
    Walk.remaining_harvest e.id
  calc s'.remaining G
      ≤ ((s.popped e rest).harvest e.id).remaining G :=
        Walk.remaining_visitParents (s := { (s.popped e rest).harvest e.id with reader := reader })
          hparents (Flags.handed_result _) hvisit
    _ < s.remaining G := by omega

theorem Painted.loop (hreads : view.Reads G) (hp : Painted G root none s)
    (hroots : ∀ side, (s.flags (root side)).has side = true) {fuel : Nat}
    (hfuel : s.remaining G < fuel) :
    s.loop view fuel = .declined ∨
      ∃ final, s.loop view fuel = .answered final ∧ Painted G root none final ∧ final.Ended ∧
        ∀ side, (final.flags (root side)).has side = true := by
  induction fuel generalizing s with
  | zero => omega
  | succ fuel ih =>
    unfold Walk.loop
    by_cases hdone : s.oldestNonstale.isNone
    · simp only [hdone, if_true]
      exact Or.inr ⟨s, rfl, hp, Or.inl (Option.isNone_iff_eq_none.mp hdone), hroots⟩
    · simp only [hdone]
      cases hpop : popMax s.queue with
      | none => exact Or.inr ⟨s, by simp, hp, Or.inr hpop, hroots⟩
      | some answer =>
        obtain ⟨e, rest⟩ := answer
        cases hround : s.round view e rest with
        | none => exact Or.inl (by simp [hround])
        | some next =>
          have hless := Walk.remaining_round hreads hp hpop hround
          obtain ⟨hp', hgrown⟩ := hp.round hreads hpop hround
          have hnext := ih hp'
            (fun side => (Flags.carries_iff.mp (hgrown (root side))).1 side (hroots side))
            (by omega)
          simpa [hround] using hnext

theorem View.start_of_paint {reader : Reader κ} {fuel : Nat} {one two : κ} {answer : Walk κ}
    (h : view.paint fuel reader one two = .answered answer) :
    ∃ s, view.start reader one two = some s := by
  unfold View.paint at h
  cases hstart : view.start reader one two with
  | none => simp [hstart] at h
  | some s => exact ⟨s, rfl⟩

/-- The two commits of a question, by side. -/
def sides (one two : κ) : Side → κ
  | .one => one
  | .two => two

theorem View.paint_cases (hreads : view.Reads G) (reader : Reader κ) {fuel : Nat}
    (hfuel : 3 * G.nodes.card + 3 ≤ fuel) (a b : κ) :
    view.paint fuel reader a b = .declined ∨
      ∃ final, view.paint fuel reader a b = .answered final ∧ Painted G (sides a b) none final ∧
        final.Ended ∧ ∀ side, (final.flags (sides a b side)).has side = true := by
  unfold View.paint
  cases hstart : view.start reader a b with
  | none => exact Or.inl rfl
  | some s =>
    have hset : Painted G (sides a b) none s ∧
        ∀ side, (s.flags (sides a b side)).has side = true := Painted.start hreads hstart
    refine hset.1.loop hreads hset.2 (lt_of_le_of_lt ?_ (Nat.lt_of_succ_le hfuel))
    have hqueue : s.queue.length ≤ 2 := by
      obtain ⟨parsed₁, reader₁, parsed₂, reader₂, -, -, rfl⟩ := View.start_eq hstart
      exact Walk.queue_paintOn.trans (Nat.succ_le_succ Walk.queue_paintOn)
    have hsum : (∑ c ∈ G.nodes, (3 - (s.flags c).weight)) ≤ G.nodes.card * 3 :=
      Finset.sum_le_card_nsmul _ _ 3 fun c _ => Nat.sub_le _ _
    unfold Walk.remaining
    omega

/-- Every commit of the history is stored, and the allowance covers those not yet read. -/
structure View.Affords (view : View κ) (G : Dag κ) (reader : Reader κ) : Prop where
  stored : ∀ c ∈ G.nodes, (view.stored c).isSome = true
  unspent : (G.nodes \ reader.remembered).card ≤ reader.unspent

theorem View.Affords.commit {reader : Reader κ} (ha : view.Affords G reader) {c : κ}
    (hc : c ∈ G.nodes) :
    ∃ parsed reader', view.commit reader c = some (parsed, reader') ∧ view.Affords G reader' := by
  obtain ⟨parsed, hstored⟩ := Option.isSome_iff_exists.mp (ha.stored c hc)
  by_cases hin : c ∈ reader.remembered
  · exact ⟨parsed, reader, by simp [View.commit, hin, hstored], ha⟩
  · have hmem : c ∈ G.nodes \ reader.remembered := Finset.mem_sdiff.mpr ⟨hc, hin⟩
    have hpos := Finset.card_pos.mpr ⟨c, hmem⟩
    have hunspent := ha.unspent
    refine ⟨parsed, ⟨reader.unspent - 1, insert c reader.remembered⟩, ?_, ha.stored, ?_⟩
    · have hne : reader.unspent ≠ 0 := by omega
      simp [View.commit, hin, hne, hstored]
    · have herase : G.nodes \ insert c reader.remembered = (G.nodes \ reader.remembered).erase c := by
        rw [Finset.sdiff_insert]
      simp only [herase, Finset.card_erase_of_mem hmem]
      omega

theorem View.Affords.read (ha : view.Affords G s.reader) {c : κ} (hc : c ∈ G.nodes) :
    ∃ parsed s', s.read view c = some (parsed, s') ∧ view.Affords G s'.reader := by
  obtain ⟨parsed, reader', hcommit, ha'⟩ := ha.commit hc
  exact ⟨parsed, { s with reader := reader' }, by simp [Walk.read, hcommit], ha'⟩

theorem View.Affords.visitParents (ha : view.Affords G s.reader) {m : Flags} {parents : List κ}
    (hnodes : ∀ p ∈ parents, p ∈ G.nodes) :
    ∃ s', Walk.visitParents view m s parents = some s' ∧ view.Affords G s'.reader := by
  induction parents generalizing s with
  | nil => exact ⟨s, rfl, ha⟩
  | cons p rest ih =>
    have hrest := fun q hq => hnodes q (List.mem_cons_of_mem p hq)
    by_cases hcarries : (s.flags p).carries m = true
    · obtain ⟨s', hs', ha'⟩ := ih ha hrest
      exact ⟨s', by simp [Walk.visitParents, Walk.visitParent, hcarries, hs'], ha'⟩
    · obtain ⟨parsed, s₁, hread, ha₁⟩ := ha.read (hnodes p List.mem_cons_self)
      have ha₂ : view.Affords G ((s₁.mark p ((s₁.flags p).union m)).push p parsed.time
          m.stale).reader := by
        rw [Walk.push_reader]
        exact ha₁
      obtain ⟨s', hs', ha'⟩ := ih ha₂ hrest
      exact ⟨s', by simp [Walk.visitParents, Walk.visitParent, hcarries, hread, hs'], ha'⟩

theorem View.Affords.round (hreads : view.Reads G) (ha : view.Affords G s.reader) {e : Entry κ}
    {rest : List (Entry κ)} (hnode : e.id ∈ G.nodes) :
    ∃ s', s.round view e rest = some s' ∧ view.Affords G s'.reader := by
  have hharvest : ((s.popped e rest).harvest e.id).reader = s.reader := by
    unfold Walk.harvest
    split <;> rfl
  obtain ⟨parsed, s₁, hread, ha₁⟩ :=
    View.Affords.read (s := (s.popped e rest).harvest e.id) (hharvest ▸ ha) hnode
  have hparents : parsed.parents = G.parents e.id :=
    hreads.parents _ _ (Walk.read_eq hread).1
  obtain ⟨s', hs', ha'⟩ := ha₁.visitParents (m := ((s.popped e rest).flags e.id).handed)
    (hparents ▸ G.closed _ hnode)
  exact ⟨s', by simp [Walk.round, hread, hs'], ha'⟩

theorem View.Affords.loop (hreads : view.Reads G) (ha : view.Affords G s.reader)
    (hp : Painted G root none s) {fuel : Nat} : s.loop view fuel ≠ .declined := by
  induction fuel generalizing s with
  | zero => simp [Walk.loop]
  | succ fuel ih =>
    unfold Walk.loop
    by_cases hdone : s.oldestNonstale.isNone
    · simp [hdone]
    · simp only [hdone]
      cases hpop : popMax s.queue with
      | none => simp
      | some answer =>
        obtain ⟨e, rest⟩ := answer
        have he : e ∈ s.queue :=
          (popMax_spec hp.queued.serials hp.queued.nodup hpop).1.symm.subset
            List.mem_cons_self
        have hnode : e.id ∈ G.nodes :=
          hp.nodes _ ((hp.queued.enqueued e.id).mpr ⟨e, he, rfl⟩)
        obtain ⟨s', hround, ha'⟩ :
            ∃ s', s.round view e rest = some s' ∧ view.Affords G s'.reader :=
          ha.round hreads hnode
        simpa [hround] using ih ha' (hp.round hreads hpop hround).1

theorem View.Affords.paint (hreads : view.Reads G) {reader : Reader κ} {a b : κ}
    (ha : view.Affords G reader) (hanode : a ∈ G.nodes) (hbnode : b ∈ G.nodes)
    {fuel : Nat} : view.paint fuel reader a b ≠ .declined := by
  obtain ⟨parsed₁, s₁, hread₁, ha₁⟩ :=
    View.Affords.read (s := (Walk.blank reader).mark a .first) ha hanode
  have ha₂ : view.Affords G (s₁.push a parsed₁.time false).reader := by
    rw [Walk.push_reader]
    exact ha₁
  obtain ⟨parsed₂, s₂, hread₂, ha₃⟩ := View.Affords.read
    (s := (s₁.push a parsed₁.time false).mark b
      (((s₁.push a parsed₁.time false).flags b).union .second)) ha₂ hbnode
  have hstart : view.start reader a b =
      some (s₂.push b parsed₂.time false) := by
    simp only [View.start, hread₁, Option.bind_some, hread₂, Option.map_some]
  have ha₄ : view.Affords G (s₂.push b parsed₂.time false).reader := by
    rw [Walk.push_reader]
    exact ha₃
  unfold View.paint
  rw [hstart]
  have hset : Painted G (sides a b) none (s₂.push b parsed₂.time false) :=
    (Painted.start hreads hstart).1
  exact ha₄.loop hreads hset

/-! ## The answers -/

/-- What the walk marks with the descendant's side is exactly what it reaches, at the
ancestor: nothing above the ancestor is reached from it. -/
theorem Painted.ancestor_iff {a b : κ} (hp : Painted G (sides a b) none s) (hended : s.Ended)
    (hroots : ∀ side, (s.flags (sides a b side)).has side = true) :
    (s.flags a).parent2 = true ↔ G.Reaches b a := by
  constructor
  · exact fun h => hp.sound .two a h
  · intro hreach
    have hmarked : (s.flags a).has .two = true :=
      hp.marked_of_reaches hended hroots hreach fun d hd habove => habove.not_reaches hd.1
    exact hmarked

theorem View.isAncestor_iff (hreads : view.Reads G) {reader : Reader κ} {fuel : Nat}
    (hfuel : 3 * G.nodes.card + 3 ≤ fuel) {a b : κ} {answer : Bool}
    (h : view.isAncestor fuel reader a b = .answered answer) :
    answer = true ↔ G.Reaches b a := by
  unfold View.isAncestor at h
  split at h
  · next heq =>
    subst heq
    split at h
    · exact absurd h (by simp)
    · obtain rfl := Outcome.answered.inj h
      exact ⟨fun _ => Dag.Reaches.refl a, fun _ => rfl⟩
  · rcases View.paint_cases hreads reader hfuel a b with hdeclined | hanswered
    · rw [hdeclined] at h
      exact absurd h (by simp)
    · obtain ⟨final, hpaint, hp, hended, hroots⟩ := hanswered
      rw [hpaint] at h
      obtain rfl := Outcome.answered.inj h
      exact hp.ancestor_iff hended hroots

theorem View.mergeBase_common (hreads : view.Reads G) {reader : Reader κ} {fuel : Nat}
    (hfuel : 3 * G.nodes.card + 3 ≤ fuel) {a b x : κ}
    (h : view.mergeBase fuel reader a b = .answered x) :
    G.Common a b x ∧ ∀ y, G.Common a b y → G.Reaches x y := by
  unfold View.mergeBase at h
  split at h
  · next heq =>
    subst heq
    split at h
    · exact absurd h (by simp)
    · obtain rfl := Outcome.answered.inj h
      exact ⟨⟨Dag.Reaches.refl a, Dag.Reaches.refl a⟩, fun y hy => hy.1⟩
  · rcases View.paint_cases hreads reader hfuel a b with hdeclined | hanswered
    · rw [hdeclined] at h
      exact absurd h (by simp)
    · obtain ⟨final, hpaint, hp, hended, hroots⟩ := hanswered
      simp only [hpaint] at h
      split at h
      · next only hresults =>
        obtain rfl := Outcome.answered.inj h
        have hin : only ∈ final.results.filter fun id => !(final.flags id).stale := by
          rw [hresults]
          exact List.mem_singleton_self only
        have hcommon : G.Common a b only :=
          hp.common (hp.reached only (List.mem_filter.mp hin).1)
        refine ⟨hcommon, fun y hy => ?_⟩
        -- the best common ancestor above `y` is an unstale result, so it is this one
        have hnode : a ∈ G.nodes := by
          obtain ⟨_, hstart⟩ := View.start_of_paint hpaint
          obtain ⟨_, _, _, _, hstored, -⟩ := View.start_eq hstart
          exact hreads.node _ _ hstored
        refine Dag.reaches_of_unique_best hnode (fun z hz => ?_) hy
        obtain ⟨hzresult, hzfresh⟩ := hp.result_of_best hended hroots hz
        have hzin : z ∈ final.results.filter fun id => !(final.flags id).stale :=
          List.mem_filter.mpr ⟨hzresult, by simp [hzfresh]⟩
        rw [hresults] at hzin
        exact List.mem_singleton.mp hzin
      · exact absurd h (by simp)

theorem View.answers_finish (hreads : view.Reads G) (reader : Reader κ) {fuel : Nat}
    (hfuel : 3 * G.nodes.card + 3 ≤ fuel) (a b : κ) :
    view.paint fuel reader a b ≠ .unfinished ∧ view.isAncestor fuel reader a b ≠ .unfinished ∧
      view.mergeBase fuel reader a b ≠ .unfinished := by
  have hpaint : view.paint fuel reader a b ≠ .unfinished := by
    rcases View.paint_cases hreads reader hfuel a b with h | ⟨final, h, -⟩
    · simp [h]
    · simp [h]
  refine ⟨hpaint, ?_, ?_⟩
  · unfold View.isAncestor
    split
    · split <;> simp
    · split
      · next h => exact absurd h hpaint
      · simp
      · simp
  · unfold View.mergeBase
    split
    · split <;> simp
    · split
      · next h => exact absurd h hpaint
      · simp
      · split <;> simp

theorem View.isAncestor_answered (hreads : view.Reads G) {reader : Reader κ}
    (ha : view.Affords G reader) {fuel : Nat} (hfuel : 3 * G.nodes.card + 3 ≤ fuel) {a b : κ}
    (hanode : a ∈ G.nodes) (hbnode : b ∈ G.nodes) :
    ∃ answer, view.isAncestor fuel reader a b = .answered answer := by
  unfold View.isAncestor
  split
  · obtain ⟨parsed, reader', hcommit, -⟩ := ha.commit hanode
    exact ⟨true, by simp [hcommit]⟩
  · rcases View.paint_cases hreads reader hfuel a b with h | ⟨final, h, -⟩
    · exact absurd h (ha.paint hreads hanode hbnode)
    · exact ⟨(final.flags a).parent2, by simp [h]⟩

/-- The walk over every finite history, under every assignment of committer times: it
ends, its ancestry answers are ancestry, given whenever the read can afford the
history, and a merge base it names is a common ancestor every other one is reached
from. -/
theorem paint_down_answers (hreads : view.Reads G) (reader : Reader κ) {fuel : Nat}
    (hfuel : 3 * G.nodes.card + 3 ≤ fuel) (a b : κ) :
    (view.paint fuel reader a b ≠ .unfinished ∧ view.isAncestor fuel reader a b ≠ .unfinished ∧
      view.mergeBase fuel reader a b ≠ .unfinished) ∧
    (view.isAncestor fuel reader a b = .answered true → G.Reaches b a) ∧
    (view.isAncestor fuel reader a b = .answered false → ¬ G.Reaches b a) ∧
    (view.Affords G reader → a ∈ G.nodes → b ∈ G.nodes →
      (view.isAncestor fuel reader a b = .answered true ↔ G.Reaches b a)) ∧
    (∀ x, view.mergeBase fuel reader a b = .answered x →
      G.Common a b x ∧ ∀ y, G.Common a b y → G.Reaches x y) := by
  have hiff := fun answer (h : view.isAncestor fuel reader a b = .answered answer) =>
    View.isAncestor_iff hreads hfuel h
  refine ⟨View.answers_finish hreads reader hfuel a b, fun h => (hiff true h).mp rfl,
    fun h hreach => ?_, fun ha hanode hbnode => ⟨fun h => (hiff true h).mp rfl, fun hreach => ?_⟩,
    fun x h => View.mergeBase_common hreads hfuel h⟩
  · exact Bool.noConfusion ((hiff false h).mpr hreach)
  · obtain ⟨answer, h⟩ := View.isAncestor_answered hreads ha hfuel hanode hbnode
    rw [h, (hiff answer h).mpr hreach]

def skewedParents : Nat → List Nat
  | 1 => [0]
  | 2 => [0]
  | 3 => [1]
  | _ => []

theorem skewedParents_lt {c p : Nat} (h : p ∈ skewedParents c) : p < c := by
  unfold skewedParents at h
  split at h <;> simp_all

/-- The history of those lines; the committer times run backwards along one of them. -/
def skewed : Dag Nat where
  nodes := {0, 1, 2, 3}
  parents := skewedParents
  closed := by decide
  acyclic := by
    have hdown : ∀ c d, Relation.TransGen (fun c p => p ∈ skewedParents c) c d → d < c := by
      intro c d hd
      induction hd with
      | single h => exact skewedParents_lt h
      | tail _ h ih => exact (skewedParents_lt h).trans ih
    exact fun c hcycle => Nat.lt_irrefl c (hdown c c hcycle)

/-- The skewed history as a view stores it. -/
def skewedView : View Nat where
  stored
    | 0 => some ⟨[], 50⟩
    | 1 => some ⟨[0], 10⟩
    | 2 => some ⟨[0], 99⟩
    | 3 => some ⟨[1], 5⟩
    | _ => none

theorem skewedView_reads : skewedView.Reads skewed where
  node c parsed h := by
    unfold skewedView at h
    simp only at h
    split at h <;> simp_all [skewed]
  parents c parsed h := by
    unfold skewedView at h
    simp only at h
    split at h <;> simp_all [skewed, skewedParents]
    all_goals rw [← h]

theorem paint_down_answers_skewed :
    (skewedView.isAncestor 15 ⟨4, ∅⟩ 0 3 = .answered true ↔ skewed.Reaches 3 0) ∧
      skewed.Common 3 2 0 := by
  have hanswers := paint_down_answers skewedView_reads ⟨4, ∅⟩
    (show 3 * skewed.nodes.card + 3 ≤ 15 by decide)
  refine ⟨(hanswers 0 3).2.2.2.1 ⟨by decide, by decide⟩ (by decide) (by decide), ?_⟩
  exact ((hanswers 3 2).2.2.2.2 0 (by decide)).1

end Onevcs.NativeObjects
