import Onevcs.Sweep.Family

/-!
# What a sweep and its landings have established

What the pass establishes of the run root in hand stands while it holds the lease alone, and
what it read of its owner before that stands because a landing takes nothing away of it. Those
found to hold work are held until the family has been judged, so that what was read of them
stands when the newest are kept and the others removed.
-/

set_option linter.unusedSectionVars false

namespace Onevcs.Sweep

open Foundations (History Flock Mode)
open Retire (Clone)

section Statements

variable {κ : Type} [DecidableEq κ] (H : History κ)

/-- The run root holds work that was decided not to have landed in full. -/
def Held.HoldsWork (held : Held κ) : Prop :=
  ∃ clone, held.content.clone = some clone ∧ ∃ branch tip, (branch, tip) ∈ clone.heads ∧
    ¬ H.Reached clone.originTips tip ∧ held.work.decided branch = some false

/-- Every branch that holds commits no origin ref has is decided landed in full. -/
def Landed (clone : Clone κ) (work : Work κ) : Prop :=
  ∀ branch tip, Unpublished H clone branch tip → work.decided branch = some true

/-- Newer run roots of the family, as many as are kept, each of which holds work. -/
structure Outnumbered (root : RunRoot) (content : Content κ) (newer : List (Held κ)) : Prop where
  many : retainedUnpublished ≤ newer.length
  nodup : (newer.map Held.root).Nodup
  family : ∀ held ∈ newer, held.root.verb = root.verb
  later : ∀ held ∈ newer, content.tree.newest < held.content.tree.newest
  holds : ∀ held ∈ newer, held.HoldsWork H

/-- The run root is one this crate cut and judged, every question about its work was
answered, and none is left or newer ones that hold work were kept. -/
structure Disposable (root : RunRoot) (content : Content κ) (proof : Proof κ) : Prop where
  shape : shaped root content = true
  verdict : hasRecordedVerdict content.logs = true
  work : ∃ clone work, content.clone = some clone ∧ proof.work = some work ∧
    (unpublishedWork H clone work).isSome ∧
      (Landed H clone work ∨ Outnumbered H root content proof.newer)

/-- What a removal may be decided on: nothing was written within the floor, by a walk that met
no failure, every directory is shown to be this user's to empty, and the run root was released
or holds nothing that is kept. -/
structure Justifies (floor now : Nat) (root : RunRoot) (content : Content κ) (proof : Proof κ) :
    Prop where
  old : floor ≤ now - content.tree.newest
  walked : proof.faults = []
  shown : Shown proof.asked [] content.tree
  disposable : content.mark = true ∨ Disposable H root content proof

/-- The run root was held alone, and what was there justified the removal. -/
structure Removal.Proven (floor : Nat) (removal : Removal κ) : Prop where
  exclusive : removal.exclusive = true
  justified : Justifies H floor removal.now removal.root removal.content removal.proof

/-- Every branch of the clone that holds commits no origin ref has landed in full, or the
checkout reaches it. -/
def Preserved (content : Content κ) (work : Work κ) (checkout : Checkout κ) : Prop :=
  ∀ clone ∈ content.clone, ∀ branch tip, Unpublished H clone branch tip →
    work.decided branch = some true ∨ H.Reached checkout.refs tip

def Marking.Preserved (marking : Marking κ) : Prop :=
  Sweep.Preserved H marking.content marking.work marking.checkout

end Statements

section Established

variable {κ π : Type} [DecidableEq κ] [DecidableEq π] (H : History κ)

/-- Whose the run root is: it was released, or it has the shape of one. -/
def Owned (root : RunRoot) (released : Bool) (content : Content κ) : Prop :=
  content.mark = true ∨ (released = false ∧ shaped root content = true)

/-- It was released, or it has the shape of one and a verdict. -/
def Judged (root : RunRoot) (released : Bool) (content : Content κ) : Prop :=
  content.mark = true ∨ (released = false ∧ shaped root content = true ∧
    hasRecordedVerdict content.logs = true)

/-- Nothing under it was written within the floor. -/
structure Aged (floor now : Nat) (content : Content κ) (written : Nat) (faults : Faults) :
    Prop where
  walked : faults = []
  newest : written = content.tree.newest
  old : floor ≤ now - content.tree.newest

/-- How far the run root in hand has been proven dead. -/
def Stage.Stands (floor now : Nat) (root : RunRoot) (released : Bool) (content : Content κ) :
    Stage → Prop
  | .taken => Owned root released content
  | .judged => Judged root released content
  | .walked written faults =>
    Judged root released content ∧ (faults = [] → written = content.tree.newest)
  | .aged written faults =>
    Judged root released content ∧ Aged floor now content written faults
  | .emptiable written faults asked =>
    Judged root released content ∧ Aged floor now content written faults ∧
      Shown asked [] content.tree

/-- What was found of a run root that holds work. -/
structure Held.Found (floor now : Nat) (held : Held κ) : Prop where
  judged : Judged held.root false held.content
  aged : Aged floor now held.content held.written held.faults
  shown : Shown held.asked [] held.content.tree
  work : ∃ clone, held.content.clone = some clone ∧
    unpublishedWork H clone held.work = some held.branches
  some : held.branches ≠ []

namespace World

/-- The pass holds the run root alone. -/
def Alone (s : World κ π) (root : RunRoot) : Prop := (s.leases root).Holds .sweep .exclusive

/-- The pass holds a run root that was found to hold work, and what was found is there. -/
structure Holds (floor : Nat) (s : World κ π) (held : Held κ) : Prop where
  alone : s.Alone held.root
  there : s.roots held.root = some held.content
  found : held.Found H floor s.clock

structure Walks (floor : Nat) (s : World κ π) (walk : Walk κ) : Prop where
  holds : ∀ held ∈ walk.holding ++ walk.keep ++ walk.doomed, s.Holds H floor held
  kept : ∀ held ∈ walk.front, held.Found H floor s.clock
  reported : (walk.front.map fun held => (held.root, Kept.holdsUnpublishedWork)).Sublist s.retained
  unsorted : walk.sorted = false → walk.keep = [] ∧ walk.doomed = [] ∧ walk.front = []
  order : ∀ kept ∈ walk.front ++ walk.keep, ∀ held ∈ walk.doomed, held.written < kept.written
  count : walk.doomed ≠ [] → retainedUnpublished ≤ (walk.front ++ walk.keep).length
  family : ∀ held ∈ walk.holding ++ walk.front ++ walk.keep ++ walk.doomed,
    held.root.verb = walk.verb
  listed : ∀ root ∈ walk.rest, root.verb = walk.verb

/-- The removal in hand is justified, and the newer run roots it rests on were kept. -/
structure Condemns (floor : Nat) (s : World κ π) (root : RunRoot) (proof : Proof κ) : Prop where
  alone : s.Alone root
  justified : ∃ content, s.roots root = some content ∧
    Justifies H floor s.clock root content proof
  reported : ∀ held ∈ proof.newer, (held.root, Kept.holdsUnpublishedWork) ∈ s.retained

/-- What the pass has established where it stands. -/
def Stands (floor : Nat) (s : World κ π) : Phase κ → Prop
  | .walking walk => s.Walks H floor walk
  | .looked walk root released =>
    s.Walks H floor walk ∧ root.verb = walk.verb ∧
      ∃ content, s.roots root = some content ∧ Owned root released content
  | .proving walk root released stage =>
    s.Walks H floor walk ∧ root.verb = walk.verb ∧ s.Alone root ∧
      ∃ content, s.roots root = some content ∧
        stage.Stands floor s.clock root released content
  | .reclaiming walk root proof | .removing walk root proof =>
    s.Walks H floor walk ∧ root.verb = walk.verb ∧ s.Condemns H floor root proof
  | .removed walk root => s.Walks H floor walk ∧ root ∉ walk.held
  | .done => True

/-- A landing holds the lease of the run root it stands in. -/
def Lands (s : World κ π) (p : π) : Landing κ → Prop
  | .idle | .cut _ | .ending _ => True
  | .inside root => (s.leases root).Holds (.landing p) .shared
  | .alone root | .emptiable root => (s.leases root).Holds (.landing p) .exclusive
  | .proved root work checkout | .stopped root work checkout =>
    (s.leases root).Holds (.landing p) .exclusive ∧
      ∃ content, s.roots root = some content ∧ Preserved H content work checkout
  | .clearing root =>
    (s.leases root).Holds (.landing p) .exclusive ∧
      ∃ content, s.roots root = some content ∧ content.mark = true

end World

/-- The run roots a pass still has to decide. -/
def Walk.pending (walk : Walk κ) : List RunRoot := walk.rest ++ walk.held

def Phase.pending : Phase κ → List RunRoot
  | .walking walk | .removed walk _ => walk.pending
  | .looked walk root _ | .proving walk root _ _ | .reclaiming walk root _
  | .removing walk root _ => root :: walk.pending
  | .done => []

/-- The families a pass still has to list. -/
def Phase.families : Phase κ → List Verb
  | .walking walk | .removed walk _ | .looked walk _ _ | .proving walk _ _ _
  | .reclaiming walk _ _ | .removing walk _ _ => walk.families
  | .done => []

namespace World

/-- The run roots that were kept or removed. -/
def settled (s : World κ π) : List RunRoot :=
  s.retained.map Prod.fst ++ s.removals.map Removal.root

/-- Every run root is decided once. -/
structure Distinct (s : World κ π) : Prop where
  nodup : (s.sweep.pending ++ s.settled).Nodup
  listed : ∀ root ∈ s.sweep.pending ++ s.settled, root.verb ∉ s.sweep.families
  families : s.sweep.families.Nodup

/-- What the pass and the landings have established, and what was logged. -/
structure Invariant (floor : Nat) (s : World κ π) : Prop where
  stands : s.Stands H floor s.sweep
  lands : ∀ p, s.Lands H p (s.landing p)
  distinct : s.Distinct
  proven : ∀ removal ∈ s.removals, removal.Proven H floor
  reported : ∀ removal ∈ s.removals, ∀ held ∈ removal.proof.newer,
    (held.root, Kept.holdsUnpublishedWork) ∈ s.retained
  preserved : ∀ marking ∈ s.markings, marking.Preserved H

end World

end Established

section Frames

variable {κ π : Type} [DecidableEq κ] [DecidableEq π] {H : History κ} {floor now now' : Nat}

theorem Aged.later {content : Content κ} {written : Nat} {faults : Faults}
    (h : Aged floor now content written faults) (hnow : now ≤ now') :
    Aged floor now' content written faults :=
  ⟨h.walked, h.newest, Nat.le_trans h.old (Nat.sub_le_sub_right hnow _)⟩

theorem Stage.Stands.later {stage : Stage} {root : RunRoot} {released : Bool}
    {content : Content κ} (h : stage.Stands floor now root released content)
    (hnow : now ≤ now') : stage.Stands floor now' root released content := by
  cases stage with
  | taken => exact h
  | judged => exact h
  | walked written faults => exact h
  | aged written faults => exact ⟨h.1, h.2.later hnow⟩
  | emptiable written faults asked => exact ⟨h.1, h.2.1.later hnow, h.2.2⟩

theorem Held.Found.later {held : Held κ} (h : held.Found H floor now) (hnow : now ≤ now') :
    held.Found H floor now' :=
  ⟨h.judged, h.aged.later hnow, h.shown, h.work, h.some⟩

theorem Justifies.later {root : RunRoot} {content : Content κ} {proof : Proof κ}
    (h : Justifies H floor now root content proof) (hnow : now ≤ now') :
    Justifies H floor now' root content proof :=
  ⟨Nat.le_trans h.old (Nat.sub_le_sub_right hnow _), h.walked, h.shown, h.disposable⟩

namespace World

variable {s s' : World κ π} {p : π} {phase : Phase κ} {walk : Walk κ} {root : RunRoot}

/-- What the pass holds alone is as it was, time goes on, and nothing more was reported than
is added. -/
structure Leaves (s s' : World κ π) : Prop where
  clock : s.clock ≤ s'.clock
  retained : s.retained.Sublist s'.retained
  alone : ∀ root, s.Alone root → s'.Alone root
  there : ∀ root, s.Alone root → ∀ content, s.roots root = some content →
    s'.roots root = some content

/-- As much of some run roots. -/
structure LeavesAt (s s' : World κ π) (roots : List RunRoot) : Prop where
  clock : s.clock ≤ s'.clock
  retained : s.retained.Sublist s'.retained
  alone : ∀ root ∈ roots, s.Alone root → s'.Alone root
  there : ∀ root ∈ roots, s'.roots root = s.roots root

theorem mem_held {held : Held κ} (h : held ∈ walk.holding ++ walk.keep ++ walk.doomed) :
    held.root ∈ walk.held := List.mem_map.mpr ⟨held, h, rfl⟩

theorem Walks.of_leavesAt (h : s.Walks H floor walk) (hleaves : s.LeavesAt s' walk.held) :
    s'.Walks H floor walk where
  holds held hheld := by
    have hholds := h.holds held hheld
    have hroot := mem_held hheld
    exact ⟨hleaves.alone _ hroot hholds.alone, (hleaves.there _ hroot).trans hholds.there,
      hholds.found.later hleaves.clock⟩
  kept held hheld := (h.kept held hheld).later hleaves.clock
  reported := h.reported.trans hleaves.retained
  unsorted := h.unsorted
  order := h.order
  count := h.count
  family := h.family
  listed := h.listed

theorem Walks.of_leaves (h : s.Walks H floor walk) (hleaves : s.Leaves s') :
    s'.Walks H floor walk where
  holds held hheld := by
    have hholds := h.holds held hheld
    exact ⟨hleaves.alone _ hholds.alone, hleaves.there _ hholds.alone _ hholds.there,
      hholds.found.later hleaves.clock⟩
  kept held hheld := (h.kept held hheld).later hleaves.clock
  reported := h.reported.trans hleaves.retained
  unsorted := h.unsorted
  order := h.order
  count := h.count
  family := h.family
  listed := h.listed

theorem Condemns.of_leaves {proof : Proof κ} (h : s.Condemns H floor root proof)
    (hleaves : s.Leaves s') : s'.Condemns H floor root proof where
  alone := hleaves.alone _ h.alone
  justified := by
    obtain ⟨content, hcontent, hjustified⟩ := h.justified
    exact ⟨content, hleaves.there _ h.alone _ hcontent, hjustified.later hleaves.clock⟩
  reported held hheld := hleaves.retained.subset (h.reported held hheld)

/-- The pass has read the shape of a run root, and not taken its lease yet. -/
def Watches (s : World κ π) (root : RunRoot) : Prop :=
  ∃ walk, s.sweep = .looked walk root false

/-- A landing leaves the mark of every run root, and takes nothing away of a shape that the
pass has read. -/
structure Spares (s s' : World κ π) : Prop where
  leaves : s.Leaves s'
  owned : ∀ root content, s.roots root = some content → ∃ content', s'.roots root = some content' ∧
    (content.mark = true → content'.mark = true) ∧
    (s.Watches root → shaped root content = true →
      content'.mark = true ∨ shaped root content' = true)

/-- What the pass has established stands through what spares it. -/
theorem Stands.of_spares (h : s.Stands H floor s.sweep) (hspares : s.Spares s') :
    s'.Stands H floor s.sweep := by
  have hleaves := hspares.leaves
  cases hphase : s.sweep with
  | walking walk =>
    rw [hphase] at h
    exact h.of_leaves hleaves
  | looked walk root released =>
    rw [hphase] at h
    obtain ⟨hwalks, hverb, content, hcontent, howned⟩ := h
    obtain ⟨content', hcontent', hmark, hshape⟩ := hspares.owned root content hcontent
    refine ⟨hwalks.of_leaves hleaves, hverb, content', hcontent', ?_⟩
    rcases howned with hmarked | ⟨rfl, hshaped⟩
    · exact .inl (hmark hmarked)
    · rcases hshape ⟨walk, hphase⟩ hshaped with hmarked | hkept
      · exact .inl hmarked
      · exact .inr ⟨rfl, hkept⟩
  | proving walk root released stage =>
    rw [hphase] at h
    obtain ⟨hwalks, hverb, halone, content, hcontent, hstage⟩ := h
    exact ⟨hwalks.of_leaves hleaves, hverb, hleaves.alone _ halone, content,
      hleaves.there _ halone _ hcontent, hstage.later hleaves.clock⟩
  | reclaiming walk root proof =>
    rw [hphase] at h
    exact ⟨h.1.of_leaves hleaves, h.2.1, h.2.2.of_leaves hleaves⟩
  | removing walk root proof =>
    rw [hphase] at h
    exact ⟨h.1.of_leaves hleaves, h.2.1, h.2.2.of_leaves hleaves⟩
  | removed walk root =>
    rw [hphase] at h
    exact ⟨h.1.of_leaves hleaves, h.2⟩
  | done => trivial

/-! ### Landings -/

theorem not_alone_of_holds {mode : Mode} (h : (s.leases root).Holds (.landing p) mode) :
    ¬ s.Alone root := by
  intro halone
  exact nomatch (Flock.exclusive_alone halone h).1

theorem Spares.land (landing : Landing κ) : s.Spares (s.land p landing) :=
  ⟨⟨Nat.le_refl _, List.Sublist.refl _, fun _ => id, fun _ _ _ => id⟩,
    fun _ content hcontent => ⟨content, hcontent, id, fun _ hshape => .inr hshape⟩⟩

theorem Spares.take {mode : Mode} {lease : Flock (Holder π)} {landing : Landing κ}
    (h : (s.leases root).take (.landing p) mode = some lease) :
    s.Spares { s.land p landing with leases := Function.update s.leases root lease } :=
  ⟨⟨Nat.le_refl _, List.Sublist.refl _, fun _ halone => Flock.holds_update_take h halone,
      fun _ _ _ => id⟩,
    fun _ content hcontent => ⟨content, hcontent, id, fun _ hshape => .inr hshape⟩⟩

theorem Spares.drop (landing : Landing κ) :
    s.Spares ((s.drop (.landing p) root).land p landing) := by
  refine ⟨⟨Nat.le_refl _, List.Sublist.refl _, fun other halone => ?_, fun _ _ _ => id⟩,
    fun _ content hcontent => ⟨content, hcontent, id, fun _ hshape => .inr hshape⟩⟩
  exact Flock.holds_update_drop.mpr ⟨halone, fun hboth => nomatch hboth.2⟩

/-- A landing that changes a run root it leases, and leaves its mark and what was read of its
shape. -/
theorem Spares.put {old content : Content κ} (hfree : ¬ s.Alone root)
    (hold : s.roots root = some old) (hmark : old.mark = true → content.mark = true)
    (hshape : s.Watches root → shaped root old = true →
      content.mark = true ∨ shaped root content = true) :
    s.Spares (s.put root (some content)) := by
  refine ⟨⟨Nat.le_refl _, List.Sublist.refl _, fun _ => id, fun other halone found hfound => ?_⟩,
    fun other found hfound => ?_⟩
  · have hne : other ≠ root := by
      rintro rfl
      exact hfree halone
    exact (Function.update_of_ne hne ..).trans hfound
  · by_cases hother : other = root
    · subst hother
      obtain rfl := Option.some.inj (hold.symm.trans hfound)
      exact ⟨content, Function.update_self .., hmark, hshape⟩
    · exact ⟨found, (Function.update_of_ne hother ..).trans hfound, id, fun _ hkept => .inr hkept⟩

theorem Spares.cut {content : Content κ} (hnone : s.roots root = none) :
    s.Spares (s.put root (some content)) := by
  have hother : ∀ other found, s.roots other = some found →
      (s.put root (some content)).roots other = some found := by
    intro other found hfound
    have hne : other ≠ root := by
      rintro rfl
      cases hnone.symm.trans hfound
    exact (Function.update_of_ne hne ..).trans hfound
  exact ⟨⟨Nat.le_refl _, List.Sublist.refl _, fun _ => id, fun other _ => hother other⟩,
    fun other found hfound => ⟨found, hother other found hfound, id, fun _ hkept => .inr hkept⟩⟩

/-- What one landing does to a lease or a run root leaves what another one holds. -/
structure Aside (s s' : World κ π) (q : π) : Prop where
  landing : s'.landing q = s.landing q
  leases : ∀ root mode, (s.leases root).Holds (.landing q) mode →
    (s'.leases root).Holds (.landing q) mode
  roots : ∀ root, (s.leases root).Holds (.landing q) .exclusive → ∀ content,
    s.roots root = some content → s'.roots root = some content

theorem Lands.of_aside {q : π} (h : s.Lands H q (s.landing q)) (haside : s.Aside s' q) :
    s'.Lands H q (s'.landing q) := by
  rw [haside.landing]
  cases hphase : s.landing q with
  | idle => trivial
  | cut root => trivial
  | ending root => trivial
  | inside root =>
    rw [hphase] at h
    exact haside.leases _ _ h
  | alone root =>
    rw [hphase] at h
    exact haside.leases _ _ h
  | emptiable root =>
    rw [hphase] at h
    exact haside.leases _ _ h
  | proved root work checkout =>
    rw [hphase] at h
    obtain ⟨hheld, content, hcontent, hpreserved⟩ := h
    exact ⟨haside.leases _ _ hheld, content, haside.roots _ hheld _ hcontent, hpreserved⟩
  | stopped root work checkout =>
    rw [hphase] at h
    obtain ⟨hheld, content, hcontent, hpreserved⟩ := h
    exact ⟨haside.leases _ _ hheld, content, haside.roots _ hheld _ hcontent, hpreserved⟩
  | clearing root =>
    rw [hphase] at h
    obtain ⟨hheld, content, hcontent, hmark⟩ := h
    exact ⟨haside.leases _ _ hheld, content, haside.roots _ hheld _ hcontent, hmark⟩

theorem Aside.land {q : π} (hne : q ≠ p) (landing : Landing κ) :
    s.Aside (s.land p landing) q :=
  ⟨Function.update_of_ne hne .., fun _ _ => id, fun _ _ _ => id⟩

theorem Aside.take {q : π} (hne : q ≠ p) {mode : Mode} {lease : Flock (Holder π)}
    {landing : Landing κ} (h : (s.leases root).take (.landing p) mode = some lease) :
    s.Aside { s.land p landing with leases := Function.update s.leases root lease } q :=
  ⟨Function.update_of_ne hne .., fun _ _ hheld => Flock.holds_update_take h hheld,
    fun _ _ _ => id⟩

theorem Aside.drop {q : π} (hne : q ≠ p) (landing : Landing κ) :
    s.Aside ((s.drop (.landing p) root).land p landing) q := by
  refine ⟨Function.update_of_ne hne .., fun other mode hheld => ?_, fun _ _ _ => id⟩
  refine Flock.holds_update_drop.mpr ⟨hheld, fun hboth => hne ?_⟩
  exact Holder.landing.inj hboth.2

theorem Aside.put {q : π} (hne : q ≠ p) {content : Content κ} {mode : Mode}
    (hheld : (s.leases root).Holds (.landing p) mode) :
    s.Aside (s.put root (some content)) q := by
  refine ⟨rfl, fun _ _ => id, fun other hother found hfound => ?_⟩
  have hroot : other ≠ root := by
    rintro rfl
    exact hne (Holder.landing.inj (Flock.exclusive_alone hother hheld).1.symm)
  exact (Function.update_of_ne hroot ..).trans hfound

theorem Aside.cut {q : π} {content : Content κ} (hnone : s.roots root = none) :
    s.Aside (s.put root (some content)) q := by
  refine ⟨rfl, fun _ _ => id, fun other _ found hfound => ?_⟩
  have hroot : other ≠ root := by
    rintro rfl
    cases hnone.symm.trans hfound
  exact (Function.update_of_ne hroot ..).trans hfound

theorem Aside.trans {s'' : World κ π} {q : π} (h : s.Aside s' q) (h' : s'.Aside s'' q) :
    s.Aside s'' q :=
  ⟨h'.landing.trans h.landing, fun root mode hheld => h'.leases root mode (h.leases root mode hheld),
    fun root hheld content hcontent => h'.roots root (h.leases root _ hheld) content
      (h.roots root hheld content hcontent)⟩

theorem Spares.trans_land (h : s.Spares s') (landing : Landing κ) :
    s.Spares (s'.land p landing) :=
  ⟨⟨h.leaves.clock, h.leaves.retained, h.leaves.alone, h.leaves.there⟩, h.owned⟩

/-- What a step of one landing does. -/
structure Stepped (H : History κ) (p : π) (s s' : World κ π) : Prop where
  spares : s.Spares s'
  sweep : s'.sweep = s.sweep
  retained : s'.retained = s.retained
  removals : s'.removals = s.removals
  aside : ∀ q, q ≠ p → s.Aside s' q
  lands : s'.Lands H p (s'.landing p)
  markings : ∀ marking ∈ s'.markings, marking ∈ s.markings ∨ marking.Preserved H

theorem lands_land {landing : Landing κ} (h : s.Lands H p landing) :
    (s.land p landing).Lands H p ((s.land p landing).landing p) := by
  have hself : (s.land p landing).landing p = landing := Function.update_self ..
  rw [hself]
  cases landing <;> exact h

theorem Stepped.land {landing : Landing κ} (h : s.Lands H p landing) :
    Stepped H p s (s.land p landing) where
  spares := .land landing
  sweep := rfl
  retained := rfl
  removals := rfl
  aside _ hne := .land hne landing
  lands := lands_land h
  markings _ hmem := .inl hmem

theorem Stepped.drop {landing : Landing κ} (h : s.Lands H p landing)
    (hfree : landing = .idle ∨ landing = .ending root) :
    Stepped H p s ((s.drop (.landing p) root).land p landing) where
  spares := .drop landing
  sweep := rfl
  retained := rfl
  removals := rfl
  aside _ hne := .drop hne landing
  lands := by
    apply lands_land
    rcases hfree with rfl | rfl <;> trivial
  markings _ hmem := .inl hmem

theorem Stepped.take {mode : Mode} {lease : Flock (Holder π)} {landing : Landing κ}
    (h : (s.leases root).take (.landing p) mode = some lease)
    (hlanding : landing = .inside root ∧ mode = .shared ∨ landing = .alone root ∧ mode = .exclusive) :
    Stepped H p s { s.land p landing with leases := Function.update s.leases root lease } where
  spares := .take h
  sweep := rfl
  retained := rfl
  removals := rfl
  aside _ hne := .take hne h
  lands := by
    have hself : Function.update s.landing p landing p = landing := Function.update_self ..
    have hheld : (Function.update s.leases root lease root).Holds (.landing p) mode := by
      rw [Function.update_self]
      exact Flock.take_holds h
    simp only [World.land, hself]
    rcases hlanding with ⟨rfl, rfl⟩ | ⟨rfl, rfl⟩ <;> exact hheld
  markings _ hmem := .inl hmem

theorem Stepped.put {old content : Content κ} {mode : Mode}
    (hheld : (s.leases root).Holds (.landing p) mode) (hold : s.roots root = some old)
    (hmark : old.mark = true → content.mark = true)
    (hshape : s.Watches root → shaped root old = true →
      content.mark = true ∨ shaped root content = true)
    (hlands : (s.put root (some content)).Lands H p (s.landing p)) :
    Stepped H p s (s.put root (some content)) where
  spares := .put (not_alone_of_holds hheld) hold hmark hshape
  sweep := rfl
  retained := rfl
  removals := rfl
  aside _ hne := .put hne hheld
  lands := hlands
  markings _ hmem := .inl hmem

theorem preserved_of_unpreserved {content : Content κ} {clone : Clone κ} {work : Work κ}
    {checkout : Checkout κ} (hclone : content.clone = some clone)
    (h : unpreserved H clone work checkout = some []) (hcounts : work.counts clone = true) :
    Preserved H content work checkout := by
  intro other hother branch tip hholds
  obtain rfl := Option.some.inj (hclone.symm.trans hother)
  obtain ⟨branches, hbranches, hnone⟩ := Option.map_eq_some_iff.mp h
  rcases unpublishedWork_decided hbranches hcounts hholds with hreported | hlanded
  · have hpreserves : checkout.preserves H clone branch = true := by
      have hall := List.filter_eq_nil_iff.mp hnone branch hreported
      simpa using hall
    exact .inr (reached_of_preserves hpreserves hholds.1)
  · exact .inl hlanded

theorem stepped_mark {content : Content κ} {work : Work κ} {checkout : Checkout κ} {tree : Tree}
    (hheld : (s.leases root).Holds (.landing p) .exclusive)
    (hcontent : s.roots root = some content) (hpreserved : Preserved H content work checkout) :
    Stepped H p s { (s.put root (some { content with mark := true, tree := tree })).land p
        (.clearing root) with
      markings := s.markings ++ [⟨root, content, work, checkout⟩] } where
  spares := by
    have hspares : s.Spares (s.put root (some { content with mark := true, tree := tree })) :=
      .put (not_alone_of_holds hheld) hcontent (fun _ => rfl) fun _ _ => .inl rfl
    exact ⟨⟨hspares.leaves.clock, hspares.leaves.retained, hspares.leaves.alone,
      hspares.leaves.there⟩, hspares.owned⟩
  sweep := rfl
  retained := rfl
  removals := rfl
  aside q hne := by
    have hput : s.Aside (s.put root (some { content with mark := true, tree := tree })) q :=
      .put hne hheld
    have haside := hput.trans (.land hne (.clearing root))
    exact ⟨haside.landing, haside.leases, haside.roots⟩
  lands := by
    have hself : Function.update s.landing p (Landing.clearing root) p = .clearing root :=
      Function.update_self ..
    simp only [World.land, World.put, hself]
    exact ⟨hheld, { content with mark := true, tree := tree }, Function.update_self .., rfl⟩
  markings marking hmem := by
    rcases List.mem_append.mp hmem with hbefore | hnew
    · exact .inl hbefore
    · obtain rfl := List.mem_singleton.mp hnew
      exact .inr hpreserved

/-- A landing only takes away of what it holds alone, and only once nothing there is left
that is kept nowhere else. -/
theorem stepped_of_landingStep {pass : Pass} {act : LandingAct κ}
    (hlands : s.Lands H p (s.landing p)) (hok : s.careful pass (.landing p act) = true)
    (h : s.landingStep H p act = some s') : Stepped H p s s' := by
  unfold landingStep at h
  split at h
  -- a run root is cut
  · next root hphase =>
    split at h
    · cases h
    · next hnone =>
      obtain rfl := Option.some.inj h
      exact ⟨(Spares.cut hnone).trans_land _, rfl, rfl, rfl,
        fun q hne => (Aside.cut hnone).trans (.land hne _), lands_land trivial,
        fun marking hmem => .inl hmem⟩
  · next root hphase =>
    split at h
    · obtain rfl := Option.some.inj h
      exact .land trivial
    · next lease hlease =>
      obtain rfl := Option.some.inj h
      exact .take hlease (.inl ⟨rfl, rfl⟩)
  · next root content hphase =>
    rw [hphase] at hlands
    split at h
    · cases h
    · next old hold =>
      split at h
      · next hmark =>
        obtain rfl := Option.some.inj h
        refine .put hlands hold (fun hmarked => hmark.trans hmarked) ?_ ?_
        · rintro ⟨walk, hwatched⟩ hshaped
          simp only [careful, hphase, hwatched, hold, Option.any_some, hshaped] at hok
          exact .inr (by simpa using hok)
        · rw [hphase]
          exact hlands
      · cases h
  · next root hphase =>
    obtain rfl := Option.some.inj h
    exact .drop trivial (.inr rfl)
  · next root hphase =>
    split at h
    · obtain rfl := Option.some.inj h
      exact .land trivial
    · next lease hlease =>
      obtain rfl := Option.some.inj h
      exact .take hlease (.inr ⟨rfl, rfl⟩)
  · next root family asked hphase =>
    rw [hphase] at hlands
    split at h
    · obtain rfl := Option.some.inj h
      exact .land hlands
    · obtain rfl := Option.some.inj h
      exact .drop trivial (.inl rfl)
  · next root repository work checkout hphase =>
    rw [hphase] at hlands
    split at h
    · cases h
    · next content hcontent =>
      simp only [careful, hphase, hcontent, Option.all_some] at hok
      split at h
      · next hclone =>
        obtain rfl := Option.some.inj h
        refine .land ⟨hlands, content, hcontent, fun clone hsome => ?_⟩
        cases hclone.symm.trans hsome
      · next clone hclone =>
        rw [hclone, Option.all_some, Bool.and_eq_true] at hok
        rw [if_pos hok.1] at h
        split at h
        · next hnone =>
          obtain rfl := Option.some.inj h
          exact .land ⟨hlands, content, hcontent,
            preserved_of_unpreserved hclone hnone hok.2⟩
        · obtain rfl := Option.some.inj h
          exact .drop trivial (.inl rfl)
  · next root work checkout left hphase =>
    rw [hphase] at hlands
    split at h
    · obtain rfl := Option.some.inj h
      exact .drop trivial (.inl rfl)
    · obtain rfl := Option.some.inj h
      exact .land hlands
  · next root work checkout tree hphase =>
    rw [hphase] at hlands
    obtain ⟨hheld, content, hcontent, hpreserved⟩ := hlands
    obtain ⟨found, hfound, rfl⟩ := Option.map_eq_some_iff.mp h
    obtain rfl := Option.some.inj (hcontent.symm.trans hfound)
    exact stepped_mark hheld hcontent hpreserved
  · next root content hphase =>
    rw [hphase] at hlands
    obtain ⟨hheld, marked, hmarked, hmark⟩ := hlands
    split at h
    · cases h
    · next old hold =>
      obtain rfl := Option.some.inj (hmarked.symm.trans hold)
      split at h
      · next hkept =>
        obtain rfl := Option.some.inj h
        have hstill : content.mark = true := hkept.1.trans hmark
        refine .put hheld hold (fun _ => hstill) (fun _ _ => .inl hstill) ?_
        rw [hphase]
        exact ⟨hheld, content, Function.update_self .., hstill⟩
      · cases h
  · obtain rfl := Option.some.inj h
    exact .drop trivial (.inl rfl)
  · cases h
  all_goals
    first
      | (obtain rfl := Option.some.inj h
         exact .drop trivial (.inl rfl))
      | cases h

end World

end Frames

end Onevcs.Sweep
