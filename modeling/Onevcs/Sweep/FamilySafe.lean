import Mathlib.Data.List.Sort
import Onevcs.Sweep.FamilyInvariant

/-!
# A sweep removes what is proven dead

Each step of the pass keeps what it has established, and a removal is logged when that
justifies it.
-/

set_option linter.unusedSectionVars false

namespace Onevcs.Sweep

open Foundations (History Flock System)
open Retire (Clone)

section Passes

variable {κ π : Type} [DecidableEq κ] [DecidableEq π] {H : History κ} {floor now : Nat}

namespace World

variable {s s' : World κ π} {p : π} {phase : Phase κ} {walk : Walk κ} {root : RunRoot}

/-- What a step of the pass leaves of the landings: it only takes a run root away that it holds
alone. -/
structure Minds (s s' : World κ π) : Prop where
  landing : s'.landing = s.landing
  markings : s'.markings = s.markings
  leases : ∀ root p mode, (s.leases root).Holds (.landing p) mode →
    (s'.leases root).Holds (.landing p) mode
  roots : ∀ root, ¬ s.Alone root → s'.roots root = s.roots root

theorem Minds.aside (h : s.Minds s') (p : π) : s.Aside s' p where
  landing := congrFun h.landing p
  leases root mode hheld := h.leases root p mode hheld
  roots root hheld _ hcontent := (h.roots root (not_alone_of_holds hheld)).trans hcontent

theorem Minds.drop : s.Minds (s.drop .sweep root) where
  landing := rfl
  markings := rfl
  leases _ _ _ hheld := Flock.holds_update_drop.mpr ⟨hheld, fun hboth => nomatch hboth.2⟩
  roots _ _ := rfl

theorem Minds.dropAll (s : World κ π) (held : List RunRoot) : s.Minds (s.dropAll held) := by
  induction held generalizing s with
  | nil => exact ⟨rfl, rfl, fun _ _ _ => id, fun _ _ => rfl⟩
  | cons root rest ih =>
    have hfirst : s.Minds (s.drop .sweep root) := .drop
    have hrest := ih (s.drop .sweep root)
    refine ⟨hrest.landing, hrest.markings, fun other p mode hheld => ?_, fun other hfree => ?_⟩
    · exact hrest.leases other p mode (hfirst.leases other p mode hheld)
    · refine hrest.roots other fun halone => hfree ?_
      exact (Flock.holds_update_drop.mp halone).1

theorem dropAll_report (s : World κ π) (held : List RunRoot) :
    (s.dropAll held).retained = s.retained ∧ (s.dropAll held).removals = s.removals := by
  induction held generalizing s with
  | nil => exact ⟨rfl, rfl⟩
  | cons root rest ih => exact ih (s.drop .sweep root)

/-- Every run root is decided once, if the ones that are decided or pending are the same. -/
theorem Distinct.of_perm (h : s.Distinct)
    (hperm : (s'.sweep.pending ++ s'.settled).Perm (s.sweep.pending ++ s.settled))
    (hfamilies : s'.sweep.families = s.sweep.families) : s'.Distinct where
  nodup := hperm.nodup_iff.mpr h.nodup
  listed other hother := by
    rw [hfamilies]
    exact h.listed other (hperm.mem_iff.mp hother)
  families := by
    rw [hfamilies]
    exact h.families

theorem Distinct.over (h : s.Distinct) (hsweep : s'.sweep = .done)
    (hsettled : s'.settled = s.settled) : s'.Distinct where
  nodup := by
    rw [hsweep, hsettled]
    exact (List.nodup_append.mp h.nodup).2.1
  listed := by
    rw [hsweep]
    exact fun _ _ => List.not_mem_nil
  families := by
    rw [hsweep]
    exact List.nodup_nil

theorem Invariant.advance (h : s.Invariant H floor) (hminds : s.Minds s')
    (hstands : s'.Stands H floor s'.sweep) (hdistinct : s'.Distinct)
    (hremovals : s'.removals = s.removals) (hretained : s.retained.Sublist s'.retained) :
    s'.Invariant H floor where
  stands := hstands
  lands p := (h.lands p).of_aside (hminds.aside p)
  distinct := hdistinct
  proven := by
    rw [hremovals]
    exact h.proven
  reported := by
    rw [hremovals]
    exact fun removal hremoval held hheld =>
      hretained.subset (h.reported removal hremoval held hheld)
  preserved := by
    rw [hminds.markings]
    exact h.preserved

theorem Stands.goto (h : s.Stands H floor phase) : (s.goto phase).Stands H floor phase := by
  have hleaves : s.Leaves (s.goto phase) :=
    ⟨Nat.le_refl _, List.Sublist.refl _, fun _ => id, fun _ _ _ => id⟩
  cases phase with
  | walking walk => exact Walks.of_leaves h hleaves
  | looked walk root released => exact ⟨h.1.of_leaves hleaves, h.2⟩
  | proving walk root released stage => exact ⟨h.1.of_leaves hleaves, h.2⟩
  | reclaiming walk root proof =>
    exact ⟨h.1.of_leaves hleaves, h.2.1, h.2.2.of_leaves hleaves⟩
  | removing walk root proof =>
    exact ⟨h.1.of_leaves hleaves, h.2.1, h.2.2.of_leaves hleaves⟩
  | removed walk root => exact ⟨h.1.of_leaves hleaves, h.2⟩
  | done => trivial

theorem Invariant.goto (h : s.Invariant H floor) (hstands : s.Stands H floor phase)
    (hperm : phase.pending.Perm s.sweep.pending) (hfamilies : phase.families = s.sweep.families) :
    (s.goto phase).Invariant H floor :=
  h.advance ⟨rfl, rfl, fun _ _ _ => id, fun _ _ => rfl⟩ hstands.goto
    (h.distinct.of_perm (hperm.append_right _) hfamilies) rfl (List.Sublist.refl _)

theorem Invariant.over (h : s.Invariant H floor) (held : List RunRoot) :
    ((s.dropAll held).goto .done).Invariant H floor := by
  have hminds := Minds.dropAll s held
  obtain ⟨hretained, hremovals⟩ := dropAll_report s held
  refine h.advance ⟨hminds.landing, hminds.markings, hminds.leases, hminds.roots⟩ trivial ?_
    hremovals ?_
  · apply h.distinct.over rfl
    unfold settled
    exact congrArg₂ (· ++ ·) (congrArg (List.map Prod.fst) hretained)
      (congrArg (List.map Removal.root) hremovals)
  · have hsame : ((s.dropAll held).goto .done).retained = s.retained := hretained
    rw [hsame]

theorem Distinct.not_held (h : s.Distinct)
    (hpending : (root :: walk.pending).Perm s.sweep.pending) : root ∉ walk.held := by
  have hnodup := hpending.nodup_iff.mpr (List.nodup_append.mp h.nodup).1
  intro hmem
  exact (List.nodup_cons.mp hnodup).1 (List.mem_append_right _ hmem)

theorem LeavesAt.drop {roots : List RunRoot} (hroot : root ∉ roots) :
    s.LeavesAt (s.drop .sweep root) roots := by
  refine ⟨Nat.le_refl _, List.Sublist.refl _, fun other hother halone => ?_, fun _ _ => rfl⟩
  refine Flock.holds_update_drop.mpr ⟨halone, fun hboth => hroot ?_⟩
  exact hboth.1 ▸ hother

theorem settle_perm (why : Kept) (hpending : (root :: walk.pending).Perm s.sweep.pending)
    (hsweep : s'.sweep = .walking walk) (hretained : s'.retained = s.retained ++ [(root, why)])
    (hremovals : s'.removals = s.removals) :
    (s'.sweep.pending ++ s'.settled).Perm (s.sweep.pending ++ s.settled) := by
  refine List.Perm.trans ?_ (hpending.append_right _)
  rw [hsweep, settled, settled, hretained, hremovals, List.perm_iff_count]
  intro other
  simp only [Phase.pending, List.map_append, List.map_cons, List.map_nil, List.count_append,
    List.count_cons, List.count_nil]
  omega

theorem Invariant.retain (h : s.Invariant H floor) {why : Kept} (hwalks : s.Walks H floor walk)
    (hpending : (root :: walk.pending).Perm s.sweep.pending)
    (hfamilies : walk.families = s.sweep.families) :
    (s.retain walk root why).Invariant H floor := by
  have hreported : s.retained.Sublist (s.retained ++ [(root, why)]) :=
    List.sublist_append_left ..
  refine h.advance ⟨rfl, rfl, fun _ _ _ => id, fun _ _ => rfl⟩ ?_ ?_ rfl hreported
  · exact Walks.of_leaves hwalks ⟨Nat.le_refl _, hreported, fun _ => id, fun _ _ _ => id⟩
  · exact h.distinct.of_perm (settle_perm why hpending rfl rfl rfl) hfamilies

theorem Invariant.settle (h : s.Invariant H floor) {why : Kept}
    (hwalks : (s.giveUp walk root why).Walks H floor walk)
    (hpending : (root :: walk.pending).Perm s.sweep.pending)
    (hfamilies : walk.families = s.sweep.families) :
    (s.giveUp walk root why).Invariant H floor := by
  have hminds : s.Minds (s.drop .sweep root) := .drop
  refine h.advance ⟨rfl, rfl, hminds.leases, hminds.roots⟩ hwalks ?_ rfl
    (List.sublist_append_left ..)
  exact h.distinct.of_perm (settle_perm why hpending rfl rfl rfl) hfamilies

theorem leavesAt_giveUp {why : Kept} (hroot : root ∉ walk.held) :
    s.LeavesAt (s.giveUp walk root why) walk.held := by
  have hdropped := LeavesAt.drop (s := s) hroot
  exact ⟨Nat.le_refl _, List.sublist_append_left .., hdropped.alone, hdropped.there⟩

theorem Invariant.giveUp (h : s.Invariant H floor) {why : Kept} (hwalks : s.Walks H floor walk)
    (hpending : (root :: walk.pending).Perm s.sweep.pending)
    (hfamilies : walk.families = s.sweep.families) :
    (s.giveUp walk root why).Invariant H floor :=
  h.settle (hwalks.of_leavesAt (leavesAt_giveUp (h.distinct.not_held hpending))) hpending hfamilies

theorem Invariant.take (h : s.Invariant H floor) {released : Bool} {lease : Flock (Holder π)}
    (hphase : s.sweep = .looked walk root released)
    (hlease : (s.leases root).take .sweep .exclusive = some lease) :
    Invariant H floor { s with
      sweep := .proving walk root released .taken
      leases := Function.update s.leases root lease } := by
  have hstands := h.stands
  rw [hphase] at hstands
  obtain ⟨hwalks, hverb, hcontent⟩ := hstands
  refine h.advance ⟨rfl, rfl, fun other p mode hheld => ?_, fun _ _ => rfl⟩ ?_ ?_ rfl
    (List.Sublist.refl _)
  · exact Flock.holds_update_take hlease hheld
  · have hleaves : s.Leaves { s with
        sweep := .proving walk root released .taken
        leases := Function.update s.leases root lease } :=
      ⟨Nat.le_refl _, List.Sublist.refl _, fun _ halone => Flock.holds_update_take hlease halone,
        fun _ _ _ => id⟩
    refine ⟨hwalks.of_leaves hleaves, hverb, ?_, hcontent⟩
    have hself : Function.update s.leases root lease root = lease := Function.update_self ..
    simp only [Alone, hself]
    exact Flock.take_holds hlease
  · exact h.distinct.of_perm (by rw [hphase]; exact List.Perm.refl _) (by rw [hphase]; rfl)

theorem Invariant.prove (h : s.Invariant H floor) {released : Bool} {stage stage' : Stage}
    (hphase : s.sweep = .proving walk root released stage)
    (hstage : ∀ content, s.roots root = some content →
      stage.Stands floor s.clock root released content →
      stage'.Stands floor s.clock root released content) :
    (s.goto (.proving walk root released stage')).Invariant H floor := by
  have hstands := h.stands
  rw [hphase] at hstands
  obtain ⟨hwalks, hverb, halone, content, hcontent, hstood⟩ := hstands
  refine h.goto ⟨hwalks, hverb, halone, content, hcontent, hstage content hcontent hstood⟩ ?_ ?_
  · rw [hphase]
    exact List.Perm.refl _
  · rw [hphase]
    rfl

theorem Invariant.pass (h : s.Invariant H floor) {reclaimed : List RunRoot}
    (hwalks : s.Walks H floor walk) (hnot : root ∉ walk.held)
    (hpending : walk.pending.Sublist s.sweep.pending)
    (hfamilies : walk.families = s.sweep.families) :
    Invariant H floor { (s.drop .sweep root).goto (.walking walk) with reclaimed := reclaimed } := by
  have hdropped := LeavesAt.drop (s := s) hnot
  have hminds : s.Minds (s.drop .sweep root) := .drop
  refine h.advance ⟨rfl, rfl, hminds.leases, hminds.roots⟩ ?_ ?_ rfl (List.Sublist.refl _)
  · exact hwalks.of_leavesAt ⟨Nat.le_refl _, List.Sublist.refl _, hdropped.alone, hdropped.there⟩
  · have hsub : (walk.pending ++ s.settled).Sublist (s.sweep.pending ++ s.settled) :=
      hpending.append_right _
    refine ⟨hsub.nodup h.distinct.nodup, fun other hother => ?_, ?_⟩
    · have hlisted := h.distinct.listed other (hsub.subset hother)
      rwa [← hfamilies] at hlisted
    · have hnodup := h.distinct.families
      rwa [← hfamilies] at hnodup

/-- A removal in hand is logged, whatever is left of the run root. -/
theorem Invariant.log (h : s.Invariant H floor) {proof : Proof κ} {content : Content κ}
    (left : Option (Content κ)) (reclaimed : List RunRoot)
    (hphase : s.sweep = .removing walk root proof) (hcontent : s.roots root = some content) :
    Invariant H floor { s.put root left with
      sweep := .removed walk root
      reclaimed := reclaimed
      removals := s.removals ++ [⟨root, content, s.clock,
        decide ((s.leases root).Holds .sweep .exclusive), proof⟩] } := by
  have hstands := h.stands
  rw [hphase] at hstands
  obtain ⟨hwalks, -, hcondemns⟩ := hstands
  obtain ⟨found, hfound, hjustified⟩ := hcondemns.justified
  obtain rfl := Option.some.inj (hcontent.symm.trans hfound)
  have hpending : s.sweep.pending = root :: walk.pending := by
    rw [hphase]
    rfl
  have hnot := h.distinct.not_held (List.Perm.of_eq hpending.symm)
  have hother : ∀ other, other ≠ root → Function.update s.roots root left other = s.roots other :=
    fun other hne => Function.update_of_ne hne ..
  constructor
  · refine ⟨hwalks.of_leavesAt ⟨Nat.le_refl _, List.Sublist.refl _, fun _ _ => id,
      fun other hheld => ?_⟩, hnot⟩
    refine hother other ?_
    rintro rfl
    exact hnot hheld
  · intro p
    refine (h.lands p).of_aside ⟨rfl, fun _ _ => id, fun other hheld found hthere => ?_⟩
    refine (hother other ?_).trans hthere
    rintro rfl
    exact not_alone_of_holds hheld hcondemns.alone
  · refine h.distinct.of_perm ?_ (by rw [hphase]; rfl)
    rw [hpending, List.perm_iff_count]
    intro other
    simp only [Phase.pending, settled, put, List.map_append, List.map_cons, List.map_nil,
      List.count_append, List.count_cons, List.count_nil]
    omega
  · intro removal hremoval
    rcases List.mem_append.mp hremoval with hbefore | hnew
    · exact h.proven removal hbefore
    · obtain rfl := List.mem_singleton.mp hnew
      exact ⟨decide_eq_true hcondemns.alone, hjustified⟩
  · intro removal hremoval
    rcases List.mem_append.mp hremoval with hbefore | hnew
    · exact h.reported removal hbefore
    · obtain rfl := List.mem_singleton.mp hnew
      exact hcondemns.reported
  · exact h.preserved

theorem dropAll_goto (s : World κ π) (held : List RunRoot) (phase : Phase κ) :
    ((s.goto phase).dropAll held).goto .done = (s.dropAll held).goto .done := by
  induction held generalizing s with
  | nil => rfl
  | cons root rest ih => exact ih (s.drop .sweep root)

theorem Invariant.removal (h : s.Invariant H floor) {proof : Proof κ} {content : Content κ}
    {left : Option (Content κ)} (hphase : s.sweep = .removing walk root proof)
    (hcontent : s.roots root = some content) :
    (s.removal walk root proof content left).Invariant H floor := by
  cases left with
  | none => exact h.log none _ hphase hcontent
  | some content' =>
    have hover := (h.log (some content') s.reclaimed hphase hcontent).over s.sweep.held
    unfold World.removal
    simp only
    rw [← dropAll_goto _ _ (.removed walk root)]
    exact hover

theorem Walks.rest (h : s.Walks H floor walk) {rest : List RunRoot}
    (hrest : walk.rest = root :: rest) : s.Walks H floor { walk with rest := rest } :=
  ⟨h.holds, h.kept, h.reported, h.unsorted, h.order, h.count, h.family,
    fun other hother => h.listed other (hrest ▸ List.mem_cons_of_mem root hother)⟩

/-- A walk over a family with no run root is not through before it has sorted. -/
example : (Walk.over [] .recover [] : Walk ℕ).through = false := by decide +kernel

theorem Invariant.look (h : s.Invariant H floor) {rest : List RunRoot} {mark shape : Bool}
    (hphase : s.sweep = .walking walk) (hrest : walk.rest = root :: rest)
    {content : Content κ} (hcontent : s.roots root = some content)
    (hlooked : ((namesARun root.name && content.mark && mark) ||
      (shaped root content && shape)) = true) :
    (s.goto (.looked { walk with rest := rest } root
      (namesARun root.name && content.mark && mark))).Invariant H floor := by
  have hwalks : s.Walks H floor walk := by
    have hstands := h.stands
    rwa [hphase] at hstands
  refine h.goto ⟨hwalks.rest hrest, ?_, content, hcontent, ?_⟩ ?_ ?_
  · exact hwalks.listed root (hrest ▸ List.mem_cons_self)
  · cases hreleased : namesARun root.name && content.mark && mark with
    | true =>
      simp only [Bool.and_eq_true] at hreleased
      exact .inl hreleased.1.2
    | false =>
      rw [hreleased, Bool.false_or, Bool.and_eq_true] at hlooked
      exact .inr ⟨rfl, hlooked.1⟩
  · rw [hphase]
    simp only [Phase.pending, Walk.pending, hrest]
    exact List.Perm.refl _
  · rw [hphase]
    rfl

theorem sort_eq (walk : Walk κ) : walk.sort.keep ++ walk.sort.doomed =
    walk.holding.mergeSort fun a b => decide (b.written ≤ a.written) :=
  List.take_append_drop _ _

theorem sort_perm (walk : Walk κ) : (walk.sort.keep ++ walk.sort.doomed).Perm walk.holding := by
  rw [sort_eq]
  exact List.mergeSort_perm _ _

theorem mem_holding_of_sort {held : Held κ}
    (h : held ∈ walk.sort.holding ++ walk.sort.keep ++ walk.sort.doomed) :
    held ∈ walk.holding := (sort_perm walk).mem_iff.mp h

theorem sort_le {kept held : Held κ} (hkept : kept ∈ walk.sort.keep)
    (hheld : held ∈ walk.sort.doomed) : held.written ≤ kept.written := by
  have hsorted : (walk.holding.mergeSort fun a b => decide (b.written ≤ a.written)).Pairwise
      fun a b => decide (b.written ≤ a.written) = true := by
    apply List.pairwise_mergeSort
    · intro a b c hab hbc
      rw [decide_eq_true_eq] at hab hbc ⊢
      exact le_trans hbc hab
    · intro a b
      rw [Bool.or_eq_true, decide_eq_true_eq, decide_eq_true_eq]
      exact le_total _ _
  rw [← sort_eq] at hsorted
  have hacross := (List.pairwise_append.mp hsorted).2.2 kept hkept held hheld
  exact of_decide_eq_true hacross

theorem justifies_landed {content : Content κ} {written : Nat} {faults asked : Faults}
    {work : Work κ} (hjudged : Judged root false content)
    (haged : Aged floor now content written faults) (hshown : Shown asked [] content.tree)
    {clone : Clone κ} (hclone : content.clone = some clone)
    (hwork : unpublishedWork H clone work = some []) (hcounts : work.counts clone = true) :
    Justifies H floor now root content ⟨faults, asked, some work, []⟩ := by
  refine ⟨haged.old, haged.walked, hshown, ?_⟩
  rcases hjudged with hmark | ⟨-, hshape, hverdict⟩
  · exact .inl hmark
  · refine .inr ⟨hshape, hverdict, clone, work, hclone, rfl, by rw [hwork]; rfl, .inl ?_⟩
    intro branch tip hholds
    rcases unpublishedWork_decided hwork hcounts hholds with hreported | hlanded
    · cases hreported
    · exact hlanded

theorem holdsWork_of_found {held : Held κ} (h : held.Found H floor now) : held.HoldsWork H := by
  obtain ⟨clone, hclone, hwork⟩ := h.work
  obtain ⟨branch, hbranch⟩ := List.exists_mem_of_ne_nil _ h.some
  obtain ⟨⟨tip, hhead, hnot⟩, hdecided⟩ := holds_of_unpublishedWork hwork hbranch
  exact ⟨clone, hclone, branch, tip, hhead, hnot, hdecided⟩

theorem nodup_front (hdistinct : s.Distinct) (hwalks : s.Walks H floor walk) :
    (walk.front.map Held.root).Nodup := by
  have hsub := hwalks.reported.map Prod.fst
  rw [List.map_map] at hsub
  have hretained := (List.nodup_append.mp (List.nodup_append.mp hdistinct.nodup).2.1).1
  exact hsub.nodup hretained

/-- What was found of a run root justifies removing it, once enough newer ones were kept. -/
theorem justifies_outnumbered (hdistinct : s.Distinct) (hwalks : s.Walks H floor walk)
    {held : Held κ} {doomed : List (Held κ)} (hkeep : walk.keep = [])
    (hdoomed : walk.doomed = held :: doomed) :
    Justifies H floor s.clock held.root held.content
      ⟨held.faults, held.asked, some held.work, walk.front⟩ := by
  have hmem : held ∈ walk.doomed := hdoomed ▸ List.mem_cons_self
  have hfound := (hwalks.holds held (List.mem_append_right _ hmem)).found
  refine ⟨hfound.aged.old, hfound.aged.walked, hfound.shown, ?_⟩
  rcases hfound.judged with hmark | ⟨-, hshape, hverdict⟩
  · exact .inl hmark
  · obtain ⟨clone, hclone, hwork⟩ := hfound.work
    refine .inr ⟨hshape, hverdict, clone, held.work, hclone, rfl, by rw [hwork]; rfl, .inr ?_⟩
    have hfamily : ∀ kept ∈ walk.front, kept.root.verb = walk.verb := fun kept hkept =>
      hwalks.family kept (List.mem_append_left _ (List.mem_append_left _
        (List.mem_append_right _ hkept)))
    constructor
    · have hcount := hwalks.count (by rw [hdoomed]; exact List.cons_ne_nil _ _)
      simpa [hkeep] using hcount
    · exact nodup_front hdistinct hwalks
    · intro kept hkept
      rw [hfamily kept hkept]
      exact (hwalks.family held (List.mem_append_right _ hmem)).symm
    · intro kept hkept
      have horder := hwalks.order kept (List.mem_append_left _ hkept) held hmem
      rw [hfound.aged.newest, (hwalks.kept kept hkept).aged.newest] at horder
      exact horder
    · exact fun kept hkept => holdsWork_of_found (hwalks.kept kept hkept)

/-- A run root that holds work is held until its family has been judged. -/
theorem Invariant.hold (h : s.Invariant H floor) {released : Bool} {stage : Stage}
    {held : Held κ} (hphase : s.sweep = .proving walk held.root released stage)
    (hholds : s.Holds H floor held) :
    (s.goto (.walking { walk with holding := walk.holding ++ [held] })).Invariant H floor := by
  have hstands := h.stands
  rw [hphase] at hstands
  obtain ⟨hwalks, hverb, -⟩ := hstands
  refine h.goto ⟨fun other hother => ?_, hwalks.kept, hwalks.reported, hwalks.unsorted,
    hwalks.order, hwalks.count, fun other hother => ?_, hwalks.listed⟩ ?_ ?_
  · simp only [List.mem_append, List.mem_singleton] at hother
    rcases hother with (((hin | rfl) | hin) | hin)
    · exact hwalks.holds other (by simp [hin])
    · exact hholds
    · exact hwalks.holds other (by simp [hin])
    · exact hwalks.holds other (by simp [hin])
  · simp only [List.mem_append, List.mem_singleton] at hother
    rcases hother with ((((hin | rfl) | hin) | hin) | hin)
    · exact hwalks.family other (by simp [hin])
    · exact hverb
    · exact hwalks.family other (by simp [hin])
    · exact hwalks.family other (by simp [hin])
    · exact hwalks.family other (by simp [hin])
  · rw [hphase, List.perm_iff_count]
    intro root
    simp only [Phase.pending, Walk.pending, Walk.held, List.map_append, List.map_cons,
      List.map_nil, List.count_append, List.count_cons, List.count_nil]
    omega
  · rw [hphase]
    rfl

theorem Walks.sort (h : s.Walks H floor walk) (hunsorted : walk.sorted = false)
    (hapart : ∀ kept ∈ walk.sort.keep, ∀ held ∈ walk.sort.doomed, kept.written ≠ held.written) :
    s.Walks H floor walk.sort where
  holds held hheld := h.holds held (by
    have hin : held ∈ walk.holding := mem_holding_of_sort hheld
    simp [hin])
  kept := h.kept
  reported := h.reported
  unsorted hfalse := nomatch hfalse
  order kept hkept held hheld := by
    have hfront := (h.unsorted hunsorted).2.2
    have hkeep : kept ∈ walk.sort.keep := by
      rcases List.mem_append.mp hkept with hin | hin
      · have hnone : kept ∈ walk.front := hin
        rw [hfront] at hnone
        cases hnone
      · exact hin
    have hle := sort_le hkeep hheld
    exact lt_of_le_of_ne hle (hapart kept hkeep held hheld).symm
  count hsome := by
    have hlong := List.length_pos_iff.mpr hsome
    simp only [Walk.sort, List.length_drop] at hlong
    simp only [Walk.sort, List.length_append, List.length_take]
    omega
  family held hheld := h.family held (by
    have hfront := (h.unsorted hunsorted).2.2
    have hin : held ∈ walk.holding := by
      apply mem_holding_of_sort
      have hnone : walk.sort.front = [] := hfront
      simpa [hnone] using hheld
    simp [hin])
  listed := h.listed

theorem Invariant.sort (h : s.Invariant H floor) (hphase : s.sweep = .walking walk)
    (hunsorted : walk.sorted = false)
    (hapart : ∀ kept ∈ walk.sort.keep, ∀ held ∈ walk.sort.doomed, kept.written ≠ held.written) :
    (s.goto (.walking walk.sort)).Invariant H floor := by
  have hwalks : s.Walks H floor walk := by
    have hstands := h.stands
    rwa [hphase] at hstands
  obtain ⟨hkeep, hdoomed, -⟩ := hwalks.unsorted hunsorted
  refine h.goto (hwalks.sort hunsorted hapart) ?_ (by rw [hphase]; rfl)
  rw [hphase]
  have hheld : walk.held = walk.holding.map Held.root := by
    simp [Walk.held, hkeep, hdoomed]
  have hsorted : walk.sort.held = (walk.sort.keep ++ walk.sort.doomed).map Held.root := rfl
  simp only [Phase.pending, Walk.pending]
  rw [hheld, hsorted]
  exact (List.Perm.refl _).append ((sort_perm walk).map Held.root)

theorem Invariant.keep (h : s.Invariant H floor) {held : Held κ} {keep : List (Held κ)}
    (hphase : s.sweep = .walking walk) (hkeep : walk.keep = held :: keep) :
    (s.giveUp { walk with keep := keep, front := walk.front ++ [held] } held.root
      .holdsUnpublishedWork).Invariant H floor := by
  have hwalks : s.Walks H floor walk := by
    have hstands := h.stands
    rwa [hphase] at hstands
  have hpending : (held.root :: Walk.pending { walk with
      keep := keep, front := walk.front ++ [held] }).Perm s.sweep.pending := by
    rw [hphase, List.perm_iff_count]
    intro root
    simp only [Phase.pending, Walk.pending, Walk.held, hkeep, List.map_append, List.map_cons,
      List.count_append, List.count_cons]
    omega
  have hleaves : s.LeavesAt (s.giveUp _ held.root .holdsUnpublishedWork) _ :=
    leavesAt_giveUp (h.distinct.not_held hpending)
  have hfound := (hwalks.holds held (by simp [hkeep])).found
  refine h.settle ?_ hpending (by rw [hphase]; rfl)
  constructor
  · intro other hother
    have hin : other ∈ walk.holding ++ walk.keep ++ walk.doomed := by
      simp only [List.mem_append] at hother
      rcases hother with ((hin | hin) | hin)
      · simp [hin]
      · simp [hkeep, hin]
      · simp [hin]
    have hholds := hwalks.holds other hin
    have hroot := mem_held hother
    exact ⟨hleaves.alone _ hroot hholds.alone, (hleaves.there _ hroot).trans hholds.there,
      hholds.found⟩
  · intro other hother
    rcases List.mem_append.mp hother with hin | hin
    · exact hwalks.kept other hin
    · obtain rfl := List.mem_singleton.mp hin
      exact hfound
  · rw [List.map_append]
    exact hwalks.reported.append (List.Sublist.refl _)
  · intro hfalse
    have hnone := (hwalks.unsorted hfalse).1
    rw [hkeep] at hnone
    cases hnone
  · intro kept hkept
    refine hwalks.order kept ?_
    rw [hkeep]
    simpa [or_assoc] using hkept
  · intro hsome
    have hcount := hwalks.count hsome
    simpa [hkeep, Nat.add_assoc, Nat.add_comm 1] using hcount
  · intro other hother
    refine hwalks.family other ?_
    rw [hkeep]
    simp only [List.mem_append, List.mem_cons, List.not_mem_nil, or_false] at hother ⊢
    rcases hother with ((hin | (hin | rfl)) | hin) | hin
    · simp [hin]
    · simp [hin]
    · simp
    · simp [hin]
    · simp [hin]
  · exact hwalks.listed

theorem Invariant.doom (h : s.Invariant H floor) {held : Held κ} {doomed : List (Held κ)}
    (hphase : s.sweep = .walking walk) (hkeep : walk.keep = [])
    (hdoomed : walk.doomed = held :: doomed) :
    (s.goto (.reclaiming { walk with doomed := doomed } held.root
      ⟨held.faults, held.asked, some held.work, walk.front⟩)).Invariant H floor := by
  have hwalks : s.Walks H floor walk := by
    have hstands := h.stands
    rwa [hphase] at hstands
  have hholds := hwalks.holds held (by simp [hdoomed])
  have hin : ∀ other ∈ doomed, other ∈ walk.doomed := by
    intro other hother
    rw [hdoomed]
    exact List.mem_cons_of_mem held hother
  refine h.goto ⟨⟨fun other hother => ?_, hwalks.kept, hwalks.reported, fun hfalse => ?_,
    fun kept hkept other hother => hwalks.order kept hkept other (hin other hother), fun _ => ?_,
    fun other hother => ?_, hwalks.listed⟩, ?_, hholds.alone, ⟨held.content, hholds.there,
      justifies_outnumbered h.distinct hwalks hkeep hdoomed⟩, fun kept hkept => ?_⟩ ?_ ?_
  · refine hwalks.holds other ?_
    rcases List.mem_append.mp hother with hearlier | hlater
    · exact List.mem_append_left _ hearlier
    · exact List.mem_append_right _ (hin other hlater)
  · have hnone := (hwalks.unsorted hfalse).2.1
    rw [hdoomed] at hnone
    cases hnone
  · exact hwalks.count (by rw [hdoomed]; exact List.cons_ne_nil _ _)
  · refine hwalks.family other ?_
    rcases List.mem_append.mp hother with hearlier | hlater
    · exact List.mem_append_left _ hearlier
    · exact List.mem_append_right _ (hin other hlater)
  · exact hwalks.family held (by simp [hdoomed])
  · exact hwalks.reported.subset (List.mem_map.mpr ⟨kept, hkept, rfl⟩)
  · rw [hphase, List.perm_iff_count]
    intro root
    simp only [Phase.pending, Walk.pending, Walk.held, hdoomed, List.map_append, List.map_cons,
      List.count_append, List.count_cons]
    omega
  · rw [hphase]
    rfl

theorem Invariant.list (h : s.Invariant H floor) {verb : Verb} {families : List Verb}
    {listed : List RunRoot} (hphase : s.sweep = .walking walk)
    (hfamilies : walk.families = verb :: families) (hnodup : listed.Nodup)
    (hverb : ∀ root ∈ listed, root.verb = verb) :
    (s.goto (.walking (.over families verb listed))).Invariant H floor := by
  have hall := h.distinct.families
  have hsettled := h.distinct.listed
  rw [hphase] at hall hsettled
  simp only [Phase.families, hfamilies] at hall hsettled
  refine h.advance ⟨rfl, rfl, fun _ _ _ => id, fun _ _ => rfl⟩ ?_ ?_ rfl (List.Sublist.refl _)
  · exact ⟨by simp [Walk.over], by simp [Walk.over], by simp [Walk.over],
      fun _ => ⟨rfl, rfl, rfl⟩, by simp [Walk.over], fun hsome => absurd rfl hsome,
      by simp [Walk.over], hverb⟩
  · have hpending : (Phase.walking (Walk.over families verb listed) : Phase κ).pending = listed := by
      simp [Phase.pending, Walk.pending, Walk.held, Walk.over]
    refine ⟨?_, ?_, (List.nodup_cons.mp hall).2⟩
    · change (Phase.pending (.walking (Walk.over families verb listed)) ++ s.settled).Nodup
      rw [hpending]
      refine List.nodup_append.mpr ⟨hnodup, (List.nodup_append.mp h.distinct.nodup).2.1, ?_⟩
      rintro root hroot other hother rfl
      exact hsettled root (List.mem_append_right _ hother) (hverb root hroot ▸ List.mem_cons_self)
    · change ∀ root ∈ Phase.pending (.walking (Walk.over families verb listed)) ++ s.settled,
        root.verb ∉ families
      rw [hpending]
      intro root hroot hlater
      rcases List.mem_append.mp hroot with hin | hin
      · rw [hverb root hin] at hlater
        exact (List.nodup_cons.mp hall).1 hlater
      · exact hsettled root (List.mem_append_right _ hin) (List.mem_cons_of_mem verb hlater)

theorem Invariant.walks (h : s.Invariant H floor) (hphase : s.sweep = .walking walk) :
    s.Walks H floor walk := by
  have hstands := h.stands
  rwa [hphase] at hstands

theorem Invariant.letGo (h : s.Invariant H floor) {why : Kept} {released : Bool} {stage : Stage}
    (hphase : s.sweep = .proving walk root released stage) :
    (s.giveUp walk root why).Invariant H floor := by
  have hstands := h.stands
  rw [hphase] at hstands
  exact h.giveUp hstands.1 (by rw [hphase]; exact List.Perm.refl _) (by rw [hphase]; rfl)

/-- The work of the run root in hand is read: it is removed, held, or let go. -/
theorem Invariant.judge (h : s.Invariant H floor) {released : Bool} {written : Nat}
    {faults asked : Faults} {work : Work κ} {content : Content κ}
    (hphase : s.sweep = .proving walk root released (.emptiable written faults asked))
    (hcontent : s.roots root = some content)
    (hcounts : released = false → ∀ clone ∈ content.clone, work.counts clone = true)
    (hs : (if released then some (s.goto (.reclaiming walk root ⟨faults, asked, none, []⟩))
      else
        match content.clone.bind fun clone => unpublishedWork H clone work with
        | none => some (s.giveUp walk root .workUnknown)
        | some [] => some (s.goto (.reclaiming walk root ⟨faults, asked, some work, []⟩))
        | some branches =>
          some (s.goto (.walking { walk with
            holding := walk.holding ++
              [⟨root, branches, written, content, faults, asked, work⟩] }))) = some s') :
    s'.Invariant H floor := by
  have hstands := h.stands
  rw [hphase] at hstands
  obtain ⟨hwalks, hverb, halone, found, hfound, hjudged, haged, hshown⟩ := hstands
  obtain rfl := Option.some.inj (hcontent.symm.trans hfound)
  have hpending : (Phase.reclaiming walk root ⟨faults, asked, none, []⟩ : Phase κ).pending.Perm
      s.sweep.pending := by
    rw [hphase]
    exact List.Perm.refl _
  cases released with
  | true =>
    rw [if_pos rfl] at hs
    obtain rfl := Option.some.inj hs
    refine h.goto ⟨hwalks, hverb, halone, ⟨content, hcontent, haged.old, haged.walked, hshown, ?_⟩,
      fun _ hnone => nomatch hnone⟩ hpending (by rw [hphase]; rfl)
    rcases hjudged with hmark | ⟨hfalse, -⟩
    · exact .inl hmark
    · cases hfalse
  | false =>
    rw [if_neg Bool.false_ne_true] at hs
    split at hs
    · obtain rfl := Option.some.inj hs
      exact h.letGo hphase
    · next hnone =>
      obtain rfl := Option.some.inj hs
      obtain ⟨clone, hclone, hwork⟩ := Option.bind_eq_some_iff.mp hnone
      refine h.goto ⟨hwalks, hverb, halone, ⟨content, hcontent, justifies_landed hjudged haged
        hshown hclone hwork (hcounts rfl clone hclone)⟩, fun _ hnone => nomatch hnone⟩
        hpending (by rw [hphase]; rfl)
    · next branches hsome hheld =>
      obtain rfl := Option.some.inj hs
      obtain ⟨clone, hclone, hwork⟩ := Option.bind_eq_some_iff.mp hheld
      exact h.hold hphase ⟨halone, hcontent, hjudged, haged, hshown, ⟨clone, hclone, hwork⟩,
        hsome⟩

/-- Every careful step of the pass keeps what was established. -/
theorem Invariant.sweepStep {pass : Pass} (h : s.Invariant H pass.minAge) {act : SweepAct κ}
    (hok : s.careful pass (.sweep act : Label κ π) = true) (hs : s.sweepStep H pass act = some s') :
    s'.Invariant H pass.minAge := by
  unfold World.sweepStep at hs
  split at hs
  · next walk listed hphase =>
    split at hs
    · split at hs
      · obtain rfl := Option.some.inj hs
        exact h.over []
      · next verb families hfamilies =>
        split at hs
        · next hlisted =>
          obtain rfl := Option.some.inj hs
          exact h.list hphase hfamilies hlisted.1 hlisted.2
        · cases hs
    · cases hs
  · next walk mark shape hphase =>
    split at hs
    · cases hs
    · next root rest hrest =>
      have hwalks := (h.walks hphase).rest hrest
      have hpending : (root :: Walk.pending { walk with rest := rest }).Perm
          s.sweep.pending := by
        rw [hphase]
        simp only [Phase.pending, Walk.pending, hrest]
        exact List.Perm.refl _
      split at hs
      · obtain rfl := Option.some.inj hs
        exact h.retain hwalks hpending (by rw [hphase]; rfl)
      · next content hcontent =>
        simp only at hs
        split at hs
        · next hlooked =>
          obtain rfl := Option.some.inj hs
          exact h.look hphase hrest hcontent hlooked
        · obtain rfl := Option.some.inj hs
          exact h.retain hwalks hpending (by rw [hphase]; rfl)
  · next walk root released hphase =>
    split at hs
    · obtain rfl := Option.some.inj hs
      have hstands := h.stands
      rw [hphase] at hstands
      exact h.retain hstands.1 (by rw [hphase]; exact List.Perm.refl _) (by rw [hphase]; rfl)
    · next lease hlease =>
      obtain rfl := Option.some.inj hs
      exact h.take hphase hlease
  · next walk root released answered hphase =>
    split at hs
    · next hverdict =>
      obtain rfl := Option.some.inj hs
      refine h.prove hphase fun content hcontent howned => ?_
      rcases howned with hmark | ⟨rfl, hshape⟩
      · exact .inl hmark
      · rw [hcontent, Option.any_some, Bool.false_or, Bool.and_eq_true] at hverdict
        exact .inr ⟨rfl, hshape, hverdict.1⟩
    · obtain rfl := Option.some.inj hs
      exact h.letGo hphase
  · next walk root released faults hphase =>
    split at hs
    · obtain rfl := Option.some.inj hs
      exact h.letGo hphase
    · next content hcontent =>
      obtain rfl := Option.some.inj hs
      refine h.prove hphase fun found hfound hjudged => ⟨hjudged, ?_⟩
      rintro rfl
      obtain rfl := Option.some.inj (hcontent.symm.trans hfound)
      exact lastWritten_eq_newest s.clock content.tree []
  · next walk root released written faults hphase =>
    split at hs
    · obtain rfl := Option.some.inj hs
      exact h.letGo hphase
    · next hold =>
      obtain rfl := Option.some.inj hs
      simp only [careful, hphase, hold, decide_false, Bool.or_false,
        List.isEmpty_iff] at hok
      refine h.prove hphase fun content hcontent hwalked => ⟨hwalked.1, hok, hwalked.2 hok, ?_⟩
      rw [← hwalked.2 hok]
      exact Nat.le_of_not_lt hold
  · next walk root released written faults family asked hphase =>
    split at hs
    · next hshown =>
      obtain rfl := Option.some.inj hs
      refine h.prove hphase fun content hcontent haged => ⟨haged.1, haged.2, ?_⟩
      rw [hcontent] at hshown
      exact (shown_of_showsItMayEmpty hshown).2
    · obtain rfl := Option.some.inj hs
      exact h.letGo hphase
  · next walk root released written faults asked work hphase =>
    split at hs
    · obtain rfl := Option.some.inj hs
      exact h.letGo hphase
    · next content hcontent =>
      refine h.judge hphase hcontent ?_ hs
      rintro rfl clone hclone
      simp only [careful, hphase, hcontent, Option.all_some] at hok
      rw [hclone] at hok
      exact hok
  · next walk hphase =>
    split at hs
    · next hdue =>
      obtain rfl := Option.some.inj hs
      rw [Bool.and_eq_true, Bool.not_eq_true'] at hdue
      simp only [careful, hphase] at hok
      refine h.sort hphase hdue.2 fun kept hkept held hheld => ?_
      have hapart := List.all_eq_true.mp (List.all_eq_true.mp hok kept hkept) held hheld
      exact of_decide_eq_true hapart
    · cases hs
  · next walk hphase =>
    split at hs
    · cases hs
    · next held keep hkeep =>
      obtain rfl := Option.some.inj hs
      exact h.keep hphase hkeep
  · next walk hphase =>
    split at hs
    · next held doomed hkeep hdoomed =>
      obtain rfl := Option.some.inj hs
      exact h.doom hphase hkeep hdoomed
    · cases hs
  · next walk root proof left hphase =>
    have hstands := h.stands
    rw [hphase] at hstands
    obtain ⟨hwalks, hverb, hcondemns⟩ := hstands
    have hpending : s.sweep.pending = root :: walk.pending := by
      rw [hphase]
      rfl
    have hfamilies : walk.families = s.sweep.families := by
      rw [hphase]
      rfl
    split at hs
    · obtain rfl := Option.some.inj hs
      refine h.pass hwalks (h.distinct.not_held (List.Perm.of_eq hpending.symm)) ?_ hfamilies
      rw [hpending]
      exact List.sublist_cons_self ..
    · split at hs
      · obtain rfl := Option.some.inj hs
        exact h.giveUp hwalks (List.Perm.of_eq hpending.symm) hfamilies
      · obtain rfl := Option.some.inj hs
        refine h.goto ⟨hwalks, hverb, hcondemns⟩ ?_ hfamilies
        rw [hpending]
        exact List.Perm.refl _
  · next walk root proof left hphase =>
    obtain ⟨content, hcontent, rfl⟩ := Option.map_eq_some_iff.mp hs
    exact h.removal hphase hcontent
  · next walk root hphase =>
    obtain rfl := Option.some.inj hs
    have hstands := h.stands
    rw [hphase] at hstands
    exact h.pass hstands.1 hstands.2 (by rw [hphase]; exact List.Sublist.refl _)
      (by rw [hphase]; rfl)
  · cases hs
  · obtain rfl := Option.some.inj hs
    exact h.over _
  · cases hs

/-- Every careful step keeps what the pass and the landings have established. -/
theorem Invariant.step {pass : Pass} (h : s.Invariant H pass.minAge) {label : Label κ π}
    (hok : s.careful pass label = true) (hs : s.step H pass label = some s') :
    s'.Invariant H pass.minAge := by
  cases label with
  | sweep act => exact h.sweepStep hok hs
  | landing p act =>
    have hstepped := stepped_of_landingStep (h.lands p) hok hs
    have hsettled : s'.settled = s.settled := by
      rw [settled, settled, hstepped.retained, hstepped.removals]
    constructor
    · rw [hstepped.sweep]
      exact h.stands.of_spares hstepped.spares
    · intro q
      by_cases hq : q = p
      · subst hq
        exact hstepped.lands
      · exact (h.lands q).of_aside (hstepped.aside q hq)
    · refine h.distinct.of_perm ?_ (by rw [hstepped.sweep])
      rw [hstepped.sweep, hsettled]
    · rw [hstepped.removals]
      exact h.proven
    · rw [hstepped.removals, hstepped.retained]
      exact h.reported
    · intro marking hmarking
      rcases hstepped.markings marking hmarking with hbefore | hpreserved
      · exact h.preserved marking hbefore
      · exact hpreserved
  | tick =>
    obtain rfl := Option.some.inj hs
    have hspares : s.Spares { s with clock := s.clock + 1 } :=
      ⟨⟨Nat.le_succ _, List.Sublist.refl _, fun _ => id, fun _ _ _ => id⟩,
        fun _ content hcontent => ⟨content, hcontent, id, fun _ hshape => .inr hshape⟩⟩
    refine ⟨h.stands.of_spares hspares, fun p => ?_, ⟨h.distinct.nodup, h.distinct.listed,
      h.distinct.families⟩, h.proven, h.reported, h.preserved⟩
    exact (h.lands p).of_aside ⟨rfl, fun _ _ => id, fun _ _ _ => id⟩

theorem Starts.invariant {pass : Pass} (h : s.Starts pass) : s.Invariant H pass.minAge where
  stands := by
    rw [h.sweep]
    exact ⟨by simp [Walk.start], by simp [Walk.start], by simp [Walk.start],
      fun _ => ⟨rfl, rfl, rfl⟩, by simp [Walk.start], fun hsome => absurd rfl hsome,
      by simp [Walk.start], by simp [Walk.start]⟩
  lands p := by
    rw [h.landing]
    trivial
  distinct := by
    have hsettled : s.settled = [] := by
      rw [settled, h.retained, h.removals]
      rfl
    refine ⟨?_, ?_, ?_⟩
    · rw [h.sweep, hsettled]
      exact List.nodup_nil
    · rw [h.sweep, hsettled]
      exact fun _ hnone => nomatch hnone
    · rw [h.sweep]
      cases pass with
      | run dryRun minAge =>
        change ([.publishBranch, .recover] : List Verb).Nodup
        decide
      | enforce verb => exact List.nodup_singleton verb
  proven := by
    rw [h.removals]
    exact fun _ hnone => nomatch hnone
  reported := by
    rw [h.removals]
    exact fun _ hnone => nomatch hnone
  preserved := by
    rw [h.markings]
    exact fun _ hnone => nomatch hnone

end World

end Passes

section Results

variable {κ π : Type} [DecidableEq κ] [DecidableEq π]

/-- In every run of careful steps of a pass beside landings: every run root the pass removes
is held alone and justified by what is there, and the newer ones a removal rests on are kept
and never removed; and every mark a landing writes is written once the checkout reaches every
branch that holds work. -/
theorem sweep_removes_dead (H : History κ) (pass : Pass) {s : World κ π}
    (h : (sweepRuns H pass).ReachableBy (fun s label => s.careful pass label = true) s) :
    (∀ removal ∈ s.removals, removal.Proven H pass.minAge) ∧
      (∀ removal ∈ s.removals, ∀ held ∈ removal.proof.newer,
        (held.root, Kept.holdsUnpublishedWork) ∈ s.retained ∧
          held.root ∉ s.removals.map Removal.root) ∧
      ∀ marking ∈ s.markings, marking.Preserved H := by
  have hinvariant : s.Invariant H pass.minAge :=
    h.invariant (fun _ hstarts => World.Starts.invariant hstarts)
      fun _ _ _ hi hok hs => World.Invariant.step hi hok hs
  refine ⟨hinvariant.proven, fun removal hremoval held hheld => ?_, hinvariant.preserved⟩
  have hreported := hinvariant.reported removal hremoval held hheld
  refine ⟨hreported, fun hremoved => ?_⟩
  have hsettled := (List.nodup_append.mp hinvariant.distinct.nodup).2.1
  have hapart := (List.nodup_append.mp hsettled).2.2
  exact hapart _ (List.mem_map.mpr ⟨_, hreported, rfl⟩) _ hremoved rfl

end Results

/-- A run root whose landing released it, long ago. -/
def releasedRoot : RunRoot := ⟨.recover, "feature-1a-2b-0"⟩

/-- The family holds one run root, and no landing runs. -/
def releasedBefore : World Nat Unit where
  roots root := if root = releasedRoot then some ⟨.dir 0 [], none, false, [], true⟩ else none
  leases _ := Flock.free
  sweep := .walking (.start (.enforce .recover))
  landing _ := .idle
  clock := 2 * defaultMinAge
  retained := []
  reclaimed := []
  removals := []
  markings := []

theorem releasedBefore_starts : (sweepRuns Retire.twoCommits (.enforce .recover)).Initial
    releasedBefore := ⟨fun _ => rfl, rfl, fun _ => rfl, rfl, rfl, rfl⟩

/-- No question is asked about a clone. -/
def noWork : Work Nat := ⟨false, ⟨false, false, fun _ => .unread, fun _ => false⟩, fun _ => none⟩

def removesReleased : List (Label Nat Unit) :=
  [.sweep (.list [releasedRoot]), .sweep (.look true false), .sweep .lease,
    .sweep (.verdict false), .sweep (.walk []), .sweep .age, .sweep (.ask true []),
    .sweep (.judge noWork), .sweep (.stop false), .sweep (.remove none)]

theorem removedReleased_runs : ((sweepRuns Retire.twoCommits (.enforce .recover)).run
    releasedBefore removesReleased).isSome := by decide

def removedReleased : World Nat Unit :=
  ((sweepRuns Retire.twoCommits (.enforce .recover)).run releasedBefore removesReleased).get
    removedReleased_runs

theorem sweep_removes_dead_released :
    removedReleased.removals.map Removal.root = [releasedRoot] ∧
      ((∀ removal ∈ removedReleased.removals,
          removal.Proven Retire.twoCommits (Pass.enforce .recover).minAge) ∧
        (∀ removal ∈ removedReleased.removals, ∀ held ∈ removal.proof.newer,
          (held.root, Kept.holdsUnpublishedWork) ∈ removedReleased.retained ∧
            held.root ∉ removedReleased.removals.map Removal.root) ∧
        ∀ marking ∈ removedReleased.markings, marking.Preserved Retire.twoCommits) :=
  ⟨by decide, sweep_removes_dead Retire.twoCommits (.enforce .recover)
    (Foundations.System.reachableBy_of_run releasedBefore_starts (by decide)
      (Option.some_get removedReleased_runs).symm)⟩

def nothingCut : World Nat Unit where
  roots _ := none
  leases _ := Flock.free
  sweep := .walking (.start (.enforce .recover))
  landing _ := .idle
  clock := 0
  retained := []
  reclaimed := []
  removals := []
  markings := []

theorem nothingCut_starts : (sweepRuns Retire.twoCommits (.enforce .recover)).Initial
    nothingCut := ⟨fun _ => rfl, rfl, fun _ => rfl, rfl, rfl, rfl⟩

/-- A clone with a branch that is a commit ahead of origin. -/
def unlanded : Content Nat :=
  ⟨.dir 0 [], some ⟨[("feature", 1), ("main", 0)], [], [0]⟩, true, [], false⟩

/-- The branch did not land, by every read that decides it. -/
def notLanded : Work Nat :=
  ⟨true, ⟨true, true, fun _ => .counted, fun _ => true⟩, fun _ => some false⟩

/-- The checkout the branch was read out of does not have its commit. -/
def behind : Checkout Nat := ⟨fun _ => true, [0], fun _ => true⟩

/-- The landing is refused and ends, and its clone is not read as a repository. -/
def endsUnlanded : List (Label Nat Unit) :=
  [.landing () (.cut releasedRoot), .landing () .enter, .landing () (.build unlanded),
    .landing () .finish, .landing () .alone, .landing () (.ask true []),
    .landing () (.check false notLanded behind), .landing () (.stop false),
    .landing () (.mark (.dir 0 []))]

theorem unread_runs : ((sweepRuns Retire.twoCommits (.enforce .recover)).run nothingCut
    endsUnlanded).isSome := by decide

def unread : World Nat Unit :=
  ((sweepRuns Retire.twoCommits (.enforce .recover)).run nothingCut endsUnlanded).get unread_runs

/-- The run root is marked as released, and the commit of its branch is nowhere else. -/
theorem unread_marked : (sweepRuns Retire.twoCommits (.enforce .recover)).Reachable unread ∧
    ∃ marking ∈ unread.markings, ¬ marking.Preserved Retire.twoCommits := by
  refine ⟨Foundations.System.reachable_of_run nothingCut_starts
    (Option.some_get unread_runs).symm, ⟨releasedRoot, unlanded, notLanded, behind⟩, ?_, ?_⟩
  · exact List.Mem.head _
  · intro h
    rcases h _ rfl "feature" 1 ⟨rfl, by decide⟩ with hlanded | hreached
    · cases hlanded
    · revert hreached
      decide

end Onevcs.Sweep
