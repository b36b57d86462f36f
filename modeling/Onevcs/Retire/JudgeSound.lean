import Onevcs.Foundations.Outcome
import Onevcs.Retire.Judge

/-!
# What a proof about a copy shows

A copy is accounted for when the base reaches it, when a head the host reported merged
reaches the commit its content-free tail stops at, when a landing trailer on the base names
a commit it reaches through nothing but content-free commits, or when every path it changed
since the fork point reads on the base as on the copy.

Of the four, the last is read off a listing of names, and a listing one of whose names is
not text comes back empty. A copy is misread where that hides a path that differs.
-/

set_option linter.unusedSectionVars false

namespace Onevcs.Retire

open Foundations (History Text lines bind_eq_ok)

variable {κ ε : Type} [DecidableEq κ] [DecidableEq ε] (G : Commits κ ε)

/-! ## Accounting for a copy -/

/-- From one commit to another along first parents, through commits that change no content. -/
inductive FreeChain : κ → κ → Prop
  | here (commit : κ) : FreeChain commit commit
  | step {commit parent last : κ} : (G.history.parents commit).head? = some parent →
      G.tree commit = G.tree parent → FreeChain parent last → FreeChain commit last

/-- What a commit that may not be there has at a path. -/
def Commits.entryOf (commit : Option κ) (path : Path) : Option ε :=
  commit.bind fun commit => G.entry commit path

/-- A landing trailer on the base names a commit the tip reaches, and only content-free
commits come after it. -/
def Landed (key : Text) (tip baseTip : κ) : Prop :=
  ∃ landing message point, G.history.Reaches baseTip landing ∧
    G.message landing = some message ∧ point ∈ G.trailerValues message key ∧
    G.history.Reaches tip point ∧
    ∀ commit, G.history.Reaches tip commit → ¬ G.history.Reaches point commit →
      G.contentFree commit = true

/-- Every path that differs between the fork point and the tip reads alike on the base and
on the tip. -/
def SameEntries (tip baseTip : κ) : Prop :=
  ∀ path, G.entryOf (G.history.mergeBase baseTip tip) path ≠ G.entry tip path →
    G.entry baseTip path = G.entry tip path

/-- A three-way merge of one path; `none` is a conflict. -/
def mergeEntry (ancestor ours theirs : Option ε) : Option (Option ε) :=
  if ours = theirs then some ours
  else if ancestor = theirs then some ours
  else if ancestor = ours then some theirs
  else none

/-- Merging the tip into the base changes no path of the base. -/
def MergesToNothing (tip baseTip : κ) : Prop :=
  ∀ path, mergeEntry (G.entryOf (G.history.mergeBase baseTip tip) path) (G.entry baseTip path)
    (G.entry tip path) = some (G.entry baseTip path)

/-- A copy holds nothing beyond the base; `heads` are those the host reported merged. -/
def Accounted (key : Text) (heads : List κ) (tip baseTip : κ) : Prop :=
  G.history.Reaches baseTip tip ∨
  (∃ head ∈ heads, ∃ content, FreeChain G tip content ∧ G.history.Reaches head content) ∨
  Landed G key tip baseTip ∨
  (SameEntries G tip baseTip ∧ MergesToNothing G tip baseTip)

/-- Nothing but the comparison of paths could account for the copy, which changed only
paths that can be listed; the base differs on one of them, and on a path at or under one
of them that cannot. -/
def Misread (key : Text) (tip baseTip : κ) : Prop :=
  ¬ G.history.Reaches baseTip tip ∧ ¬ Landed G key tip baseTip ∧
  ∃ fork, G.history.mergeBase baseTip tip = some fork ∧
    (∀ path ∈ G.diff fork tip, isText path = true) ∧
    (∃ path ∈ G.diff fork tip, G.entry baseTip path ≠ G.entry tip path) ∧
    ∃ named ∈ G.diff fork tip, ∃ path ∈ G.diff tip baseTip,
      named.isPrefixOf path = true ∧ isText path = false

variable {G}

theorem mergeEntry_of_same {ancestor ours theirs : Option ε}
    (h : ancestor ≠ theirs → ours = theirs) : mergeEntry ancestor ours theirs = some ours := by
  unfold mergeEntry
  by_cases hsame : ours = theirs
  · rw [if_pos hsame]
  · have hancestor : ancestor = theirs := by
      by_contra hne
      exact hsame (h hne)
    rw [if_neg hsame, if_pos hancestor]

theorem SameEntries.mergesToNothing {tip baseTip : κ} (h : SameEntries G tip baseTip) :
    MergesToNothing G tip baseTip :=
  fun path => mergeEntry_of_same (h path)

variable {view : View κ}

theorem ask_ok {α : Type} {question : Question κ} {answer found : α}
    (h : view.ask question answer = .ok found) : found = answer := by
  unfold View.ask at h
  split at h
  · cases h
  · exact (Except.ok.inj h).symm

theorem mem_diff {first second : κ} {path : Path} :
    path ∈ G.diff first second ↔ G.entry first path ≠ G.entry second path := by
  have hthere : ∀ commit, G.entry commit path ≠ none → path ∈ (G.tree commit).map Prod.fst := by
    intro commit hentry
    obtain ⟨value, hvalue⟩ := Option.ne_none_iff_exists'.mp hentry
    obtain ⟨before, after, heq, -⟩ := List.lookup_eq_some_iff.mp hvalue
    rw [heq]
    simp
  unfold Commits.diff
  rw [List.mem_dedup, List.mem_filter, List.mem_append, decide_eq_true_eq]
  constructor
  · exact fun h => h.2
  · intro hne
    refine ⟨?_, hne⟩
    by_cases hfirst : G.entry first path = none
    · exact Or.inr (hthere second fun hsecond => hne (hfirst.trans hsecond.symm))
    · exact Or.inl (hthere first hfirst)

/-- The walk over a chain of first parents stops at the end of a content-free chain. -/
theorem tailWalk_free {stop : Option κ} {count : Nat} {commit last : κ} {skipped : List κ}
    (h : G.tailWalk stop (G.firstParents (count + 1) commit) = (skipped, some last)) :
    FreeChain G commit last := by
  induction count generalizing commit skipped with
  | zero =>
    have hone : G.firstParents 1 commit = [commit] := by
      simp only [Commits.firstParents]
      split <;> rfl
    rw [hone] at h
    obtain ⟨-, hlast⟩ := Prod.mk.inj h
    obtain rfl := Option.some.inj hlast
    exact .here _
  | succ count ih =>
    cases hparent : (G.history.parents commit).head? with
    | none =>
      have hone : G.firstParents (count + 1 + 1) commit = [commit] := by
        simp [Commits.firstParents, hparent]
      rw [hone] at h
      obtain ⟨-, hlast⟩ := Prod.mk.inj h
      obtain rfl := Option.some.inj hlast
      exact .here _
    | some parent =>
      obtain ⟨rest, hrest⟩ : ∃ rest, G.firstParents (count + 1) parent = parent :: rest :=
        ⟨_, rfl⟩
      have hcons : G.firstParents (count + 1 + 1) commit = commit :: parent :: rest := by
        rw [← hrest]
        simp [Commits.firstParents, hparent]
      rw [hcons] at h
      simp only [Commits.tailWalk] at h
      split at h
      · obtain ⟨-, hlast⟩ := Prod.mk.inj h
        obtain rfl := Option.some.inj hlast
        exact .here _
      · rename_i hgoes
        push Not at hgoes
        cases hwalk : G.tailWalk stop (parent :: rest) with
        | mk further reached =>
          rw [hwalk] at h
          obtain ⟨-, hlast⟩ := Prod.mk.inj h
          rw [← hrest, show reached = some last from hlast] at hwalk
          exact .step hparent hgoes.2 (ih hwalk)

theorem tailWalk_isSome (stop : Option κ) (commit : κ) (chain : List κ) :
    (G.tailWalk stop (commit :: chain)).2.isSome = true := by
  induction chain generalizing commit with
  | nil => rfl
  | cons parent rest ih =>
    simp only [Commits.tailWalk]
    split
    · rfl
    · exact ih parent

theorem contentFreeTail_ok {commit content : κ} {stop : Option κ} {skipped : List κ}
    (h : contentFreeTail G view commit stop = .ok (skipped, content)) :
    FreeChain G commit content := by
  obtain ⟨chain, hasked, hwalk⟩ := bind_eq_ok.mp h
  obtain rfl := ask_ok hasked
  cases hstop : G.tailWalk stop (G.firstParents (contentFreeWalk + 1) commit) with
  | mk skipped' last =>
    rw [hstop] at hwalk
    obtain ⟨-, hcontent⟩ := Prod.mk.inj (Except.ok.inj hwalk)
    have hsome : last.isSome = true := by
      have hisSome : (G.tailWalk stop (G.firstParents (contentFreeWalk + 1) commit)).2.isSome =
          true := tailWalk_isSome stop commit _
      rw [show last = (G.tailWalk stop (G.firstParents (contentFreeWalk + 1) commit)).2 by
        rw [hstop]]
      exact hisSome
    obtain ⟨found, rfl⟩ := Option.isSome_iff_exists.mp hsome
    obtain rfl : found = content := hcontent
    exact tailWalk_free hstop

/-! ## Landings -/

theorem knownToReach_ok {ancestor descendant : κ}
    (h : knownToReach G view ancestor descendant = .ok true) :
    G.history.Reaches descendant ancestor := by
  unfold knownToReach at h
  split at h
  · exact of_decide_eq_true (ask_ok h).symm
  · cases h

theorem allFree_ok {commits : List κ} (h : allFree G view commits = .ok true) :
    ∀ commit ∈ commits, G.contentFree commit = true := by
  induction commits with
  | nil => simp
  | cons commit rest ih =>
    obtain ⟨free, hfree, hrest⟩ := bind_eq_ok.mp h
    cases free with
    | false => cases hrest
    | true =>
      intro other hmem
      rcases List.mem_cons.mp hmem with rfl | hmem
      · exact (ask_ok hfree).symm
      · exact ih hrest other hmem

/-- A landing point that covers a tip is one the tip reaches through content-free commits. -/
theorem coveringPoint_ok {tip found : κ} {points : List κ}
    (h : coveringPoint G view tip points = .ok (some found)) :
    found ∈ points ∧ G.history.Reaches tip found ∧
      ∀ commit, G.history.Reaches tip commit → ¬ G.history.Reaches found commit →
        G.contentFree commit = true := by
  induction points with
  | nil => cases h
  | cons point rest ih =>
    have hlater : coveringPoint G view tip rest = .ok (some found) →
        found ∈ point :: rest ∧ G.history.Reaches tip found ∧
          ∀ commit, G.history.Reaches tip commit → ¬ G.history.Reaches found commit →
            G.contentFree commit = true := by
      intro hrest
      obtain ⟨hmem, hcovers⟩ := ih hrest
      exact ⟨List.mem_cons_of_mem _ hmem, hcovers⟩
    obtain ⟨reached, hreached, hnext⟩ := bind_eq_ok.mp h
    cases reached with
    | false => exact hlater hnext
    | true =>
      obtain ⟨after, hafter, hnext⟩ := bind_eq_ok.mp hnext
      obtain ⟨free, hfree, hnext⟩ := bind_eq_ok.mp hnext
      cases free with
      | false => exact hlater hnext
      | true =>
        obtain rfl := Option.some.inj (Except.ok.inj hnext)
        refine ⟨List.mem_cons_self .., knownToReach_ok hreached, ?_⟩
        intro commit htip hbeyond
        apply allFree_ok hfree commit
        obtain rfl := ask_ok hafter
        refine List.mem_filter.mpr ⟨History.mem_beyond.mpr ⟨htip, ?_⟩, ?_⟩
        · rintro ⟨only, honly, hreach⟩
          obtain rfl := List.mem_singleton.mp honly
          exact hbeyond hreach
        · refine decide_eq_true ?_
          rintro rfl
          exact hbeyond (History.Reaches.refl _)

theorem landed_of_point {key : Text} {tip baseTip landing point : κ}
    (hbase : G.history.Reaches baseTip landing)
    (hpoint : point ∈ G.trailerValues ((G.message landing).getD []) key)
    (hreach : G.history.Reaches tip point)
    (hfree : ∀ commit, G.history.Reaches tip commit → ¬ G.history.Reaches point commit →
      G.contentFree commit = true) : Landed G key tip baseTip := by
  cases hmessage : G.message landing with
  | none => simp [hmessage, Commits.trailerValues, lines] at hpoint
  | some message =>
    rw [hmessage] at hpoint
    exact ⟨landing, message, point, hbase, hmessage, hpoint, hreach, hfree⟩

theorem baseHistory_ok {fork : Option κ} {baseTip : κ} {history : List Text}
    (h : baseHistory G view fork baseTip = .ok history) {message : Text}
    (hmem : message ∈ history) :
    ∃ landing, G.history.Reaches baseTip landing ∧ G.message landing = some message := by
  cases fork with
  | none =>
    obtain rfl : [] = history := Except.ok.inj h
    simp at hmem
  | some fork =>
    obtain rfl := ask_ok h
    split at hmem
    · obtain ⟨read, hread, heq⟩ := List.mem_filterMap.mp hmem
      obtain ⟨landing, hlanding, rfl⟩ := List.mem_map.mp hread
      exact ⟨landing, (History.mem_beyond.mp hlanding).1, heq⟩
    · simp at hmem

theorem recordedPoints_ok {key : Text} {baseTip : κ} {evidence : Evidence κ} {points : List κ}
    (h : recordedPoints G view key baseTip evidence = .ok points) {point : κ}
    (hmem : point ∈ points) :
    ∃ landing, G.history.Reaches baseTip landing ∧
      point ∈ G.trailerValues ((G.message landing).getD []) key := by
  unfold recordedPoints at h
  split at h
  · rename_i landing _
    obtain ⟨reached, hreached, hnext⟩ := bind_eq_ok.mp h
    cases reached with
    | false =>
      obtain rfl : [] = points := Except.ok.inj hnext
      simp at hmem
    | true =>
      obtain ⟨read, hread, hnext⟩ := bind_eq_ok.mp hnext
      cases read with
      | none =>
        obtain rfl : [] = points := Except.ok.inj hnext
        simp at hmem
      | some message =>
        obtain rfl : G.trailerValues message key = points := Except.ok.inj hnext
        refine ⟨landing.commit, knownToReach_ok hreached, ?_⟩
        unfold commitMessage at hread
        split at hread
        · obtain rfl := Option.some.inj (ask_ok hread)
          exact hmem
        · cases hread
  · obtain rfl : [] = points := Except.ok.inj h
    simp at hmem

theorem recordedLanding_ok {key : Text} {tip baseTip : κ} {history : List Text}
    {evidence : Evidence κ} {proof : RetirementProof κ}
    (hhistory : ∀ message ∈ history, ∃ landing, G.history.Reaches baseTip landing ∧
      G.message landing = some message)
    (h : recordedLanding G view key tip baseTip history evidence = .ok (some proof)) :
    Landed G key tip baseTip := by
  obtain ⟨recorded, hrecorded, hnext⟩ := bind_eq_ok.mp h
  obtain ⟨found, hfound, hproof⟩ := bind_eq_ok.mp hnext
  obtain ⟨point, rfl, -⟩ := Option.map_eq_some_iff.mp (Except.ok.inj hproof)
  obtain ⟨hmem, hreach, hfree⟩ := coveringPoint_ok hfound
  rcases List.mem_append.mp hmem with hbase | hrecord
  · obtain ⟨message, hmessage, hpoint⟩ := List.mem_flatMap.mp hbase
    obtain ⟨landing, hlanding, heq⟩ := hhistory message hmessage
    exact landed_of_point hlanding (by rw [heq]; exact hpoint) hreach hfree
  · obtain ⟨landing, hlanding, hpoint⟩ := recordedPoints_ok hrecorded hrecord
    exact landed_of_point hlanding hpoint hreach hfree

theorem changedPaths_ok {first second : κ} {paths : List Path}
    (h : changedPaths G view first second = .ok paths) :
    paths = G.diff first second ∧ ∀ path ∈ G.diff first second, isText path = true := by
  obtain ⟨read, hread, hnext⟩ := bind_eq_ok.mp h
  obtain rfl := ask_ok hread
  by_cases hall : (G.diff first second).all isText = true
  · have hwhole : readListing (G.diff first second) = G.diff first second := by
      unfold readListing
      rw [if_pos hall]
    rw [hwhole] at hnext
    refine ⟨?_, List.all_eq_true.mp hall⟩
    split at hnext
    · exact (Except.ok.inj hnext).symm
    · rw [if_pos rfl] at hnext
      exact (Except.ok.inj hnext).symm
  · have hnone : readListing (G.diff first second) = [] := by
      unfold readListing
      rw [if_neg hall]
    rw [hnone] at hnext
    -- git counts the paths the listing lost
    have hsome : (G.diff first second).length ≠ 0 := by
      intro hzero
      rw [List.length_eq_zero_iff] at hzero
      simp [hzero] at hall
    simp [Ne.symm hsome] at hnext

/-- Where no path is found to differ, none under a changed path does, or one that does is
not text. -/
theorem differingAmong_nil {first second : κ} {paths : List Path}
    (h : differingAmong G view first second paths = .ok []) :
    (∀ path ∈ paths, G.entry first path = G.entry second path) ∨
      ∃ named ∈ paths, ∃ path ∈ G.diff first second,
        named.isPrefixOf path = true ∧ isText path = false := by
  unfold differingAmong at h
  by_cases hpaths : paths = []
  · exact Or.inl (by simp [hpaths])
  · rw [if_neg hpaths] at h
    have hlisted := ask_ok h
    unfold readListing at hlisted
    split at hlisted
    · refine Or.inl fun path hmem => ?_
      by_contra hdiffers
      have hfound : path ∈ (G.diff first second).filter fun path =>
          paths.any fun named => named.isPrefixOf path := by
        refine List.mem_filter.mpr ⟨mem_diff.mpr hdiffers, ?_⟩
        refine List.any_eq_true.mpr ⟨path, hmem, ?_⟩
        exact List.isPrefixOf_iff_prefix.mpr (List.prefix_refl path)
      rw [← hlisted] at hfound
      simp at hfound
    · rename_i hnot
      simp only [List.all_eq_true, not_forall] at hnot
      obtain ⟨path, hmem, hraw⟩ := hnot
      obtain ⟨hdiff, hunder⟩ := List.mem_filter.mp hmem
      obtain ⟨named, hnamed, hprefix⟩ := List.any_eq_true.mp hunder
      exact Or.inr ⟨named, hnamed, path, hdiff, hprefix, by simpa using hraw⟩

/-- Where no path a copy changed is found to differ, it is accounted for, or misread. -/
theorem differingPaths_nil {key : Text} {heads : List κ} {tip baseTip : κ}
    (h : differingPaths G view (G.history.mergeBase baseTip tip) tip baseTip = .ok []) :
    Accounted G key heads tip baseTip ∨ Misread G key tip baseTip := by
  have hsame : SameEntries G tip baseTip → Accounted G key heads tip baseTip :=
    fun hsame => Or.inr (Or.inr (Or.inr ⟨hsame, hsame.mergesToNothing⟩))
  unfold differingPaths at h
  cases hfork : G.history.mergeBase baseTip tip with
  | none =>
    rw [hfork] at h
    obtain ⟨hnone, -⟩ := changedPaths_ok h
    refine Or.inl (hsame fun path _ => ?_)
    by_contra hne
    have hmem := mem_diff.mpr hne
    rw [← hnone] at hmem
    simp at hmem
  | some fork =>
    rw [hfork] at h
    obtain ⟨paths, hpaths, hamong⟩ := bind_eq_ok.mp h
    obtain ⟨rfl, htext⟩ := changedPaths_ok hpaths
    by_cases hall : ∀ path ∈ G.diff fork tip, G.entry tip path = G.entry baseTip path
    · refine Or.inl (hsame fun path hpath => (hall path (mem_diff.mpr ?_)).symm)
      simpa [Commits.entryOf, hfork] using hpath
    · obtain hsame' | ⟨named, hnamed, path, hdiff, hprefix, hraw⟩ := differingAmong_nil hamong
      · exact absurd hsame' hall
      · by_cases hreached : G.history.Reaches baseTip tip
        · exact Or.inl (Or.inl hreached)
        · by_cases hlanded : Landed G key tip baseTip
          · exact Or.inl (Or.inr (Or.inr (Or.inl hlanded)))
          · simp only [not_forall] at hall
            obtain ⟨other, hother, hdiffers⟩ := hall
            exact Or.inr ⟨hreached, hlanded, fork, hfork, htext,
              ⟨other, hother, fun heq => hdiffers heq.symm⟩, named, hnamed, path, hdiff,
              hprefix, hraw⟩

/-- The heads the evidence says the host merged. -/
def Evidence.heads (evidence : Evidence κ) : List κ := (evidence.merged.map Merged.head).toList

theorem mergedProof_ok {content : κ} {evidence : Evidence κ} {proof : RetirementProof κ}
    (h : mergedProof G view content evidence = .ok (some proof)) :
    ∃ head ∈ evidence.heads, G.history.Reaches head content := by
  unfold mergedProof at h
  split at h
  · rename_i merged hmerged
    obtain ⟨reached, hreached, hnext⟩ := bind_eq_ok.mp h
    cases reached with
    | false => cases hnext
    | true =>
      exact ⟨merged.head, by simp [Evidence.heads, hmerged], knownToReach_ok hreached⟩
  · cases h

/-- A copy judged to stand at the base, or to have a proof, is accounted for, or misread. -/
theorem judgeCopy_accounted {key : Text} {tip baseTip : κ} {evidence : Evidence κ}
    {judged : Judged κ} (h : judgeCopy G view key tip baseTip evidence = .ok judged)
    (hholds : judged.atBase = true ∨ judged.proof.isSome = true) :
    Accounted G key evidence.heads tip baseTip ∨ Misread G key tip baseTip := by
  obtain ⟨fork, hfork, hnext⟩ := bind_eq_ok.mp h
  obtain rfl := ask_ok hfork
  split at hnext
  · rename_i hself
    exact Or.inl (Or.inl (History.mergeBase_eq_iff.mp hself))
  · obtain ⟨⟨free, content⟩, htail, hnext⟩ := bind_eq_ok.mp hnext
    obtain ⟨history, hhistory, hnext⟩ := bind_eq_ok.mp hnext
    obtain ⟨merged, hmerged, hnext⟩ := bind_eq_ok.mp hnext
    cases merged with
    | some proof =>
      obtain ⟨head, hhead, hreach⟩ := mergedProof_ok hmerged
      exact Or.inl (Or.inr (Or.inl ⟨head, hhead, content, contentFreeTail_ok htail, hreach⟩))
    | none =>
      obtain ⟨landing, hlanding, hnext⟩ := bind_eq_ok.mp hnext
      cases landing with
      | some proof =>
        exact Or.inl (Or.inr (Or.inr (Or.inl (recordedLanding_ok
          (fun message hmem => baseHistory_ok hhistory hmem) hlanding))))
      | none =>
        obtain ⟨differing, hdiffering, hnext⟩ := bind_eq_ok.mp hnext
        obtain rfl := Except.ok.inj hnext
        have hnone : differing = [] := by
          rcases hholds with hbase | hproof
          · cases hbase
          · by_contra hne
            simp [hne] at hproof
        subst hnone
        exact differingPaths_nil hdiffering

/-- A repository that has every commit and answers every question. -/
def View.whole : View κ := ⟨fun _ => true, fun _ => none⟩

/-- No record and no host says anything of the branch. -/
def Evidence.none : Evidence κ := ⟨.none, .none, .none, false⟩

theorem ask_whole {α : Type} (question : Question κ) (answer : α) :
    View.whole.ask question answer = .ok answer := rfl

theorem allFree_whole (commits : List κ) : ∃ free, allFree G View.whole commits = .ok free := by
  induction commits with
  | nil => exact ⟨true, rfl⟩
  | cons commit rest ih =>
    obtain ⟨free, hfree⟩ := ih
    cases hcommit : G.contentFree commit with
    | true => exact ⟨free, bind_eq_ok.mpr ⟨true, by rw [changesNoContent, ask_whole, hcommit],
        hfree⟩⟩
    | false => exact ⟨false, bind_eq_ok.mpr ⟨false, by rw [changesNoContent, ask_whole, hcommit],
        rfl⟩⟩

theorem coveringPoint_whole (tip : κ) (points : List κ) :
    ∃ found, coveringPoint G View.whole tip points = .ok found := by
  induction points with
  | nil => exact ⟨none, rfl⟩
  | cons point rest ih =>
    obtain ⟨later, hlater⟩ := ih
    by_cases hreach : G.history.Reaches tip point
    · obtain ⟨free, hfree⟩ := allFree_whole (G := G)
        ((G.history.beyond [point] tip).filter fun commit => commit ≠ point)
      have hreached : knownToReach G View.whole point tip = .ok true := by
        simp [knownToReach, View.whole, View.ask, hreach]
      cases free with
      | true => exact ⟨some point, bind_eq_ok.mpr ⟨true, hreached, bind_eq_ok.mpr
          ⟨_, rfl, bind_eq_ok.mpr ⟨true, hfree, rfl⟩⟩⟩⟩
      | false => exact ⟨later, bind_eq_ok.mpr ⟨true, hreached, bind_eq_ok.mpr
          ⟨_, rfl, bind_eq_ok.mpr ⟨false, hfree, hlater⟩⟩⟩⟩
    · have hreached : knownToReach G View.whole point tip = .ok false := by
        simp [knownToReach, View.whole, View.ask, hreach]
      exact ⟨later, bind_eq_ok.mpr ⟨false, hreached, hlater⟩⟩

/-- Where every changed path is text and one that differs is listed beside one that is
not, no path is found to differ. -/
theorem differingPaths_misread {fork tip baseTip : κ}
    (htext : ∀ path ∈ G.diff fork tip, isText path = true)
    {named path : Path} (hnamed : named ∈ G.diff fork tip) (hdiff : path ∈ G.diff tip baseTip)
    (hunder : named.isPrefixOf path = true) (hraw : isText path = false) :
    differingPaths G View.whole (some fork) tip baseTip = .ok [] := by
  have hwhole : readListing (G.diff fork tip) = G.diff fork tip := by
    unfold readListing
    rw [if_pos (List.all_eq_true.mpr htext)]
  have hne : G.diff fork tip ≠ [] := List.ne_nil_of_mem hnamed
  have hchanged : changedPaths G View.whole fork tip = .ok (G.diff fork tip) := by
    refine bind_eq_ok.mpr ⟨_, rfl, ?_⟩
    rw [hwhole, if_pos hne]
    rfl
  have hlost : readListing ((G.diff tip baseTip).filter fun path =>
      (G.diff fork tip).any fun named => named.isPrefixOf path) = [] := by
    unfold readListing
    rw [if_neg]
    intro hall
    have hmem : path ∈ (G.diff tip baseTip).filter fun path =>
        (G.diff fork tip).any fun named => named.isPrefixOf path :=
      List.mem_filter.mpr ⟨hdiff, List.any_eq_true.mpr ⟨named, hnamed, hunder⟩⟩
    have hpath := List.all_eq_true.mp hall path hmem
    rw [hraw] at hpath
    cases hpath
  refine bind_eq_ok.mpr ⟨_, hchanged, ?_⟩
  unfold differingAmong
  rw [if_neg hne, ask_whole, hlost]

/-- A misread copy is judged to have changed nothing the base lacks. -/
theorem judgeCopy_misread {key : Text} {tip baseTip : κ} (h : Misread G key tip baseTip) :
    ∃ fork free, judgeCopy G View.whole key tip baseTip Evidence.none =
      .ok ⟨false, fork, free, [], some (.contentIdentical baseTip)⟩ := by
  obtain ⟨hreached, hlanded, fork, hfork, htext, -, named, hnamed, path, hdiff, hunder, hraw⟩ := h
  have hdiffering := differingPaths_misread htext hnamed hdiff hunder hraw
  have hself : ¬ G.history.mergeBase baseTip tip = some tip :=
    fun hself => hreached (History.mergeBase_eq_iff.mp hself)
  -- nothing on the base covers the copy, whatever its messages come to
  have hlanding : ∀ history, baseHistory G View.whole (some fork) baseTip = .ok history →
      recordedLanding G View.whole key tip baseTip history Evidence.none = .ok none := by
    intro history hhistory
    obtain ⟨found, hfound⟩ := coveringPoint_whole (G := G) tip
      (history.flatMap fun message => G.trailerValues message key)
    have hproof : recordedLanding G View.whole key tip baseTip history Evidence.none =
        .ok (found.map .recordedLanding) := by
      refine bind_eq_ok.mpr ⟨[], rfl, bind_eq_ok.mpr ⟨found, ?_, rfl⟩⟩
      rwa [List.append_nil]
    cases found with
    | none => exact hproof
    | some point => exact absurd (recordedLanding_ok
        (fun message hmem => baseHistory_ok hhistory hmem) hproof) hlanded
  obtain ⟨history, hhistory⟩ : ∃ history,
      baseHistory G View.whole (some fork) baseTip = .ok history := ⟨_, rfl⟩
  obtain ⟨tail, htail⟩ : ∃ tail, contentFreeTail G View.whole tip (some fork) = .ok tail :=
    ⟨_, rfl⟩
  refine ⟨some fork, tail.1, bind_eq_ok.mpr ⟨some fork, by rw [mergeBase, ask_whole, hfork], ?_⟩⟩
  rw [if_neg (fun heq => hself (hfork.trans heq))]
  refine bind_eq_ok.mpr ⟨tail, htail, bind_eq_ok.mpr ⟨history, hhistory, ?_⟩⟩
  refine bind_eq_ok.mpr ⟨none, rfl, bind_eq_ok.mpr ⟨none, hlanding history hhistory, ?_⟩⟩
  exact bind_eq_ok.mpr ⟨[], hdiffering, rfl⟩

end Onevcs.Retire
