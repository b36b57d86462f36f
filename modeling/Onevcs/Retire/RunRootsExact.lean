import Onevcs.Retire.RunRoots

/-!
# What a removed run root held

A removal is accounted for when every read made of the clone was answered and every
commit a local branch or a worktree `HEAD` reaches is reached by an origin ref. Both
removals let a failed read pass for a clone that holds nothing, and neither looks at a
`HEAD` that stands on no branch; `RunRoot.WellRead` is the condition under which neither
matters.
-/

namespace Onevcs.Retire

open Foundations (History)

variable {κ : Type} [DecidableEq κ]

/-- The tips a count is asked for: those no origin ref stands at. -/
def Clone.asked (clone : Clone κ) : List κ :=
  (clone.heads.map Prod.snd).filter fun tip => tip ∉ clone.originTips

/-- Git had an answer to the count, if only that the reference is gone. -/
def Counting.answered : Counting → Bool
  | .counted | .gone => true
  | .declined | .unread => false

section Definitions

variable (H : History κ)

/-- Every commit the clone holds locally is reached by an origin ref. -/
def Clone.Published (clone : Clone κ) : Prop :=
  ∀ tip ∈ clone.localTips, ∀ commit, H.Reaches tip commit → H.Reached clone.originTips commit

/-- Every read the removals make of the run root's clone was answered. -/
def RunRoot.ReadsSucceeded (root : RunRoot κ) : Prop :=
  root.reads.repository = true ∧ ∀ clone ∈ root.clone,
    root.reads.listing = true ∧ ∀ tip ∈ clone.asked, root.reads.counting tip = .counted

/-- The reads succeeded, and the clone holds nothing that was not published. -/
def RunRoot.Accounted (root : RunRoot κ) : Prop :=
  root.ReadsSucceeded ∧ ∀ clone ∈ root.clone, clone.Published H

/-- No read went unanswered but a count of a tip that is gone, and either a count that was
got is not zero, or every count was got and origin reaches every detached `HEAD`. -/
def RunRoot.WellRead (root : RunRoot κ) : Prop :=
  root.reads.repository = true ∧ ∀ clone ∈ root.clone,
    root.reads.listing = true ∧
    (∀ tip ∈ clone.asked, (root.reads.counting tip).answered = true) ∧
    ((∃ tip ∈ clone.asked, root.reads.counting tip = .counted ∧
        ¬ H.Reached clone.originTips tip) ∨
      ((∀ tip ∈ clone.asked, root.reads.counting tip = .counted) ∧
        ∀ commit, .detached commit ∈ clone.worktrees → H.Reached clone.originTips commit))

/-- The branch is one `unpublished_branches` answers, once every count is answered. -/
def Clone.ahead (clone : Clone κ) (reads : Reads κ) (branch : String × κ) : Bool :=
  branch.2 ∉ clone.originTips && reads.counting branch.2 = .counted &&
    !decide (H.Reached clone.originTips branch.2)

end Definitions

variable {H : History κ} {clone : Clone κ} {reads : Reads κ} {root : RunRoot κ}

theorem mem_asked {tip : κ} :
    tip ∈ clone.asked ↔ (∃ name, (name, tip) ∈ clone.heads) ∧ tip ∉ clone.originTips := by
  simp [Clone.asked]

theorem ahead_pos_iff (tip : κ) :
    0 < (H.beyond clone.originTips tip).length ↔ ¬ H.Reached clone.originTips tip := by
  rw [List.length_pos_iff, ne_eq, History.beyond_eq_nil_iff]

theorem unpublishedAhead_nil (tip : κ) :
    unpublishedAhead H clone reads tip [] =
      match reads.counting tip with
      | .counted => .ok (H.beyond clone.originTips tip).length
      | .gone => .ok 0
      | .declined => .error (.uncounted tip)
      | .unread => .error (.notANumber tip) := by
  unfold unpublishedAhead
  cases reads.counting tip <;> simp

theorem unpublishedAmong_cons (branch : String × κ) (rest : List (String × κ)) :
    unpublishedAmong H clone reads (fun _ => true) [] (fun _ => none) (branch :: rest) =
      (if branch.2 ∈ clone.originTips then
        unpublishedAmong H clone reads (fun _ => true) [] (fun _ => none) rest
      else do
        let ahead ← unpublishedAhead H clone reads branch.2 []
        if 0 < ahead then
          return branch :: (← unpublishedAmong H clone reads (fun _ => true) [] (fun _ => none) rest)
        else unpublishedAmong H clone reads (fun _ => true) [] (fun _ => none) rest) := by
  simp [unpublishedAmong]

/-- Where every count is answered, the branches ahead of origin are listed. -/
theorem unpublishedAmong_answered (listed : List (String × κ))
    (hanswered : ∀ branch ∈ listed, branch.2 ∉ clone.originTips →
      (reads.counting branch.2).answered = true) :
    unpublishedAmong H clone reads (fun _ => true) [] (fun _ => none) listed =
      .ok (listed.filter (clone.ahead H reads)) := by
  induction listed with
  | nil => rfl
  | cons branch rest ih =>
    have hrest := ih fun other hmem => hanswered other (List.mem_cons_of_mem _ hmem)
    rw [unpublishedAmong_cons, hrest]
    by_cases horigin : branch.2 ∈ clone.originTips
    · simp [horigin, Clone.ahead]
    · have hone := hanswered branch (List.mem_cons_self ..) horigin
      rw [if_neg horigin, unpublishedAhead_nil]
      cases hcount : reads.counting branch.2 with
      | counted =>
        by_cases hreached : H.Reached clone.originTips branch.2
        · have hzero := History.beyond_eq_nil_iff.mpr hreached
          simp [Clone.ahead, horigin, hcount, hreached, hzero, bind, Except.bind]
        · have hpos := (ahead_pos_iff branch.2).mpr hreached
          simp [Clone.ahead, horigin, hcount, hreached, hpos, bind, Except.bind, pure,
            Except.pure]
      | gone => simp [Clone.ahead, horigin, hcount, bind, Except.bind]
      | declined => simp [hcount, Counting.answered] at hone
      | unread => simp [hcount, Counting.answered] at hone

theorem unpublishedAmong_unanswered (listed : List (String × κ)) {branch : String × κ}
    (hmem : branch ∈ listed) (horigin : branch.2 ∉ clone.originTips)
    (hanswered : (reads.counting branch.2).answered = false) :
    ∃ why, unpublishedAmong H clone reads (fun _ => true) [] (fun _ => none) listed =
      .error why := by
  induction listed with
  | nil => simp at hmem
  | cons first rest ih =>
    rw [unpublishedAmong_cons]
    rcases List.mem_cons.mp hmem with rfl | hlater
    · rw [if_neg horigin, unpublishedAhead_nil]
      cases hcount : reads.counting branch.2 with
      | counted => simp [hcount, Counting.answered] at hanswered
      | gone => simp [hcount, Counting.answered] at hanswered
      | declined => exact ⟨_, rfl⟩
      | unread => exact ⟨_, rfl⟩
    · -- the listing of the rest has failed, so whatever this branch comes to
      obtain ⟨why, hwhy⟩ := ih hlater
      rw [hwhy]
      split
      · exact ⟨why, rfl⟩
      · cases hahead : unpublishedAhead H clone reads first.2 [] with
        | error other => exact ⟨other, rfl⟩
        | ok ahead =>
          by_cases hpos : 0 < ahead
          · exact ⟨why, by simp [hpos, bind, Except.bind]⟩
          · exact ⟨why, by simp [hpos, bind, Except.bind]⟩

/-- What a removal takes for a clone that holds nothing: one that is not there, one whose
reads failed, and one no answered count of which is ahead of origin. -/
theorem unpublished_eq_nil_iff :
    root.unpublished H = [] ↔ ∀ clone ∈ root.clone, root.reads.repository = true →
      root.reads.listing = true →
      (∀ tip ∈ clone.asked, (root.reads.counting tip).answered = true) →
      ∀ tip ∈ clone.asked, root.reads.counting tip = .counted →
        H.Reached clone.originTips tip := by
  cases hclone : root.clone with
  | none => simp [RunRoot.unpublished, hclone]
  | some clone =>
    cases hrepo : root.reads.repository with
    | false => simp [RunRoot.unpublished, hclone, isRepo, hrepo]
    | true =>
      cases hlist : root.reads.listing with
      | false =>
        simp [RunRoot.unpublished, hclone, isRepo, hrepo, unpublishedBranches,
          unpublishedBranchesAmong, hlist, Except.map, Except.toOption]
      | true =>
        by_cases hanswered : ∀ tip ∈ clone.asked,
            (root.reads.counting tip).answered = true
        · have hall : unpublishedAmong H clone root.reads (fun _ => true) [] (fun _ => none)
              clone.heads = .ok (clone.heads.filter (clone.ahead H root.reads)) :=
            unpublishedAmong_answered clone.heads fun branch hmem horigin =>
              hanswered branch.2 (mem_asked.mpr ⟨⟨branch.1, hmem⟩, horigin⟩)
          have hlisted : root.unpublished H =
              (clone.heads.filter (clone.ahead H root.reads)).map Prod.fst := by
            simp [RunRoot.unpublished, hclone, isRepo, hrepo, unpublishedBranches,
              unpublishedBranchesAmong, hlist, hall, Except.map, Except.toOption]
          rw [hlisted, List.map_eq_nil_iff, List.filter_eq_nil_iff]
          constructor
          · rintro hnone _ ⟨⟩ - - - tip hasked hcount
            obtain ⟨⟨name, hhead⟩, horigin⟩ := mem_asked.mp hasked
            have hnot := hnone _ hhead
            simpa [Clone.ahead, horigin, hcount] using hnot
          · intro hreached branch hmem hahead
            simp only [Clone.ahead, Bool.and_eq_true, decide_eq_true_eq,
              Bool.not_eq_true', decide_eq_false_iff_not] at hahead
            obtain ⟨⟨horigin, hcount⟩, hnot⟩ := hahead
            exact hnot (hreached clone rfl rfl rfl hanswered branch.2
              (mem_asked.mpr ⟨⟨branch.1, hmem⟩, horigin⟩) hcount)
        · have hfailed : ∃ why, unpublishedAmong H clone root.reads (fun _ => true) []
              (fun _ => none) clone.heads = .error why := by
            push Not at hanswered
            obtain ⟨tip, hasked, hnot⟩ := hanswered
            obtain ⟨⟨name, hhead⟩, horigin⟩ := mem_asked.mp hasked
            exact unpublishedAmong_unanswered clone.heads hhead horigin
              (Bool.not_eq_true _ ▸ hnot)
          obtain ⟨why, hwhy⟩ := hfailed
          have hempty : root.unpublished H = [] := by
            simp [RunRoot.unpublished, hclone, isRepo, hrepo, unpublishedBranches,
              unpublishedBranchesAmong, hlist, hwhy, Except.map, Except.toOption]
          refine iff_of_true hempty ?_
          rintro _ ⟨⟩ - - hall
          exact absurd hall hanswered

omit [DecidableEq κ] in
theorem published_iff :
    clone.Published H ↔ ∀ tip ∈ clone.localTips, H.Reached clone.originTips tip :=
  ⟨fun h tip hmem => h tip hmem tip (History.Reaches.refl tip),
    fun h tip hmem _ hreach => (h tip hmem).down hreach⟩

instance : Decidable (clone.Published H) := decidable_of_iff _ published_iff.symm

instance : Decidable root.ReadsSucceeded :=
  inferInstanceAs (Decidable (_ ∧ ∀ clone ∈ root.clone, _ ∧ ∀ tip ∈ clone.asked, _))

instance : Decidable (root.Accounted H) :=
  inferInstanceAs (Decidable (_ ∧ ∀ clone ∈ root.clone, clone.Published H))

omit [DecidableEq κ] in
/-- Where origin reaches every local branch and every detached `HEAD`, it reaches all the
clone holds. -/
theorem published_of_reached
    (hheads : ∀ branch ∈ clone.heads, H.Reached clone.originTips branch.2)
    (hdetached : ∀ commit, .detached commit ∈ clone.worktrees →
      H.Reached clone.originTips commit) : clone.Published H := by
  refine published_iff.mpr fun tip htip => ?_
  rcases List.mem_append.mp htip with hhead | hworktree
  · obtain ⟨branch, hmem, rfl⟩ := List.mem_map.mp hhead
    exact hheads branch hmem
  · obtain ⟨head, hmem, hon⟩ := List.mem_filterMap.mp hworktree
    cases head with
    | branch name =>
      -- a worktree on a branch stands where the branch does
      obtain ⟨before, after, hheadsEq, -⟩ := List.lookup_eq_some_iff.mp hon
      exact hheads (name, tip) (by rw [hheadsEq]; simp)
    | detached commit =>
      obtain rfl : commit = tip := by simpa [Clone.headCommit] using hon
      exact hdetached commit hmem

/-- Finding nothing unpublished accounts for a run root exactly where it is well read. -/
theorem accounted_of_unpublished_nil_iff :
    (root.unpublished H = [] → root.Accounted H) ↔ root.WellRead H := by
  rw [unpublished_eq_nil_iff]
  constructor
  · intro haccounted
    have hrepo : root.reads.repository = true := by
      by_contra hnot
      exact hnot (haccounted fun _ _ hyes => absurd hyes hnot).1.1
    refine ⟨hrepo, fun clone hclone => ?_⟩
    have hlist : root.reads.listing = true := by
      by_contra hnot
      exact hnot ((haccounted fun _ _ _ hyes => absurd hyes hnot).1.2 clone hclone).1
    have hanswered : ∀ tip ∈ clone.asked, (root.reads.counting tip).answered = true := by
      by_contra hnot
      have hvacuous := haccounted fun other hother _ _ hall => by
        obtain rfl := Option.mem_unique hother hclone
        exact absurd hall hnot
      exact hnot fun tip hasked => by
        rw [(hvacuous.1.2 clone hclone).2 tip hasked]; rfl
    refine ⟨hlist, hanswered, ?_⟩
    by_cases hahead : ∃ tip ∈ clone.asked, root.reads.counting tip = .counted ∧
        ¬ H.Reached clone.originTips tip
    · exact Or.inl hahead
    · -- nothing is found ahead, so the run root goes, and is accounted for
      push Not at hahead
      have hgone := haccounted fun other hother _ _ _ tip hasked hcount => by
        obtain rfl := Option.mem_unique hother hclone
        exact hahead tip hasked hcount
      refine Or.inr ⟨(hgone.1.2 clone hclone).2, fun commit hmem => ?_⟩
      apply published_iff.mp (hgone.2 clone hclone)
      exact List.mem_append_right _ (List.mem_filterMap.mpr ⟨.detached commit, hmem, rfl⟩)
  · rintro ⟨hrepo, hwell⟩ hnothing
    have hcounted : ∀ clone ∈ root.clone,
        (∀ tip ∈ clone.asked, root.reads.counting tip = .counted) ∧
        ∀ commit, .detached commit ∈ clone.worktrees →
          H.Reached clone.originTips commit := by
      intro clone hclone
      obtain ⟨hlist, hanswered, ⟨tip, hasked, hcount, hnot⟩ | hall⟩ := hwell clone hclone
      · exact absurd (hnothing clone hclone hrepo hlist hanswered tip hasked hcount) hnot
      · exact hall
    refine ⟨⟨hrepo, fun clone hclone => ⟨(hwell clone hclone).1, (hcounted clone hclone).1⟩⟩,
      fun clone hclone => published_of_reached (fun branch hmem => ?_) (hcounted clone hclone).2⟩
    by_cases horigin : branch.2 ∈ clone.originTips
    · exact History.Reached.of_mem horigin
    · have hasked := mem_asked.mpr ⟨⟨branch.1, hmem⟩, horigin⟩
      obtain ⟨hlist, hanswered, -⟩ := hwell clone hclone
      exact hnothing clone hclone hrepo hlist hanswered branch.2 hasked
        ((hcounted clone hclone).1 branch.2 hasked)

/-! ## The removals -/

/-- Something stands in the way of the removal whatever the clone holds. -/
def Gates.shut (gates : Gates) : Bool :=
  !gates.holding.isEmpty || gates.exclusive != some true

/-- The walk takes the entry's run root in hand. -/
def Entry.taken (entry : Entry κ) : Bool := entry.free && entry.abandoned = some true

theorem removing_iff (gates : Gates) (root : RunRoot κ) :
    removing (removeRunRoot H gates root) = true ↔
      gates.shut = false ∧ root.unpublished H = [] := by
  have hrepo : isRepo root = false → root.unpublished H = [] := by
    intro hno
    simp only [RunRoot.unpublished, hno]
    split <;> rfl
  unfold removeRunRoot Gates.shut
  by_cases hholding : gates.holding.isEmpty
  · rcases hexclusive : gates.exclusive with - | - | -
    · simp [hholding, removing]
    · simp [hholding, removing]
    · by_cases hnone : root.unpublished H = []
      · cases hremovable : gates.removable <;> simp [hholding, removing, hnone]
      · have hyes : isRepo root = true := by
          by_contra hno
          exact hnone (hrepo (Bool.not_eq_true _ ▸ hno))
        simp [hholding, removing, hnone, hyes]
  · simp [hholding, removing]

/-- The walk removes what it takes in hand and finds holding nothing, up to the first
failure. -/
theorem walkEntries_removed (entries : List (Entry κ)) :
    (walkEntries H entries).removed =
      (entries.takeWhile fun entry => !entry.stops).filter fun entry =>
        entry.taken && (entry.root.unpublished H).isEmpty := by
  induction entries with
  | nil => rfl
  | cons entry rest ih =>
    by_cases hpassed : (!entry.isDir || entry.openAtSnapshot) = true
    · have hstops : entry.stops = false := by
        rcases Bool.or_eq_true _ _ ▸ hpassed with hdir | hopen
        · simp [Entry.stops, Bool.not_eq_true' _ ▸ hdir]
        · simp [Entry.stops, hopen]
      have htaken : entry.taken = false := by
        rcases Bool.or_eq_true _ _ ▸ hpassed with hdir | hopen
        · simp [Entry.taken, Entry.free, Bool.not_eq_true' _ ▸ hdir]
        · simp [Entry.taken, Entry.free, hopen]
      simp [walkEntries, hpassed, hstops, htaken, ih]
    · simp only [Bool.not_eq_true, Bool.or_eq_false_iff, Bool.not_eq_eq_eq_not,
        Bool.not_false] at hpassed
      obtain ⟨hdir, hopen⟩ := hpassed
      rcases hprobed : entry.probed with - | - | -
      · simp [walkEntries, hdir, hopen, hprobed, Entry.stops]
      · simp [walkEntries, hdir, hopen, hprobed, Entry.stops, Entry.taken, Entry.free, ih]
      · rcases habandoned : entry.abandoned with - | - | -
        · simp [walkEntries, hdir, hopen, hprobed, habandoned, Entry.stops]
        · simp [walkEntries, hdir, hopen, hprobed, habandoned, Entry.stops, Entry.taken,
            Entry.free, ih]
        · cases hempty : (entry.root.unpublished H).isEmpty <;>
            simp [walkEntries, hdir, hopen, hprobed, habandoned, Entry.stops, Entry.taken,
              Entry.free, hempty, ih]

theorem reclaim_removed (entries : List (Entry κ)) :
    (reclaim H entries).removed = (walkEntries H entries).removed := by
  unfold reclaim
  by_cases hstopped : (walkEntries H entries).stopped = true
  · simp [hstopped]
  · simp [hstopped]

/-- `remove_run_root` accounts for what it removes exactly where something stands in its
way or the clone is well read, and a walk for what it removes within its retention bound
exactly where every run root it takes in hand is well read. -/
theorem removals_accounted_iff (H : History κ) :
    (∀ (gates : Gates) (root : RunRoot κ),
      (removing (removeRunRoot H gates root) = true → root.Accounted H) ↔
        (gates.shut = true ∨ root.WellRead H)) ∧
    (∀ entries : List (Entry κ),
      (∀ entry ∈ (reclaim H entries).removed, entry.root.Accounted H) ↔
        ∀ entry ∈ entries.takeWhile fun entry => !entry.stops,
          entry.taken = true → entry.root.WellRead H) := by
  constructor
  · intro gates root
    rw [removing_iff, ← accounted_of_unpublished_nil_iff]
    cases gates.shut <;> simp
  · intro entries
    rw [reclaim_removed, walkEntries_removed]
    simp only [List.mem_filter, Bool.and_eq_true, List.isEmpty_iff,
      ← accounted_of_unpublished_nil_iff]
    constructor
    · intro hall entry hmem htaken hnone
      exact hall entry ⟨hmem, htaken, hnone⟩
    · rintro hall entry ⟨hmem, htaken, hnone⟩
      exact hall entry hmem htaken hnone

def twoCommits : History Nat where
  parents commit := if commit = 1 then [0] else []
  generation commit := commit
  older commit parent hparent := by
    split at hparent
    · obtain rfl := List.mem_singleton.mp hparent
      omega
    · simp at hparent

/-- A branch one commit ahead of origin, in a clone whose refs could not be listed. -/
def unlisted : RunRoot Nat where
  clone := some ⟨[("feature", 1), ("main", 0)], [.branch "feature"], [0]⟩
  reads := ⟨true, false, fun _ => .counted, fun _ => true⟩

/-- A commit no branch names, under a worktree's detached `HEAD`. -/
def adrift : RunRoot Nat where
  clone := some ⟨[("main", 0)], [.branch "main", .detached 1], [0]⟩
  reads := ⟨true, true, fun _ => .counted, fun _ => true⟩

/-- Either removal deletes both run roots, and neither is accounted for. -/
theorem unpublished_removed :
    (removing (removeRunRoot twoCommits ⟨[], some true, true⟩ unlisted) = true ∧
      (∃ entry ∈ (reclaim twoCommits [⟨unlisted, true, false, some true, some true, 0⟩]).removed,
        ¬ entry.root.Accounted twoCommits) ∧
      ¬ unlisted.Accounted twoCommits) ∧
    removing (removeRunRoot twoCommits ⟨[], some true, true⟩ adrift) = true ∧
      (∃ entry ∈ (reclaim twoCommits [⟨adrift, true, false, some true, some true, 0⟩]).removed,
        ¬ entry.root.Accounted twoCommits) ∧
      ¬ adrift.Accounted twoCommits := by
  decide +kernel

end Onevcs.Retire
