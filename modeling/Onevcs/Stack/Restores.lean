import Onevcs.Stack.Assemble

/-!
# When a failed assembly restores what it found

A call that fails after its session is open leaves the origin and the records as they were. Its
branch and what its worktree held uncommitted are as the call found them, or what the worktree held
is kept on the branch, unless resuming the session merged its base, a merge in progress was let go
with the session, or git refused to put the branch back from merges that were made.
-/

namespace Onevcs.Stack

open Foundations (Text)

variable {κ δ ε : Type}

def uncommitted (tree : Option (Tree κ δ)) : Option (Tree κ δ) :=
  match tree with
  | some .clean => none
  | tree => tree

/-- The branch and what its worktree holds uncommitted are as they were found, or what was found
uncommitted is committed on the branch. -/
def Restores (found : Session κ δ) (left : Left κ δ) : Prop :=
  (left.tip = some found.tip ∧ uncommitted left.tree = uncommitted found.tree) ∨
    ∃ content, found.tree = some (.dirty content) ∧
      left.tip = some (found.tip.preserved content) ∧ uncommitted left.tree = none

/-- A session whose worktree has a merge in progress. -/
def Session.isMerging (session : Session κ δ) : Bool :=
  match session.tree with
  | some (.merging _ _ _) => true
  | _ => false

/-- The resumed session's base is brought into its branch. -/
def Answers.movesTip (answers : Answers κ δ ε) (session : Session κ δ) : Bool :=
  match answers.baseMerge with
  | .merged base .settled => !session.tip.carries answers.reaches base
  | _ => false

/-- The merge of the resumed session's base stops on a conflict. -/
def Answers.conflictsBase (answers : Answers κ δ ε) : Bool :=
  match answers.baseMerge with
  | .merged _ (.conflicted _ _) => true
  | _ => false

/-- The first of the merges that the branch does not already carry settles. -/
def Answers.addsMerge (answers : Answers κ δ ε) (tip : Commit κ δ) : List (Text × κ) → Bool
  | [] => false
  | (name, head) :: rest =>
    match answers.isAncestor name with
    | some _ => false
    | none =>
      if tip.carries answers.reaches head then answers.addsMerge tip rest
      else
        match answers.headSha name, answers.merge name with
        | none, .settled => true
        | _, _ => false

/-- The close is refused before it reads the tree. -/
def Answers.refusesClose (answers : Answers κ δ ε) : Bool :=
  match answers.close with
  | .refused _ => true
  | _ => false

/-- When a call that fails restores what it found. -/
structure RestoresWhen (answers : Answers κ δ ε) (request : StackBaseRequest)
    (found : Session κ δ) : Prop where
  /-- Resuming the session leaves its branch where it was. -/
  base : found.isMerging = false → answers.movesTip (adopt found) = false
  /-- A merge that resuming the session left standing is let go. -/
  standing : found.isMerging = false → answers.conflictsBase = true → answers.refusesClose = false
  /-- A merge that was found in progress is not: the heads and the merge itself are read. -/
  resolution : found.isMerging = true → answers.refusesClose = true ∨
    (answers.mergeInProgress = none ∧ ∃ heads, readHeads answers request.parents = .ok heads)
  /-- Git takes the reset, or no merge was made. -/
  rewound : found.isMerging = false → answers.conflictsBase = false →
    answers.mergeInProgress = none → answers.headAtStart = none →
    ∀ heads root, readHeads answers request.parents = .ok heads → answers.root = some root →
      answers.resetHard = none ∨
        answers.addsMerge (adopt found).tip ((request.root, root) :: heads) = false

/-- How many commits were made on one there was. -/
def Commit.made : Commit κ δ → ℕ
  | .given _ => 0
  | .preserved tip _ => tip.made + 1
  | .mergedBase tip _ => tip.made + 1
  | .merged tip _ _ => tip.made + 1

variable {answers : Answers κ δ ε} {request : StackBaseRequest}

/-- What one merge does: nothing where the branch carries its head, a commit where it settles, and
otherwise it stops with the branch where it was. -/
inductive Merges (answers : Answers κ δ ε) (session : Session κ δ) (name : Text) (head : κ) :
    Session κ δ × Except (Failure ε) (Option (OpenConflict κ δ)) → Prop
  | carried :
      (∀ rest, answers.addsMerge session.tip ((name, head) :: rest) =
        answers.addsMerge session.tip rest) →
      Merges answers session name head (session, .ok none)
  | settled :
      (∀ rest, answers.addsMerge session.tip ((name, head) :: rest) = true) →
      Merges answers session name head ({ session with tip := session.tip.merged name head }, .ok none)
  | stopped {tree : Option (Tree κ δ)} {ended : Except (Failure ε) (Option (OpenConflict κ δ))} :
      (∀ rest, answers.addsMerge session.tip ((name, head) :: rest) = false) →
      tree = session.tree ∨ (∃ content unmerged head, tree = some (.merging content unmerged head)) →
      ended ≠ .ok none → Merges answers session name head ({ session with tree }, ended)

theorem merge_merges (answers : Answers κ δ ε) (session : Session κ δ) (name : Text) (head : κ) :
    Merges answers session name head (merge answers session name head) := by
  unfold merge
  cases hancestor : answers.isAncestor name with
  | some failure =>
    exact .stopped (fun rest => by rw [Answers.addsMerge, hancestor]) (.inl rfl) nofun
  | none =>
    cases hcarries : session.tip.carries answers.reaches head with
    | true =>
      exact .carried fun rest => by simp only [Answers.addsMerge, hancestor, hcarries, if_true]
    | false =>
      have hadds (rest : List (Text × κ)) :
          answers.addsMerge session.tip ((name, head) :: rest) =
            match answers.headSha name, answers.merge name with
            | none, .settled => true
            | _, _ => false := by
        simp only [Answers.addsMerge, hancestor, hcarries, Bool.false_eq_true, if_false]
      cases hhead : answers.headSha name with
      | some failure =>
        exact .stopped (fun rest => by rw [hadds, hhead]) (.inl rfl) nofun
      | none =>
        cases hmerge : answers.merge name with
        | settled => exact .settled fun rest => by rw [hadds, hhead, hmerge]
        | conflicted paths content =>
          exact .stopped (fun rest => by rw [hadds, hhead, hmerge])
            (.inr ⟨content, paths, head, rfl⟩) nofun
        | failed failure standing =>
          refine .stopped (fun rest => by rw [hadds, hhead, hmerge]) ?_ nofun
          cases standing with
          | none => exact .inl rfl
          | some content => exact .inr ⟨content, [], head, rfl⟩

theorem mergeAll_cons (session : Session κ δ) (name : Text) (head : κ) (rest : List (Text × κ)) :
    mergeAll answers session ((name, head) :: rest) =
      match merge answers session name head with
      | (session, .ok none) => mergeAll answers session rest
      | stopped => stopped := rfl

theorem mergeAll_of_stopped {session after : Session κ δ} {name : Text} {head : κ}
    {ended : Except (Failure ε) (Option (OpenConflict κ δ))}
    (h : merge answers session name head = (after, ended)) (hended : ended ≠ .ok none)
    (rest : List (Text × κ)) :
    mergeAll answers session ((name, head) :: rest) = (after, ended) := by
  rw [mergeAll_cons, h]
  split
  · next heq => exact absurd (Prod.mk.inj heq).2 hended
  · rfl

theorem mergeAll_grows (answers : Answers κ δ ε) (session : Session κ δ) (merges : List (Text × κ)) :
    session.tip.made ≤ (mergeAll answers session merges).1.tip.made := by
  induction merges generalizing session with
  | nil => exact Nat.le_refl _
  | cons entry rest ih =>
    obtain ⟨name, head⟩ := entry
    rcases hmerge : merge answers session name head with ⟨after, ended⟩
    cases hmerge ▸ merge_merges answers session name head with
    | carried _ =>
      rw [mergeAll_cons, hmerge]
      exact ih session
    | settled _ =>
      rw [mergeAll_cons, hmerge]
      exact Nat.le_trans (Nat.le_succ _) (ih { session with tip := session.tip.merged name head })
    | stopped _ _ hended =>
      rw [mergeAll_of_stopped hmerge hended]

/-- The merges leave the branch where the first of them that it does not carry does not settle, and
only there. -/
theorem mergeAll_tip (answers : Answers κ δ ε) (session : Session κ δ) (merges : List (Text × κ)) :
    (mergeAll answers session merges).1.tip = session.tip ↔
      answers.addsMerge session.tip merges = false := by
  induction merges with
  | nil => exact ⟨fun _ => rfl, fun _ => rfl⟩
  | cons entry rest ih =>
    obtain ⟨name, head⟩ := entry
    rcases hmerge : merge answers session name head with ⟨after, ended⟩
    cases hmerge ▸ merge_merges answers session name head with
    | carried hadds =>
      rw [mergeAll_cons, hmerge, hadds]
      exact ih
    | settled hadds =>
      rw [mergeAll_cons, hmerge, hadds]
      refine ⟨fun htip => ?_, nofun⟩
      have hgrows := mergeAll_grows answers
        { session with tip := session.tip.merged name head } rest
      have hmade := congrArg Commit.made htip
      simp only [Commit.made] at hgrows
      exact absurd (hgrows.trans_eq hmade) (Nat.not_succ_le_self _)
    | stopped hadds _ hended =>
      rw [mergeAll_of_stopped hmerge hended, hadds]
      exact ⟨fun _ => rfl, fun _ => rfl⟩

theorem mergeAll_carries (answers : Answers κ δ ε) {session : Session κ δ} {carried : κ}
    (h : session.tip.carries answers.reaches carried = true) (merges : List (Text × κ)) :
    (mergeAll answers session merges).1.tip.carries answers.reaches carried = true := by
  induction merges generalizing session with
  | nil => exact h
  | cons entry rest ih =>
    obtain ⟨name, head⟩ := entry
    rcases hmerge : merge answers session name head with ⟨after, ended⟩
    cases hmerge ▸ merge_merges answers session name head with
    | carried _ =>
      rw [mergeAll_cons, hmerge]
      exact ih h
    | settled _ =>
      rw [mergeAll_cons, hmerge]
      refine ih ?_
      rw [Commit.carries, h, Bool.true_or]
    | stopped _ _ hended =>
      rw [mergeAll_of_stopped hmerge hended]
      exact h

theorem abortMerge_mergeAll (answers : Answers κ δ ε) {session : Session κ δ} (hclean : session.tree = some .clean)
    (merges : List (Text × κ)) :
    (abortMerge (mergeAll answers session merges).1).tree = some .clean := by
  induction merges generalizing session with
  | nil => simp [mergeAll, abortMerge, hclean]
  | cons entry rest ih =>
    obtain ⟨name, head⟩ := entry
    rcases hmerge : merge answers session name head with ⟨after, ended⟩
    cases hmerge ▸ merge_merges answers session name head with
    | carried _ =>
      rw [mergeAll_cons, hmerge]
      exact ih hclean
    | settled _ =>
      rw [mergeAll_cons, hmerge]
      exact ih hclean
    | stopped _ htree hended =>
      rw [mergeAll_of_stopped hmerge hended]
      rcases htree with rfl | ⟨content, unmerged, head, rfl⟩
      · simp [abortMerge, hclean]
      · rfl

/-! ## The session that is opened -/

/-- How a session is handed over: with the merge it was found in, as it was adopted, or with its
base merged or left in a conflict. -/
inductive Resumed (answers : Answers κ δ ε) (found : Session κ δ) :
    Session κ δ → Option (OpenConflict κ δ) → Prop
  | held (conflict : Option (OpenConflict κ δ)) :
      found.isMerging = true → Resumed answers found found conflict
  | adopted : found.isMerging = false → answers.conflictsBase = false →
      answers.movesTip (adopt found) = false → Resumed answers found (adopt found) none
  | moved (tip : Commit κ δ) (base : κ) : found.isMerging = false →
      answers.conflictsBase = false → answers.movesTip (adopt found) = true →
      (adopt found).tip.carries answers.reaches base = false →
      tip.carries answers.reaches base = true → Resumed answers found { adopt found with tip } none
  | conflicted (content : δ) (unmerged : List Text) (head : κ) (conflict : OpenConflict κ δ) :
      found.isMerging = false → answers.conflictsBase = true →
      answers.movesTip (adopt found) = false →
      Resumed answers found
        { adopt found with tree := some (.merging content unmerged head) } (some conflict)

theorem exists_merging {found : Session κ δ} (h : found.isMerging = true) :
    ∃ content unmerged head, found.tree = some (.merging content unmerged head) := by
  unfold Session.isMerging at h
  split at h
  · next content unmerged head htree => exact ⟨content, unmerged, head, htree⟩
  · cases h

theorem adopt_of_merging {found : Session κ δ} (h : found.isMerging = true) :
    adopt found = found := by
  obtain ⟨content, unmerged, head, htree⟩ := exists_merging h
  simp only [adopt, preserve, htree]

theorem adopt_clean {found : Session κ δ} (h : found.isMerging = false) :
    (adopt found).tree = some .clean := by
  unfold Session.isMerging at h
  unfold adopt preserve
  cases htree : found.tree with
  | none => rfl
  | some tree =>
    cases tree with
    | clean => exact htree
    | dirty content => rfl
    | merging content unmerged head => simp [htree] at h

theorem integrate_resumed {found session : Session κ δ} {conflict : Option (OpenConflict κ δ)}
    (hfound : found.isMerging = false) {base : κ} {ended : Merging δ ε}
    (hbase : answers.baseMerge = .merged base ended)
    (h : integrate answers (adopt found) base ended = (session, .ok conflict)) :
    Resumed answers found session conflict := by
  cases ended with
  | settled =>
    obtain ⟨rfl, hconflict⟩ := Prod.mk.inj h
    obtain rfl := Except.ok.inj hconflict
    have hconflicts : answers.conflictsBase = false := by rw [Answers.conflictsBase, hbase]
    have hmoves : answers.movesTip (adopt found) =
        !(adopt found).tip.carries answers.reaches base := by rw [Answers.movesTip, hbase]
    cases hcarries : (adopt found).tip.carries answers.reaches base with
    | true =>
      rw [hcarries] at hmoves
      exact .adopted hfound hconflicts hmoves
    | false =>
      rw [hcarries] at hmoves
      refine .moved _ base hfound hconflicts hmoves hcarries ?_
      simp only [Bool.false_eq_true, if_false]
      split
      · exact answers.reaches_self base
      · rw [Commit.carries, answers.reaches_self, Bool.or_true]
  | conflicted paths content =>
    obtain ⟨rfl, hconflict⟩ := Prod.mk.inj h
    obtain rfl := Except.ok.inj hconflict
    exact .conflicted content paths base _ hfound (by rw [Answers.conflictsBase, hbase])
      (by rw [Answers.movesTip, hbase])
  | failed failure standing => cases (Prod.mk.inj h).2

theorem resume_resumed {found session : Session κ δ} {conflict : Option (OpenConflict κ δ)}
    (h : resume answers found = (session, .ok conflict)) :
    Resumed answers found session conflict := by
  unfold resume at h
  cases hadopts : answers.adopts with
  | some failure => simp [hadopts] at h
  | none =>
    cases hopens : answers.opens with
    | some failure => simp [hadopts, hopens] at h
    | none =>
      simp only [hadopts, hopens] at h
      cases hmerging : found.isMerging with
      | true =>
        obtain ⟨content, unmerged, head, htree⟩ := exists_merging hmerging
        rw [adopt_of_merging hmerging] at h
        simp only [htree] at h
        have hsession : found = session := by
          cases unmerged with
          | nil =>
            cases hbase : answers.baseMerge with
            | left =>
              simp only [hbase] at h
              exact (Prod.mk.inj h).1
            | merged base ended =>
              simp only [hbase] at h
              cases (Prod.mk.inj h).2
          | cons path paths => exact (Prod.mk.inj h).1
        subst hsession
        exact .held conflict hmerging
      | false =>
        have hclean := adopt_clean hmerging
        simp only [hclean] at h
        cases hbase : answers.baseMerge with
        | left =>
          simp only [hbase] at h
          obtain ⟨rfl, hconflict⟩ := Prod.mk.inj h
          obtain rfl := Except.ok.inj hconflict
          exact .adopted hmerging (by rw [Answers.conflictsBase, hbase])
            (by rw [Answers.movesTip, hbase])
        | merged base ended =>
          simp only [hbase] at h
          exact integrate_resumed hmerging hbase h

theorem close_of_clean {session : Session κ δ} (hclean : session.tree = some .clean)
    (closing : Closing ε) :
    (close session closing).tip = some session.tip ∧
      uncommitted (close session closing).tree = none := by
  have hkept : preserve (abortMerge session) = session := by
    simp only [preserve, abortMerge, hclean]
  unfold close
  rw [hkept]
  cases closing with
  | refused failure => exact ⟨rfl, by rw [Session.left, hclean]; rfl⟩
  | stopped copied failure => exact ⟨rfl, by simp only [hclean, uncommitted]⟩
  | removed copied => exact ⟨rfl, rfl⟩
  | returned copied => cases copied <;> exact ⟨rfl, rfl⟩

theorem close_of_merging (answers : Answers κ δ ε) {session : Session κ δ} {content : δ} {unmerged : List Text} {head : κ}
    (hmerging : session.tree = some (.merging content unmerged head)) :
    (close session answers.close).tip = some session.tip ∧
      uncommitted (close session answers.close).tree =
        if answers.refusesClose then session.tree else none := by
  have hkept : preserve (abortMerge session) = { session with tree := some .clean } := by
    simp only [preserve, abortMerge, hmerging]
  unfold close Answers.refusesClose
  rw [hkept]
  cases answers.close with
  | refused failure => exact ⟨rfl, by simp only [Session.left, hmerging]; rfl⟩
  | stopped copied failure => exact ⟨rfl, rfl⟩
  | removed copied => exact ⟨rfl, rfl⟩
  | returned copied => cases copied <;> exact ⟨rfl, rfl⟩

/-- A session found without a merge is restored where nothing stays uncommitted and its branch is
where it was once its worktree was committed. -/
theorem restores_iff_tip {found : Session κ δ} (hfound : found.isMerging = false)
    {left : Left κ δ} (hleft : uncommitted left.tree = none) :
    Restores found left ↔ left.tip = some (adopt found).tip := by
  unfold Restores
  rw [hleft]
  cases htree : found.tree with
  | none => simp [adopt, htree, uncommitted]
  | some tree =>
    cases tree with
    | clean => simp [adopt, preserve, htree, uncommitted]
    | dirty content => simp [adopt, preserve, htree, uncommitted]
    | merging content unmerged head => simp [Session.isMerging, htree] at hfound

theorem not_restores_of_standing {found : Session κ δ} (hfound : found.isMerging = false)
    {left : Left κ δ} {content : δ} {unmerged : List Text} {head : κ}
    (hleft : uncommitted left.tree = some (.merging content unmerged head)) :
    ¬ Restores found left := by
  unfold Restores
  rw [hleft]
  cases htree : found.tree with
  | none => simp [uncommitted]
  | some tree =>
    cases tree with
    | clean => simp [uncommitted]
    | dirty content => simp [uncommitted]
    | merging content unmerged head => simp [Session.isMerging, htree] at hfound

/-- A session found with a merge in progress is restored where that merge stands on its branch. -/
theorem restores_iff_standing {found : Session κ δ} (hfound : found.isMerging = true)
    {left : Left κ δ} (htip : left.tip = some found.tip) :
    Restores found left ↔ uncommitted left.tree = found.tree := by
  obtain ⟨content, unmerged, head, htree⟩ := exists_merging hfound
  unfold Restores
  simp [htip, htree, uncommitted]

/-- How an assembly fails: before it reads the session, over a merge it cannot read or that is not
concluded, before it merges, or after it began to. -/
inductive Fails (answers : Answers κ δ ε) (request : StackBaseRequest) (session : Session κ δ)
    (conflict : Option (OpenConflict κ δ)) : Session κ δ → Failed κ δ ε → Prop
  | unread (error : Failure ε) : readHeads answers request.parents = .error error →
      Fails answers request session conflict session ⟨error, false, none⟩
  | unprobed (failure : ε) : conflict = none → answers.mergeInProgress = some failure →
      Fails answers request session conflict session ⟨.failed failure, false, none⟩
  | kept (heads : List (Text × κ)) : conflict = none →
      readHeads answers request.parents = .ok heads →
      answers.mergeInProgress = none → session.isMerging = true →
      Fails answers request session conflict session ⟨.syncConflict, true, none⟩
  | unstarted (error : Failure ε) : conflict = none → session.isMerging = false →
      (answers.headAtStart ≠ none ∨ answers.root = none) →
      Fails answers request session conflict session ⟨error, false, none⟩
  | undone (heads : List (Text × κ)) (root : κ) (error : Failure ε) : conflict = none →
      session.isMerging = false → answers.mergeInProgress = none → answers.headAtStart = none →
      readHeads answers request.parents = .ok heads → answers.root = some root →
      Fails answers request session conflict
        (mergeAll answers session ((request.root, root) :: heads)).1
        ⟨error, false, some session.tip⟩

theorem pushMerged_fails [DecidableEq κ] [DecidableEq δ] {heads : List (Text × κ)} {start : Commit κ δ} {root : κ}
    {merged after : Session κ δ} {ended : Except (Failure ε) (Option (OpenConflict κ δ))}
    {failed : Failed κ δ ε}
    (h : pushMerged answers request heads start root (merged, ended) = (after, .error failed)) :
    after = merged ∧ ∃ error, failed = ⟨error, false, some start⟩ := by
  unfold pushMerged at h
  split at h
  · next session error heq =>
    obtain ⟨rfl, rfl⟩ := Prod.mk.inj heq
    obtain ⟨rfl, hfailed⟩ := Prod.mk.inj h
    exact ⟨rfl, error, (Except.error.inj hfailed).symm⟩
  · cases (Prod.mk.inj h).2
  · next session heq =>
    obtain ⟨rfl, rfl⟩ := Prod.mk.inj heq
    split at h
    · next failure hend =>
      obtain ⟨rfl, hfailed⟩ := Prod.mk.inj h
      exact ⟨rfl, _, (Except.error.inj hfailed).symm⟩
    · next hend =>
      split at h
      · next failure honOrigin hbehind =>
        obtain ⟨rfl, hfailed⟩ := Prod.mk.inj h
        exact ⟨rfl, _, (Except.error.inj hfailed).symm⟩
      · split at h
        · cases (Prod.mk.inj h).2
        · split at h
          · next error hpush =>
            obtain ⟨rfl, hfailed⟩ := Prod.mk.inj h
            exact ⟨rfl, error, (Except.error.inj hfailed).symm⟩
          · cases (Prod.mk.inj h).2

theorem assembleIn_fails [DecidableEq κ] [DecidableEq δ] {session after : Session κ δ}
    {conflict : Option (OpenConflict κ δ)} {failed : Failed κ δ ε}
    (h : assembleIn answers request session conflict = (after, .error failed)) :
    Fails answers request session conflict after failed := by
  unfold assembleIn at h
  cases hheads : readHeads answers request.parents with
  | error error =>
    simp only [hheads] at h
    obtain ⟨rfl, hfailed⟩ := Prod.mk.inj h
    obtain rfl := Except.error.inj hfailed
    exact .unread error hheads
  | ok heads =>
    simp only [hheads] at h
    cases conflict with
    | some conflict => cases (Prod.mk.inj h).2
    | none =>
      dsimp only at h
      split at h
      · next failure hprobe =>
        obtain ⟨rfl, hfailed⟩ := Prod.mk.inj h
        obtain rfl := Except.error.inj hfailed
        exact .unprobed failure rfl hprobe
      · next hprobe htree =>
        obtain ⟨rfl, hfailed⟩ := Prod.mk.inj h
        obtain rfl := Except.error.inj hfailed
        exact .kept heads rfl hheads hprobe (by rw [Session.isMerging, htree])
      · next hprobe htree =>
        have hmerging : session.isMerging = false := by
          unfold Session.isMerging
          split
          · next hsome => exact absurd hsome (htree _ _ _)
          · rfl
        split at h
        · next failure hstart =>
          obtain ⟨rfl, hfailed⟩ := Prod.mk.inj h
          obtain rfl := Except.error.inj hfailed
          exact .unstarted _ rfl hmerging (.inl (by rw [hstart]; rintro ⟨⟩))
        · next hstart =>
          split at h
          · next hroot =>
            obtain ⟨rfl, hfailed⟩ := Prod.mk.inj h
            obtain rfl := Except.error.inj hfailed
            exact .unstarted _ rfl hmerging (.inr hroot)
          · next root hroot =>
            obtain ⟨rfl, error, rfl⟩ := pushMerged_fails h
            exact .undone heads root error rfl hmerging hprobe hstart hheads hroot

/-- A call that fails in a session that was opened leaves what it puts back, the origin and the
records as they were. -/
theorem assemble_fails [DecidableEq κ] [DecidableEq δ] {found session : Session κ δ}
    {conflict : Option (OpenConflict κ δ)} (hopened : resume answers found = (session, .ok conflict)) {origin : Option (Commit κ δ)}
    {records : List (StackBase κ δ)} {failure : Failure ε}
    (hfailed : (assemble answers request found origin records).2 = .error failure) :
    ∃ after failed, Fails answers request session conflict after failed ∧
      (assemble answers request found origin records).1 =
        ⟨putBack answers after failed, origin, records⟩ := by
  unfold assemble at hfailed ⊢
  rw [hopened] at hfailed ⊢
  dsimp only at hfailed ⊢
  rcases hin : assembleIn answers request session conflict with ⟨after, ended⟩
  rw [hin] at hfailed
  cases ended with
  | error failed => exact ⟨after, failed, assembleIn_fails hin, rfl⟩
  | ok assembled =>
    dsimp only at hfailed
    split at hfailed
    · cases hfailed
    · cases hfailed
    · cases hfailed
    · cases hfailed

/-- The branch is put back from merges where git takes the reset, and stays where they left it
where it does not. -/
theorem putBack_of_undone (answers : Answers κ δ ε) {session : Session κ δ} (hclean : session.tree = some .clean)
    (error : Failure ε) (merges : List (Text × κ)) :
    (putBack answers (mergeAll answers session merges).1 ⟨error, false, some session.tip⟩).tip =
        some (if answers.resetHard.isNone then session.tip
          else (mergeAll answers session merges).1.tip) ∧
      uncommitted (putBack answers (mergeAll answers session merges).1
        ⟨error, false, some session.tip⟩).tree = none := by
  unfold putBack
  cases answers.resetHard with
  | none => exact close_of_clean rfl answers.close
  | some failure =>
    have htip (session : Session κ δ) : (abortMerge session).tip = session.tip := by
      unfold abortMerge
      split <;> rfl
    have hclosed := close_of_clean (abortMerge_mergeAll answers hclean merges) answers.close
    rw [htip] at hclosed
    exact hclosed

section Restored

variable {found session after : Session κ δ} {conflict : Option (OpenConflict κ δ)}
  {failed : Failed κ δ ε}

theorem restores_iff_of_held (hfound : found.isMerging = true)
    (h : Fails answers request found conflict after failed) :
    Restores found (putBack answers after failed) ↔ RestoresWhen answers request found := by
  obtain ⟨content, unmerged, head, htree⟩ := exists_merging hfound
  have hwhen : RestoresWhen answers request found ↔ answers.refusesClose = true ∨
      (answers.mergeInProgress = none ∧
        ∃ heads, readHeads answers request.parents = .ok heads) := by
    constructor
    · exact fun hwhen => hwhen.resolution hfound
    · intro hresolution
      refine ⟨fun hnot => ?_, fun hnot => ?_, fun _ => hresolution, fun hnot => ?_⟩
      all_goals
        rw [hfound] at hnot
        cases hnot
  have hclosed : Restores found (close found answers.close) ↔ answers.refusesClose = true := by
    obtain ⟨htip, hleft⟩ := close_of_merging answers htree
    rw [restores_iff_standing hfound htip, hleft]
    cases answers.refusesClose <;> simp [htree]
  rw [hwhen]
  cases h with
  | unread error hheads =>
    refine hclosed.trans ⟨.inl, fun hresolution => hresolution.resolve_right ?_⟩
    rintro ⟨-, heads, hok⟩
    rw [hheads] at hok
    cases hok
  | unprobed failure _ hprobe =>
    refine hclosed.trans ⟨.inl, fun hresolution => hresolution.resolve_right ?_⟩
    rintro ⟨hnone, -⟩
    rw [hprobe] at hnone
    cases hnone
  | kept heads _ hheads hprobe _ =>
    have hleft : Restores found found.left := .inl ⟨rfl, rfl⟩
    exact ⟨fun _ => .inr ⟨hprobe, heads, hheads⟩, fun _ => hleft⟩
  | unstarted _ _ hmerging _ =>
    rw [hfound] at hmerging
    cases hmerging
  | undone _ _ _ _ hmerging _ _ _ _ =>
    rw [hfound] at hmerging
    cases hmerging

theorem restores_iff_of_adopted (hfound : found.isMerging = false)
    (hconflicts : answers.conflictsBase = false) (hmoves : answers.movesTip (adopt found) = false)
    (h : Fails answers request (adopt found) conflict after failed) :
    Restores found (putBack answers after failed) ↔ RestoresWhen answers request found := by
  have hclean := adopt_clean hfound
  have hwhen (hrewound : answers.mergeInProgress = none → answers.headAtStart = none →
      ∀ heads root, readHeads answers request.parents = .ok heads → answers.root = some root →
        answers.resetHard = none ∨
          answers.addsMerge (adopt found).tip ((request.root, root) :: heads) = false) :
      RestoresWhen answers request found := by
    refine ⟨fun _ => hmoves, fun _ hbase => ?_, fun hmerging => ?_, fun _ _ => hrewound⟩
    · rw [hconflicts] at hbase
      cases hbase
    · rw [hfound] at hmerging
      cases hmerging
  have hclosed : Restores found (close (adopt found) answers.close) := by
    obtain ⟨htip, hleft⟩ := close_of_clean hclean answers.close
    exact (restores_iff_tip hfound hleft).mpr htip
  cases h with
  | unread error hheads =>
    refine ⟨fun _ => hwhen fun _ _ heads root hok _ => ?_, fun _ => hclosed⟩
    rw [hheads] at hok
    cases hok
  | unprobed failure _ hprobe =>
    refine ⟨fun _ => hwhen fun hnone _ => ?_, fun _ => hclosed⟩
    rw [hprobe] at hnone
    cases hnone
  | kept heads _ _ _ hmerging =>
    rw [Session.isMerging, hclean] at hmerging
    cases hmerging
  | unstarted error _ _ hstart =>
    refine ⟨fun _ => hwhen fun _ hhead heads root _ hroot => ?_, fun _ => hclosed⟩
    rcases hstart with hstart | hnone
    · exact absurd hhead hstart
    · rw [hnone] at hroot
      cases hroot
  | undone heads root error _ _ hprobe hstart hheads hroot =>
    obtain ⟨htip, hleft⟩ := putBack_of_undone answers hclean error
      ((request.root, root) :: heads)
    rw [restores_iff_tip hfound hleft, htip]
    cases hreset : answers.resetHard with
    | none => exact ⟨fun _ => hwhen fun _ _ _ _ _ _ => .inl hreset, fun _ => rfl⟩
    | some failure =>
      have htip : (some (mergeAll answers (adopt found) ((request.root, root) :: heads)).1.tip =
            some (adopt found).tip) ↔
          answers.addsMerge (adopt found).tip ((request.root, root) :: heads) = false := by
        rw [Option.some_inj]
        exact mergeAll_tip _ _ _
      refine htip.trans ⟨fun hadds => hwhen fun _ _ others other hothers hother => .inr ?_,
        fun hrestores => ?_⟩
      · obtain rfl := Except.ok.inj (hheads.symm.trans hothers)
        obtain rfl := Option.some.inj (hroot.symm.trans hother)
        exact hadds
      · have hrewound := hrestores.rewound hfound hconflicts hprobe hstart heads root hheads hroot
        rw [hreset] at hrewound
        exact hrewound.resolve_left nofun

/-- A session whose base was brought into its branch: whatever is put back carries it. -/
theorem not_restores_of_moved {tip : Commit κ δ} {base : κ} (hfound : found.isMerging = false)
    (hbefore : (adopt found).tip.carries answers.reaches base = false)
    (hcarries : tip.carries answers.reaches base = true)
    (h : Fails answers request { adopt found with tip } conflict after failed) :
    ¬ Restores found (putBack answers after failed) := by
  have hclean : ({ adopt found with tip } : Session κ δ).tree = some .clean := adopt_clean hfound
  have hmoved {left : Left κ δ} {at' : Commit κ δ} (htip : left.tip = some at')
      (hleft : uncommitted left.tree = none) (hat : at'.carries answers.reaches base = true) :
      ¬ Restores found left := by
    rw [restores_iff_tip hfound hleft, htip, Option.some_inj]
    rintro rfl
    rw [hbefore] at hat
    cases hat
  obtain ⟨htip, hleft⟩ := close_of_clean hclean answers.close
  cases h with
  | unread error _ => exact hmoved htip hleft hcarries
  | unprobed failure _ _ => exact hmoved htip hleft hcarries
  | kept heads _ _ _ hmerging =>
    rw [Session.isMerging, hclean] at hmerging
    cases hmerging
  | unstarted error _ _ _ => exact hmoved htip hleft hcarries
  | undone heads root error _ _ _ _ _ _ =>
    obtain ⟨htip, hleft⟩ := putBack_of_undone answers hclean error
      ((request.root, root) :: heads)
    refine hmoved htip hleft ?_
    split
    · exact hcarries
    · exact mergeAll_carries answers hcarries _

/-- A session that was handed over with its base's conflict. -/
theorem restores_iff_of_conflicted {content : δ} {unmerged : List Text} {head : κ}
    {handed : OpenConflict κ δ} (hfound : found.isMerging = false)
    (hconflicts : answers.conflictsBase = true) (hmoves : answers.movesTip (adopt found) = false)
    (h : Fails answers request
      { adopt found with tree := some (.merging content unmerged head) } (some handed) after failed) :
    Restores found (putBack answers after failed) ↔ RestoresWhen answers request found := by
  have hwhen : RestoresWhen answers request found ↔ answers.refusesClose = false := by
    refine ⟨fun hwhen => hwhen.standing hfound hconflicts, fun hcloses => ?_⟩
    refine ⟨fun _ => hmoves, fun _ _ => hcloses, fun hmerging => ?_, fun _ hnone => ?_⟩
    · rw [hfound] at hmerging
      cases hmerging
    · rw [hconflicts] at hnone
      cases hnone
  rw [hwhen]
  cases h with
  | unread error _ =>
    have hmerging : ({ adopt found with tree := some (.merging content unmerged head) } :
        Session κ δ).tree = some (.merging content unmerged head) := rfl
    obtain ⟨htip, hleft⟩ := close_of_merging answers hmerging
    cases hrefuses : answers.refusesClose with
    | true =>
      rw [hrefuses] at hleft
      exact ⟨fun hrestores => absurd hrestores (not_restores_of_standing hfound hleft), nofun⟩
    | false =>
      rw [hrefuses] at hleft
      exact ⟨fun _ => rfl, fun _ => (restores_iff_tip hfound hleft).mpr htip⟩
  | unprobed _ hnone _ => cases hnone
  | kept _ hnone _ _ _ => cases hnone
  | unstarted _ hnone _ _ => cases hnone
  | undone _ _ _ hnone _ _ _ _ _ => cases hnone

end Restored

/-- A call that fails once its session is open leaves the origin and the records, and restores what
it found exactly where `RestoresWhen` holds. -/
theorem restores_iff [DecidableEq κ] [DecidableEq δ] {found session : Session κ δ}
    {conflict : Option (OpenConflict κ δ)}
    (hopened : resume answers found = (session, .ok conflict)) {origin : Option (Commit κ δ)}
    {records : List (StackBase κ δ)} {failure : Failure ε}
    (hfailed : (assemble answers request found origin records).2 = .error failure) :
    (Restores found (assemble answers request found origin records).1.session ∧
      (assemble answers request found origin records).1.origin = origin ∧
      (assemble answers request found origin records).1.records = records) ↔
      RestoresWhen answers request found := by
  obtain ⟨after, failed, hfails, hafter⟩ := assemble_fails hopened hfailed
  rw [hafter]
  have hrestores :
      Restores found (putBack answers after failed) ↔ RestoresWhen answers request found := by
    cases resume_resumed hopened with
    | held _ hfound => exact restores_iff_of_held hfound hfails
    | adopted hfound hconflicts hmoves =>
      exact restores_iff_of_adopted hfound hconflicts hmoves hfails
    | moved tip base hfound _ hmoves hbefore hcarries =>
      have hnot := not_restores_of_moved hfound hbefore hcarries hfails
      refine ⟨fun hrestores => absurd hrestores hnot, fun hwhen => ?_⟩
      have hstays := hwhen.base hfound
      rw [hmoves] at hstays
      cases hstays
    | conflicted content unmerged head handed hfound hconflicts hmoves =>
      exact restores_iff_of_conflicted hfound hconflicts hmoves hfails
  exact ⟨fun h => hrestores.mp h.1, fun h => ⟨hrestores.mpr h, rfl, rfl⟩⟩

/-- The root at 2 and a parent at 3, each merged without a conflict, and a push that is declined. -/
def declinedAnswers : Answers ℕ ℕ Unit where
  reaches commit head := decide (commit = head)
  reaches_self _ := decide_eq_true rfl
  adopts := none
  opens := none
  baseMerge := .left
  unconcluded := ()
  heads _ := some 3
  root := some 2
  mergeInProgress := none
  headAtStart := none
  isAncestor _ := none
  headSha _ := none
  merge _ := .settled
  headAtEnd := none
  onOrigin := some (.given 1)
  behind := none
  guardPublication := none
  push := .declined ()
  resetHard := none
  close := .removed true

/-- The parent `b` is gone from the origin. -/
def goneAnswers : Answers ℕ ℕ Unit :=
  { declinedAnswers with heads := fun name => if name = ['b'] then none else some 3 }

def stackRequest : StackBaseRequest where
  branch := "stack-base/plan/node".toList
  root := ['m']
  parents := [['a'], ['b']]

/-- A session with the merge of 3 resolved as 7 and not committed. -/
def resolvedSession : Session ℕ ℕ where
  tip := .given 1
  tree := some (.merging 7 [] 3)
  copy := none

def changedSession : Session ℕ ℕ where
  tip := .given 1
  tree := some (.dirty 7)
  copy := none

/-- A resolution nobody committed is let go with its session where a parent's head is not read. -/
theorem resolution_discarded :
    resume goneAnswers resolvedSession = (resolvedSession, .ok none) ∧
      (assemble goneAnswers stackRequest resolvedSession (some (.given 1)) []).2 =
        .error (.notOnOrigin ['b']) ∧
      ¬ Restores resolvedSession
        (assemble goneAnswers stackRequest resolvedSession (some (.given 1)) []).1.session := by
  refine ⟨by decide, by decide, ?_⟩
  rintro (⟨-, hleft⟩ | ⟨content, hdirty, -⟩)
  · exact absurd hleft (by decide)
  · cases hdirty

theorem declined_restores :
    Restores changedSession
        (assemble declinedAnswers stackRequest changedSession (some (.given 1)) []).1.session ∧
      (assemble declinedAnswers stackRequest changedSession (some (.given 1)) []).1.origin =
        some (.given 1) ∧
      (assemble declinedAnswers stackRequest changedSession (some (.given 1)) []).1.records = [] := by
  have hopened : resume declinedAnswers changedSession =
      ({ tip := .preserved (.given 1) 7, tree := some .clean,
          copy := some (.preserved (.given 1) 7) }, .ok none) := rfl
  have hfailed : (assemble declinedAnswers stackRequest changedSession (some (.given 1)) []).2 =
      .error (.pushRejected ()) := by decide
  exact (restores_iff hopened hfailed).mpr
    ⟨fun _ => rfl, fun _ => nofun, nofun, fun _ _ _ _ _ _ _ _ => .inl rfl⟩

end Onevcs.Stack
