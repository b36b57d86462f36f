import Onevcs.Foundations.Calls
import Onevcs.Integrate.TrainLine

/-!
# What a candidate that is not landed leaves

A candidate's merges are committed on its own branch, before it is known to land: one that then
conflicts with an earlier candidate, or has no subject, is reported skipped and is not where it
was. And a git command that fails for one candidate ends the train, so that no later candidate is
tried.
-/

namespace Onevcs.Integrate

open Foundations

variable {κ : Type}

/-- It was left where it was, for a reason. -/
def Status.isSkipped : Status → Bool
  | .skipped _ => true
  | _ => false

/-- What git keeps of the checkout's branches when it fetches and pushes. -/
structure KeepsBranches (git : Git κ) : Prop where
  fetched : ∀ {refs after}, git.fetch refs = .ok after →
    ∀ name, after (headRef name) = refs (headRef name)
  pushed : ∀ {refs after}, git.push refs = .ok (some after) →
    ∀ name, after (headRef name) = refs (headRef name)

/-- A candidate that is reported skipped is where it was before the train, when the train ends and
at every point before; and every candidate is tried, whatever came of those before it. -/
structure HarmsNone [DecidableEq κ] (git : Git κ) (base : Text) (candidates : List Text)
    (push : Bool) (refs : Refs κ) : Prop where
  ended : ∀ outcome after, train git base candidates push refs = .ok (outcome, after) →
    ∀ offered ∈ outcome.branches, offered.status.isSkipped →
      after (headRef offered.branch) = refs (headRef offered.branch)
  left : ∀ fetched, fetchOrigin git refs = .ok fetched →
    ∀ tried later outcomes point, candidates = tried ++ later →
      offer git base (baseRef fetched base) tried fetched = .ok (outcomes, point) →
        ∀ offered ∈ outcomes, offered.status.isSkipped →
          point (headRef offered.branch) = refs (headRef offered.branch)
  tried : ∀ fetched, fetchOrigin git refs = .ok fetched →
    ∀ tried branch later, candidates = tried ++ branch :: later →
      ∃ outcomes point,
        offer git base (baseRef fetched base) tried fetched = .ok (outcomes, point)

/-- A candidate after both its merges, at `built`, is not skipped: it has the base's head, and a
subject. -/
def Lands (git : Git κ) (base branch : Text) (built : κ) (refs : Refs κ) : Prop :=
  Whenever (headSha refs base) fun head => Whenever (named refs branch) fun tip =>
    Whenever (git.isAncestor head tip) fun contained => contained = true ∧
      Whenever (named refs base) fun onto =>
        Whenever (git.publicationSubject onto built) fun subject => ∃ title, subject = .ok title

/-- A candidate in its worktree is skipped only where its merges added nothing to it. -/
def StaysInWorktree (git : Git κ) (base remoteBase branch : Text) (refs : Refs κ) : Prop :=
  Whenever (headSha refs branch) fun head => Whenever (named refs remoteBase) fun reference =>
    ∀ synced, git.mergeIntoBranch head reference (syncMessage remoteBase branch) =
        .ok (.settled synced) →
      Whenever (named (moveBranch refs branch synced) base) fun onto =>
        (∀ paths, git.mergeIntoBranch synced onto (trainMessage base branch) =
          .ok (.conflicted paths) → synced = head) ∧
        ∀ built, git.mergeIntoBranch synced onto (trainMessage base branch) =
          .ok (.settled built) → built = head ∨
            Lands git base branch built (moveBranch (moveBranch refs branch synced) branch built)

/-- A candidate with no provenance against it that a merge moved is not skipped after it. -/
def Stays (git : Git κ) (base remoteBase branch : Text) (refs : Refs κ) : Prop :=
  Whenever (named refs base) fun onto => Whenever (named refs branch) fun tip =>
    git.unrecognized onto tip = .ok [] → git.unattested onto tip = .ok 0 → branch ≠ base →
      git.worktreeAddExisting branch = .ok () → git.worktreeRemove = .ok () →
        StaysInWorktree git base remoteBase branch refs

/-- The commands of a squash answer. -/
def RunsSquash (git : Git κ) (base branch message : Text) (refs : Refs κ) : Prop :=
  Answers (named refs base) fun scratch => git.worktreeAddDetached scratch = .ok () ∧
    git.worktreeRemove = .ok () ∧ Answers (named refs branch) fun tip =>
      Answers (git.mergeSquash scratch tip message) fun squashed => ∀ sha, squashed = some sha →
        Answers (headSha refs base) fun head => ∃ advanced, git.mergeFfOnly head sha = .ok advanced

/-- The commands after both merges answer. -/
def RunsLand (git : Git κ) (base branch : Text) (built : κ) (refs : Refs κ) : Prop :=
  Answers (headSha refs base) fun head => Answers (named refs branch) fun tip =>
    Answers (git.isAncestor head tip) fun contained => contained = true →
      Answers (named refs base) fun onto =>
        Answers (git.publicationSubject onto built) fun subject => ∀ title, subject = .ok title →
          Answers (git.attestationTrailers onto built) fun attested =>
            Answers (git.logMessages onto built) fun messages =>
              RunsSquash git base branch (composeSquash title (git.references messages) attested)
                refs

/-- The commands in a candidate's worktree answer. -/
def RunsInWorktree (git : Git κ) (base remoteBase branch : Text) (refs : Refs κ) : Prop :=
  Answers (headSha refs branch) fun head => Answers (named refs remoteBase) fun reference =>
    Answers (git.mergeIntoBranch head reference (syncMessage remoteBase branch)) fun first =>
      ∀ synced, first = .settled synced →
        Answers (named (moveBranch refs branch synced) base) fun onto =>
          Answers (git.mergeIntoBranch synced onto (trainMessage base branch)) fun second =>
            ∀ built, second = .settled built →
              RunsLand git base branch built
                (moveBranch (moveBranch refs branch synced) branch built)

/-- No git command of a candidate fails: its branch is checked out nowhere else, and every command
given for it answers. -/
def Runs (git : Git κ) (base remoteBase branch : Text) (refs : Refs κ) : Prop :=
  Answers (named refs base) fun onto => Answers (named refs branch) fun tip =>
    Answers (git.unrecognized onto tip) fun prefixes => prefixes = [] →
      Answers (git.unattested onto tip) fun unattested => unattested = 0 →
        branch ≠ base ∧ git.worktreeAddExisting branch = .ok () ∧ git.worktreeRemove = .ok () ∧
          RunsInWorktree git base remoteBase branch refs

/-- Every candidate the train comes to stays where a merge did not move it or lands, and no command
of one but the last fails. -/
def StaysAndRuns (git : Git κ) (base : Text) (candidates : List Text) (refs : Refs κ) : Prop :=
  ∀ fetched, fetchOrigin git refs = .ok fetched →
    ∀ tried branch later outcomes point, candidates = tried ++ branch :: later →
      offer git base (baseRef fetched base) tried fetched = .ok (outcomes, point) →
        Stays git base (baseRef fetched base) branch point ∧
          (later ≠ [] → Runs git base (baseRef fetched base) branch point)

/-! ## One candidate -/

variable {git : Git κ} {base remoteBase branch message : Text} {refs after : Refs κ} {built : κ}

theorem answers_squashOnto_iff {scratch : κ} :
    Answers (squashOnto git base branch message scratch refs) (fun _ => True) ↔
      Answers (named refs branch) fun tip =>
        Answers (git.mergeSquash scratch tip message) fun squashed => ∀ sha, squashed = some sha →
          Answers (headSha refs base) fun head =>
            ∃ advanced, git.mergeFfOnly head sha = .ok advanced := by
  rw [squashOnto, answers_bind]
  refine answers_congr fun tip _ => ?_
  rw [answers_bind]
  refine answers_congr fun squashed _ => ?_
  cases squashed with
  | none => simp
  | some sha =>
    simp only [answers_bind, answers_pure, Option.some.injEq, forall_eq']
    exact answers_congr fun head _ => answers_true

theorem answers_squashPublish_iff :
    Answers (squashPublish git base branch message refs) (fun _ => True) ↔
      RunsSquash git base branch message refs := by
  simp only [squashPublish, RunsSquash, answers_bind, answers_squashOnto_iff]
  refine answers_congr fun scratch _ => ?_
  rw [answers_unit, answers_unit]

theorem answers_land_iff :
    Answers (land git base branch built refs) (fun _ => True) ↔
      RunsLand git base branch built refs := by
  simp only [land, RunsLand, answers_bind]
  refine answers_congr fun head _ => answers_congr fun tip _ => answers_congr fun contained _ => ?_
  cases contained with
  | false => simp
  | true =>
    simp only [Bool.not_true, Bool.false_eq_true, if_false, true_imp_iff, answers_bind]
    refine answers_congr fun onto _ => answers_congr fun subject _ => ?_
    cases subject with
    | error reason => simp
    | ok title =>
      simp only [answers_bind, Except.ok.injEq, forall_eq', answers_pure,
        ← answers_squashPublish_iff]

theorem answers_inWorktree_iff :
    Answers (inWorktree git base remoteBase branch refs) (fun _ => True) ↔
      RunsInWorktree git base remoteBase branch refs := by
  simp only [inWorktree, RunsInWorktree, answers_bind]
  refine answers_congr fun head _ => answers_congr fun reference _ => answers_congr fun first _ => ?_
  cases first with
  | conflicted paths => simp
  | settled synced =>
    simp only [mergeBase, answers_bind, Integrated.settled.injEq, forall_eq']
    refine answers_congr fun onto _ => answers_congr fun second _ => ?_
    cases second with
    | conflicted paths => simp
    | settled built =>
      simp only [answers_land_iff, Integrated.settled.injEq, forall_eq']

theorem answers_one_iff :
    Answers (one git base remoteBase branch refs) (fun _ => True) ↔
      Runs git base remoteBase branch refs := by
  simp only [one, Runs, answers_bind]
  refine answers_congr fun onto _ => answers_congr fun tip _ => answers_congr fun prefixes _ => ?_
  cases prefixes with
  | cons trailerPrefix rest => simp
  | nil =>
    simp only [answers_bind, true_imp_iff]
    refine answers_congr fun unattested _ => ?_
    by_cases hattested : unattested = 0
    · subst hattested
      by_cases hne : branch = base
      · simp [addWorktree, hne]
      · simp only [addWorktree, hne, ne_eq, not_true_eq_false, not_false_eq_true, if_false,
          true_and, true_imp_iff, answers_bind, answers_unit, answers_inWorktree_iff]
    · simp [hattested]

theorem whenever_land_skipped :
    Whenever (land git base branch built refs) fun did => did.1.isSkipped → did.2 = refs := by
  simp only [land, whenever_bind]
  refine .of_forall fun head => .of_forall fun tip => .of_forall fun contained => ?_
  cases contained with
  | false => simp
  | true =>
    simp only [Bool.not_true, Bool.false_eq_true, if_false, whenever_bind]
    refine .of_forall fun onto => .of_forall fun subject => ?_
    cases subject with
    | error reason => simp
    | ok title =>
      simp only [whenever_bind]
      refine .of_forall fun attested => .of_forall fun messages => .of_forall fun did => ?_
      cases hlanded : did.1 <;> simp [Status.isSkipped]

/-- What is promised of a candidate: where it is skipped, it is where it was. -/
def LeftAt (branch : Text) (refs : Refs κ) (did : Status × Refs κ) : Prop :=
  did.1.isSkipped → did.2 (headRef branch) = refs (headRef branch)

theorem whenever_land_iff {head : κ} {start : Refs κ} (hstart : start (headRef branch) = some head)
    (hat : refs (headRef branch) = some built) :
    Whenever (land git base branch built refs) (LeftAt branch start) ↔
      built = head ∨ Lands git base branch built refs := by
  by_cases hstay : built = head
  · subst hstay
    refine iff_of_true (whenever_land_skipped.mono fun did hdid hskipped => ?_) (.inl rfl)
    rw [hdid hskipped, hat, hstart]
  · rw [or_iff_right hstay]
    simp only [land, Lands, whenever_bind]
    refine whenever_congr fun other _ => whenever_congr fun tip _ =>
      whenever_congr fun contained _ => ?_
    cases contained with
    | false => simp [LeftAt, Status.isSkipped, hat, hstart, hstay]
    | true =>
      simp only [Bool.not_true, Bool.false_eq_true, if_false, whenever_bind, true_and]
      refine whenever_congr fun onto _ => whenever_congr fun subject _ => ?_
      cases subject with
      | error reason => simp [LeftAt, Status.isSkipped, hat, hstart, hstay]
      | ok title =>
        simp only [whenever_bind, Except.ok.injEq, exists_eq', iff_true]
        refine .of_forall fun attested => .of_forall fun messages => .of_forall fun did => ?_
        cases hlanded : did.1 <;> simp [LeftAt, Status.isSkipped]

theorem whenever_inWorktree_iff :
    Whenever (inWorktree git base remoteBase branch refs) (LeftAt branch refs) ↔
      StaysInWorktree git base remoteBase branch refs := by
  simp only [inWorktree, StaysInWorktree, whenever_bind]
  refine whenever_congr fun head hhead => whenever_congr fun reference _ => ?_
  rw [headSha_ok] at hhead
  constructor
  · intro hwhenever synced hmerge
    have hnext := hwhenever _ hmerge
    simp only [mergeBase, whenever_bind] at hnext
    refine hnext.mono fun onto honto => ⟨fun paths hsecond => ?_, fun built hsecond => ?_⟩
    · have hleft := honto _ hsecond
      simp only [whenever_pure, LeftAt, moveBranch_self, hhead] at hleft
      exact Option.some.inj (hleft rfl)
    · have hleft := honto _ hsecond
      exact (whenever_land_iff hhead (moveBranch_self _ _ _)).mp hleft
  · intro hstays first hfirst
    cases first with
    | conflicted paths => simp [LeftAt]
    | settled synced =>
      simp only [mergeBase, whenever_bind]
      refine (hstays synced hfirst).mono fun onto honto second hsecond => ?_
      cases second with
      | conflicted paths =>
        simp only [whenever_pure, LeftAt, moveBranch_self, hhead]
        intro _
        rw [honto.1 paths hsecond]
      | settled built =>
        exact (whenever_land_iff hhead (moveBranch_self _ _ _)).mpr (honto.2 built hsecond)

/-- A candidate that is reported skipped is where it was, exactly where it is not skipped after a
merge moved it. -/
theorem whenever_one_iff :
    Whenever (one git base remoteBase branch refs) (LeftAt branch refs) ↔
      Stays git base remoteBase branch refs := by
  simp only [one, Stays, whenever_bind]
  refine whenever_congr fun onto _ => whenever_congr fun tip _ => ?_
  rw [whenever_iff_of_forall_ne (a := [])]
  · refine imp_congr_right fun _ => ?_
    simp only [whenever_bind]
    rw [whenever_iff_of_forall_ne (a := 0)]
    · by_cases hne : branch = base
      · simp [addWorktree, hne]
      · simp only [addWorktree, hne, ne_eq, not_true_eq_false, not_false_eq_true, if_false,
          whenever_bind, whenever_unit, whenever_inWorktree_iff, true_imp_iff]
    · intro unattested hne
      simp [hne, LeftAt]
  · intro prefixes hne
    cases prefixes with
    | nil => exact absurd rfl hne
    | cons trailerPrefix rest => simp [LeftAt]

/-! ## What a candidate moves -/

/-- Only the base and the candidate are moved. -/
def MovesOnly (base branch : Text) (refs : Refs κ) (after : Refs κ) : Prop :=
  ∀ full, full ≠ headRef base → full ≠ headRef branch → after full = refs full

theorem MovesOnly.candidate (refs : Refs κ) (tip : κ) :
    MovesOnly base branch refs (moveBranch refs branch tip) :=
  fun _ _ hbranch => moveBranch_of_ne hbranch

theorem MovesOnly.trans {between : Refs κ} (h : MovesOnly base branch refs between)
    (h' : MovesOnly base branch between after) : MovesOnly base branch refs after :=
  fun full hbase hbranch => (h' full hbase hbranch).trans (h full hbase hbranch)

theorem squashPublish_movesOnly :
    Whenever (squashPublish git base branch message refs) fun did =>
      MovesOnly base branch refs did.2 := by
  simp only [squashPublish, squashOnto, whenever_bind]
  refine .of_forall fun scratch => .of_forall fun _ => .of_forall fun _ => .of_forall fun tip =>
    .of_forall fun squashed => ?_
  cases squashed with
  | none => simp [MovesOnly]
  | some sha =>
    simp only [whenever_bind, whenever_pure]
    exact .of_forall fun head => .of_forall fun advanced =>
      fun full hbase _ => moveBranch_of_ne hbase

theorem land_movesOnly :
    Whenever (land git base branch built refs) fun did => MovesOnly base branch refs did.2 := by
  simp only [land, whenever_bind]
  refine .of_forall fun head => .of_forall fun tip => .of_forall fun contained => ?_
  cases contained with
  | false => simp [MovesOnly]
  | true =>
    simp only [Bool.not_true, Bool.false_eq_true, if_false, whenever_bind]
    refine .of_forall fun onto => .of_forall fun subject => ?_
    cases subject with
    | error reason => simp [MovesOnly]
    | ok title =>
      simp only [whenever_bind, whenever_pure]
      exact .of_forall fun attested => .of_forall fun messages => squashPublish_movesOnly

theorem inWorktree_movesOnly :
    Whenever (inWorktree git base remoteBase branch refs) fun did =>
      MovesOnly base branch refs did.2 := by
  simp only [inWorktree, whenever_bind]
  refine .of_forall fun head => .of_forall fun reference => .of_forall fun first => ?_
  cases first with
  | conflicted paths => simp [MovesOnly]
  | settled synced =>
    simp only [mergeBase, whenever_bind]
    refine .of_forall fun onto => .of_forall fun second => ?_
    have hfirst : MovesOnly base branch refs (moveBranch refs branch synced) :=
      .candidate refs synced
    cases second with
    | conflicted paths => exact whenever_pure.mpr hfirst
    | settled built =>
      exact land_movesOnly.mono fun did hdid => (hfirst.trans (.candidate _ built)).trans hdid

theorem one_movesOnly :
    Whenever (one git base remoteBase branch refs) fun did => MovesOnly base branch refs did.2 := by
  simp only [one, whenever_bind]
  refine .of_forall fun onto => .of_forall fun tip => .of_forall fun prefixes => ?_
  cases prefixes with
  | cons trailerPrefix rest => simp [MovesOnly]
  | nil =>
    simp only [whenever_bind]
    refine .of_forall fun unattested => ?_
    split
    · simp [MovesOnly]
    · simp only [whenever_bind]
      exact .of_forall fun _ => .of_forall fun _ => inWorktree_movesOnly

section Offer

variable {tried : List Text} {outcomes : List BranchOutcome} {point : Refs κ} {fetched : Refs κ}

theorem offer_concat {answer : List BranchOutcome × Refs κ} :
    offer git base remoteBase (tried ++ [branch]) refs = .ok answer ↔
      ∃ outcomes point status after, offer git base remoteBase tried refs = .ok (outcomes, point) ∧
        one git base remoteBase branch point = .ok (status, after) ∧
        answer = (outcomes ++ [⟨branch, status⟩], after) := by
  induction tried generalizing refs answer with
  | nil =>
    simp only [List.nil_append, offer, bind_eq_ok]
    constructor
    · rintro ⟨⟨status, after⟩, hone, _, hnil, hanswer⟩
      obtain rfl := Except.ok.inj hnil
      exact ⟨[], refs, status, after, rfl, hone, (Except.ok.inj hanswer).symm⟩
    · rintro ⟨outcomes, point, status, after, hnil, hone, rfl⟩
      obtain ⟨rfl, rfl⟩ := Prod.mk.inj (Except.ok.inj hnil)
      exact ⟨(status, after), hone, ([], after), rfl, rfl⟩
  | cons first rest ih =>
    simp only [List.cons_append, offer, bind_eq_ok, ih]
    constructor
    · rintro ⟨⟨status, between⟩, hfirst, _, ⟨outcomes, point, last, after, hrest, hone, rfl⟩,
        hanswer⟩
      exact ⟨_, point, last, after, ⟨_, hfirst, _, hrest, rfl⟩, hone,
        (Except.ok.inj hanswer).symm⟩
    · rintro ⟨_, _, last, after, ⟨⟨status, between⟩, hfirst, ⟨outcomes, point⟩, hrest, hpair⟩,
        hone, rfl⟩
      obtain ⟨rfl, rfl⟩ := Prod.mk.inj (Except.ok.inj hpair)
      exact ⟨_, hfirst, _, ⟨outcomes, point, last, after, hrest, hone, rfl⟩, rfl⟩

theorem offer_frame (h : offer git base remoteBase tried refs = .ok (outcomes, point))
    {full : Text} (hbase : full ≠ headRef base) (hfull : ∀ branch ∈ tried, full ≠ headRef branch) :
    point full = refs full := by
  induction tried generalizing refs outcomes with
  | nil =>
    obtain ⟨-, rfl⟩ := Prod.mk.inj (Except.ok.inj h)
    rfl
  | cons first rest ih =>
    obtain ⟨⟨status, between⟩, hone, h⟩ := bind_eq_ok.mp h
    obtain ⟨⟨later, last⟩, hrest, h⟩ := bind_eq_ok.mp h
    obtain ⟨rfl, rfl⟩ := Prod.mk.inj (Except.ok.inj h)
    rw [ih hrest fun branch hbranch => hfull branch (List.mem_cons_of_mem _ hbranch)]
    exact one_movesOnly _ hone full hbase (hfull first List.mem_cons_self)

theorem offer_branches (h : offer git base remoteBase tried refs = .ok (outcomes, point)) :
    outcomes.map BranchOutcome.branch = tried := by
  induction tried generalizing refs outcomes with
  | nil =>
    obtain ⟨rfl, -⟩ := Prod.mk.inj (Except.ok.inj h)
    rfl
  | cons first rest ih =>
    obtain ⟨⟨status, between⟩, -, h⟩ := bind_eq_ok.mp h
    obtain ⟨⟨later, last⟩, hrest, h⟩ := bind_eq_ok.mp h
    obtain ⟨rfl, rfl⟩ := Prod.mk.inj (Except.ok.inj h)
    rw [List.map_cons, ih hrest]

/-- Every candidate offered so far that is reported skipped is where it was. -/
def LeavesSkipped (refs : Refs κ) (outcomes : List BranchOutcome) (point : Refs κ) : Prop :=
  ∀ offered ∈ outcomes, offered.status.isSkipped →
    point (headRef offered.branch) = refs (headRef offered.branch)

/-- A run of candidates that each stay where they are skipped. -/
theorem offer_leavesSkipped (hnodup : tried.Nodup) (hbase : base ∉ tried)
    (hstays : ∀ before branch later outcomes point, tried = before ++ branch :: later →
      offer git base remoteBase before refs = .ok (outcomes, point) →
        Stays git base remoteBase branch point)
    (h : offer git base remoteBase tried refs = .ok (outcomes, point)) :
    LeavesSkipped refs outcomes point := by
  induction tried using List.reverseRecOn generalizing outcomes point with
  | nil =>
    obtain ⟨rfl, -⟩ := Prod.mk.inj (Except.ok.inj h)
    simp [LeavesSkipped]
  | append_singleton before branch ih =>
    obtain ⟨earlier, between, status, after, hbefore, hone, heq⟩ := offer_concat.mp h
    obtain ⟨rfl, rfl⟩ := Prod.mk.inj heq
    obtain ⟨hnodup, -, hfresh⟩ := List.nodup_append.mp hnodup
    have hnot : ∀ other ∈ before, other ≠ branch := fun other hother =>
      hfresh other hother branch (List.mem_singleton_self _)
    have hbefore_base : base ∉ before := fun hmem => hbase (List.mem_append_left _ hmem)
    have hne : base ≠ branch := by
      rintro rfl
      exact hbase (List.mem_append_right _ (List.mem_singleton_self _))
    have hleft := ih hnodup hbefore_base (fun first other later _ _ hsplit hfirst =>
      hstays first other (later ++ [branch]) _ _ (by simp [hsplit]) hfirst) hbefore
    intro offered hoffered hskipped
    rcases List.mem_append.mp hoffered with hearlier | hlast
    · have hmem : offered.branch ∈ before := by
        rw [← offer_branches hbefore]
        exact List.mem_map_of_mem hearlier
      have hframe := one_movesOnly _ hone (headRef offered.branch)
        (fun heq => hbefore_base (headRef_injective heq ▸ hmem))
        (fun heq => hnot _ hmem (headRef_injective heq))
      exact hframe.trans (hleft offered hearlier hskipped)
    · obtain rfl := List.mem_singleton.mp hlast
      have hstay := whenever_one_iff.mpr (hstays before branch [] _ _ rfl hbefore) _ hone hskipped
      have hframe : between (headRef branch) = refs (headRef branch) := offer_frame hbefore
        (fun heq => hne (headRef_injective heq).symm) fun other hother heq =>
          hnot other hother (headRef_injective heq).symm
      exact hstay.trans hframe

end Offer

/-! ## The train -/

theorem KeepsBranches.fetchOrigin_eq (hkeeps : KeepsBranches git) {fetched : Refs κ}
    (h : fetchOrigin git refs = .ok fetched) (name : Text) :
    fetched (headRef name) = refs (headRef name) := by
  unfold fetchOrigin at h
  split at h
  · exact hkeeps.fetched h name
  · obtain rfl := Except.ok.inj h
    rfl

section Train

variable [DecidableEq κ] {candidates : List Text} {push : Bool}

theorem train_offer (hkeeps : KeepsBranches git) {outcome : Outcome}
    (h : train git base candidates push refs = .ok (outcome, after)) :
    ∃ fetched left, fetchOrigin git refs = .ok fetched ∧
      offer git base (baseRef fetched base) candidates fetched = .ok (outcome.branches, left) ∧
      ∀ name, after (headRef name) = left (headRef name) := by
  rw [train, bind_eq_ok] at h
  obtain ⟨fetched, hfetched, h⟩ := h
  rw [bind_eq_ok] at h
  obtain ⟨initial, -, h⟩ := h
  rw [bind_eq_ok] at h
  obtain ⟨⟨branches, left⟩, hoffer, h⟩ := h
  dsimp only at h
  rw [bind_eq_ok] at h
  obtain ⟨last, -, h⟩ := h
  refine ⟨fetched, left, calling_ok.mp hfetched, ?_⟩
  rw [calling_ok] at hoffer
  split at h
  · obtain ⟨rfl, rfl⟩ := Prod.mk.inj (Except.ok.inj h)
    exact ⟨hoffer, fun _ => rfl⟩
  · split at h
    · rw [bind_eq_ok] at h
      obtain ⟨pushed, hpush, h⟩ := h
      obtain ⟨rfl, rfl⟩ := Prod.mk.inj (Except.ok.inj h)
      exact ⟨hoffer, publish_ok hkeeps.pushed hpush⟩
    · obtain ⟨rfl, rfl⟩ := Prod.mk.inj (Except.ok.inj h)
      exact ⟨hoffer, fun _ => rfl⟩

end Train

/-! ## Three trains

The base `main` is at commit 0, and the candidate `foo` at 2. -/

section Samples

/-- A merge of origin's commit 5 into the candidate is 6, and the candidate has no subject. -/
def untitledGit : Git Nat :=
  { sampleGit with
    hasRemote := true
    mergeIntoBranch := fun head reference _ => .ok (.settled (if reference = 5 then 6 else head))
    isAncestor := fun _ _ => .ok true
    publicationSubject := fun _ _ => .ok (.error "no commit names a change".toList) }

def behindOrigin : Refs Nat :=
  Function.update untagged (remoteRef (originName main)) (some 5)

/-- The candidate `foo` is checked out in another worktree. -/
def checkedOutGit : Git Nat :=
  { sampleGit with
    worktreeAddExisting := fun branch =>
      if branch = foo then .error "already checked out".toList else .ok () }

def bar : Text := ['b', 'a', 'r']

/-- Another candidate beside it. -/
def twoCandidates : Refs Nat := moveBranch untagged bar 2

end Samples

end Onevcs.Integrate
