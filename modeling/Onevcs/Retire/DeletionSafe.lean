import Onevcs.Retire.Deletion

/-!
# Only what was classified is deleted

An attempt is covered when what it deleted is among the copies its own classification was
made from, under a class that may be deleted, every one of them read and read again. It
is put back when, a copy having been found at another tip, each copy it deleted was
either put back or found taken or refused by git.
-/

set_option linter.unusedSectionVars false

namespace Onevcs.Retire


section Definitions

variable {κ : Type} [DecidableEq κ] (setting : Setting κ)

/-- What the attempt deleted, it had classified: under a class that may be deleted, with
the base and every place read, and every copy unmoved when read again. -/
structure Attempt.Covered (attempt : Attempt κ) : Prop where
  classified : ∀ copy ∈ attempt.deletions, copy ∈ attempt.classified.copies.copies
  permitted : attempt.deletions ≠ [] → setting.acting.permits
    attempt.classified.retirement.retirementClass attempt.classified.retirement.reason = true
  based : attempt.deletions ≠ [] →
    setting.census.base.isSome = true ∧ setting.census.baseTip.isSome = true
  readable : attempt.deletions ≠ [] → attempt.classified.copies.unreadable = []
  unmoved : attempt.deletions ≠ [] → attempt.reread = some attempt.classified.copies

/-- Where a copy was found at another tip, what was deleted was tried to be put back. -/
def Attempt.PutBack (attempt : Attempt κ) : Prop :=
  attempt.found ≠ [] → ∀ copy ∈ attempt.deletions, ∃ outcome, (copy, outcome) ∈ attempt.restores

/-- The attempts whose putting back is over. -/
def World.settled (s : World κ) : List (Attempt κ) :=
  match s.phase with
  | .restoring _ _ _ => s.attempts.tail
  | _ => s.attempts

/-- The answer is that the branch is kept, for a reason nobody could decide. -/
def Phase.keptUnknown (phase : Phase κ) : Bool :=
  match phase with
  | .answered (.kept retirement) =>
    retirement.retirementClass = .keep && retirement.reason = some .unknown
  | _ => false

/-- What became of putting a copy back agrees with the step that wrote it down. -/
def Restored.Happened (label : Label κ) (s s' : World κ) (copy : Copy κ) : Restored κ → Prop
  | .back => s.refs copy.holding = none ∧ s'.refs copy.holding = some copy.tip
  | .taken now => s.refs copy.holding = some now
  | .refused => label = .restore false

/-- The refs a step changes are those its attempt deletes or puts back, and it writes down
only what it does. -/
structure Effects (label : Label κ) (s s' : World κ) : Prop where
  refs : ∀ holding, s'.refs holding ≠ s.refs holding → ∃ attempt ∈ s'.attempts.head?, ∃ tip,
    (s.refs holding = some tip ∧ s'.refs holding = none ∧ ⟨holding, tip⟩ ∈ attempt.deletions) ∨
    (s.refs holding = none ∧ s'.refs holding = some tip ∧
      (⟨holding, tip⟩, .back) ∈ attempt.restores)
  restores : ∀ attempt ∈ s'.attempts.head?, ∀ copy outcome, (copy, outcome) ∈ attempt.restores →
    (∃ before ∈ s.attempts.head?, (copy, outcome) ∈ before.restores) ∨
      outcome.Happened label s s' copy

/-! ## The invariant -/

/-- Every attempt is covered, put back, and ended by a copy that moved. -/
def Settled (attempts : List (Attempt κ)) : Prop :=
  ∀ attempt ∈ attempts, attempt.Covered setting ∧ attempt.PutBack ∧ attempt.moved = true

/-- The newest attempt is at work on what it classified, the earlier ones are settled. -/
def Underway (number : Nat) (classified : Classified κ) (attempts : List (Attempt κ))
    (P : Attempt κ → Prop) : Prop :=
  ∃ attempt earlier, attempts = attempt :: earlier ∧ earlier.length = number ∧
    number < reclassifications ∧ Settled setting earlier ∧ attempt.Covered setting ∧
    attempt.classified = classified ∧ attempt.moved = false ∧
    setting.acting.permits classified.retirement.retirementClass
      classified.retirement.reason = true ∧
    (setting.census.base.isSome = true ∧ setting.census.baseTip.isSome = true ∧
      classified.copies.unreadable = []) ∧ P attempt

/-- A deletion under way: nothing moved so far, what was deleted is remembered, and what is
left to delete was classified. -/
def Deleting (classified : Classified κ) (left : List (Copy κ)) (work : Work κ)
    (attempt : Attempt κ) : Prop :=
  attempt.reread = some classified.copies ∧ attempt.found = [] ∧
    (∀ copy ∈ attempt.deletions, (copy.holding, some copy.tip) ∈ work.deleted) ∧
    ∀ copy ∈ left, copy ∈ classified.copies.copies

/-- What is known of the attempts wherever `act` stands. -/
def Phase.Sound (attempts : List (Attempt κ)) : Phase κ → Prop
  | .classifying number _ | .reading number _ _ =>
    attempts.length = number ∧ number < reclassifications ∧ Settled setting attempts
  | .rereading number classified _ _ =>
    Underway setting number classified attempts fun attempt =>
      attempt.deletions = [] ∧ attempt.found = []
  | .deleting number classified left work =>
    Underway setting number classified attempts (Deleting classified left work)
  | .probing number classified copy left work _ =>
    Underway setting number classified attempts (Deleting classified (copy :: left) work)
  | .leasing number classified tip work | .asking number classified tip work _ =>
    Underway setting number classified attempts (Deleting classified [⟨.origin, tip⟩] work)
  | .restoring number classified left =>
    Underway setting number classified attempts fun attempt =>
      ∀ copy ∈ attempt.deletions, (∃ outcome, (copy, outcome) ∈ attempt.restores) ∨
        (copy.holding, some copy.tip) ∈ left
  | phase@(.answered _) =>
    attempts.length ≤ reclassifications ∧
    (∀ attempt ∈ attempts, attempt.Covered setting ∧ attempt.PutBack) ∧
    (attempts.length = reclassifications → (∀ attempt ∈ attempts, attempt.moved = true) →
      phase.keptUnknown = true)

/-- The attempts are as sound as the phase says. -/
def Invariant (s : World κ) : Prop := s.phase.Sound setting s.attempts

end Definitions

variable {κ : Type} [DecidableEq κ] {setting : Setting κ} {s s' : World κ}
  {attempts : List (Attempt κ)} {number : Nat} {classified : Classified κ}
  {P Q : Attempt κ → Prop}

namespace World

@[simp] theorem goto_attempts (phase : Phase κ) : (s.goto phase).attempts = s.attempts := rfl
@[simp] theorem goto_phase (phase : Phase κ) : (s.goto phase).phase = phase := rfl
@[simp] theorem goto_refs (phase : Phase κ) : (s.goto phase).refs = s.refs := rfl
@[simp] theorem setRef_attempts (holding : Holding) (tip : Option κ) :
    (s.setRef holding tip).attempts = s.attempts := rfl
@[simp] theorem setRef_phase (holding : Holding) (tip : Option κ) :
    (s.setRef holding tip).phase = s.phase := rfl
@[simp] theorem setRef_refs (holding : Holding) (tip : Option κ) :
    (s.setRef holding tip).refs = Function.update s.refs holding tip := rfl
@[simp] theorem note_attempts (change : Attempt κ → Attempt κ) :
    (s.note change).attempts = s.attempts.modifyHead change := rfl
@[simp] theorem note_refs (change : Attempt κ → Attempt κ) : (s.note change).refs = s.refs := rfl

end World

namespace Underway

theorem imp (h : Underway setting number classified attempts P)
    (himp : ∀ attempt, P attempt → Q attempt) :
    Underway setting number classified attempts Q := by
  obtain ⟨attempt, earlier, heq, hlen, hlt, hsettled, hcovered, hclass, hmoved, hmay, hread, hP⟩ :=
    h
  exact ⟨attempt, earlier, heq, hlen, hlt, hsettled, hcovered, hclass, hmoved, hmay, hread,
    himp attempt hP⟩

theorem note (h : Underway setting number classified attempts P) {change : Attempt κ → Attempt κ}
    (hclass : ∀ attempt, (change attempt).classified = attempt.classified)
    (hmoved : ∀ attempt, (change attempt).moved = attempt.moved)
    (hchange : ∀ attempt, attempt.classified = classified → attempt.Covered setting →
      setting.acting.permits classified.retirement.retirementClass
        classified.retirement.reason = true →
      (setting.census.base.isSome = true ∧ setting.census.baseTip.isSome = true ∧
        classified.copies.unreadable = []) →
      P attempt → (change attempt).Covered setting ∧ Q (change attempt)) :
    Underway setting number classified (attempts.modifyHead change) Q := by
  obtain ⟨attempt, earlier, rfl, hlen, hlt, hsettled, hcovered, hc, hm, hmay, hread, hP⟩ := h
  obtain ⟨hcovered', hQ⟩ := hchange attempt hc hcovered hmay hread hP
  exact ⟨change attempt, earlier, rfl, hlen, hlt, hsettled, hcovered',
    (hclass attempt).trans hc, (hmoved attempt).trans hm, hmay, hread, hQ⟩

theorem note_apart (h : Underway setting number classified attempts P)
    {change : Attempt κ → Attempt κ}
    (hclass : ∀ attempt, (change attempt).classified = attempt.classified)
    (hmoved : ∀ attempt, (change attempt).moved = attempt.moved)
    (hdeletions : ∀ attempt, (change attempt).deletions = attempt.deletions)
    (hreread : ∀ attempt, (change attempt).reread = attempt.reread)
    (hchange : ∀ attempt, P attempt → Q (change attempt)) :
    Underway setting number classified (attempts.modifyHead change) Q := by
  refine h.note hclass hmoved fun attempt _ hcovered _ _ hP => ⟨?_, hchange attempt hP⟩
  obtain ⟨hmem, hmay, hbase, hread, hunmoved⟩ := hcovered
  constructor
  · rwa [hdeletions, hclass]
  · rwa [hdeletions, hclass]
  · rwa [hdeletions]
  · rwa [hdeletions, hclass]
  · rwa [hdeletions, hreread, hclass]

theorem answered (h : Underway setting number classified attempts fun attempt => attempt.PutBack)
    (answer : Answer κ) : (Phase.answered answer).Sound setting attempts := by
  obtain ⟨attempt, earlier, rfl, hlen, hlt, hsettled, hcovered, hc, hm, hmay, hread, hback⟩ := h
  refine ⟨by simp only [List.length_cons]; omega, ?_, ?_⟩
  · intro other hmem
    rcases List.mem_cons.mp hmem with rfl | hmem
    · exact ⟨hcovered, hback⟩
    · exact ⟨(hsettled other hmem).1, (hsettled other hmem).2.1⟩
  · -- the newest attempt was ended by nothing that moved
    intro _ hall
    have hmoved := hall attempt (List.mem_cons_self ..)
    simp [hm] at hmoved

theorem again (h : Underway setting number classified s.attempts fun attempt => attempt.PutBack) :
    Invariant setting (s.again setting number classified) := by
  obtain ⟨attempt, earlier, heq, hlen, hlt, hsettled, hcovered, hc, hm, hmay, hread, hback⟩ := h
  have hended : Settled setting (s.attempts.modifyHead fun attempt =>
      { attempt with moved := true }) := by
    rw [heq]
    intro other hmem
    rcases List.mem_cons.mp hmem with rfl | hmem
    · exact ⟨⟨hcovered.1, hcovered.2, hcovered.3, hcovered.4, hcovered.5⟩, hback, rfl⟩
    · exact hsettled other hmem
  have hlength : (s.attempts.modifyHead fun attempt =>
      { attempt with moved := true }).length = number + 1 := by
    rw [List.length_modifyHead, heq, List.length_cons, hlen]
  unfold Invariant World.again
  simp only [World.goto_attempts, World.goto_phase, World.note_attempts]
  by_cases hlast : reclassifications ≤ number + 1
  · rw [if_pos hlast]
    refine ⟨by omega, fun other hmem => ⟨(hended other hmem).1, (hended other hmem).2.1⟩, ?_⟩
    intro _ _
    rfl
  · rw [if_neg hlast]
    exact ⟨hlength, by omega, hended⟩

end Underway

theorem putBack_of_found_nil {attempt : Attempt κ} (h : attempt.found = []) : attempt.PutBack :=
  fun hfound => absurd h hfound

theorem mem_locals {copies : Copies κ} {copy : Copy κ} (h : copy ∈ copies.locals) :
    copy ∈ copies.copies :=
  (List.mem_filter.mp h).1

theorem mem_of_onOrigin {copies : Copies κ} {copy : Copy κ} (h : copies.onOrigin = some copy) :
    ⟨.origin, copy.tip⟩ ∈ copies.copies := by
  have hmem := List.mem_of_find?_eq_some h
  have horigin : copy.holding = .origin := by simpa using List.find?_some h
  rwa [← horigin]

/-- What is on origin is no local copy. -/
example : (⟨[⟨.origin, 4⟩, ⟨.place 0, 5⟩], []⟩ : Copies ℕ).locals = [⟨.place 0, 5⟩] := by
  decide +kernel

theorem Deleting.next {left : List (Copy κ)} {work work' : Work κ} {copy : Copy κ}
    {attempt : Attempt κ} (h : Deleting classified (copy :: left) work attempt)
    (hwork : ∀ entry ∈ work.deleted, entry ∈ work'.deleted) :
    Deleting classified left work' attempt := by
  obtain ⟨hreread, hfound, hdeleted, hleft⟩ := h
  exact ⟨hreread, hfound, fun other hmem => hwork _ (hdeleted other hmem),
    fun other hmem => hleft other (List.mem_cons_of_mem _ hmem)⟩

theorem covered_delete {attempt : Attempt κ} {copy : Copy κ} (hc : attempt.classified = classified)
    (hcovered : attempt.Covered setting)
    (hmay : setting.acting.permits classified.retirement.retirementClass
      classified.retirement.reason = true)
    (hread : setting.census.base.isSome = true ∧ setting.census.baseTip.isSome = true ∧
      classified.copies.unreadable = [])
    (hreread : attempt.reread = some classified.copies)
    (hcopy : copy ∈ classified.copies.copies) :
    ({ attempt with deletions := attempt.deletions ++ [copy] } : Attempt κ).Covered setting := by
  subst hc
  refine ⟨?_, fun _ => hmay, fun _ => ⟨hread.1, hread.2.1⟩, fun _ => hread.2.2, fun _ => hreread⟩
  intro other hmem
  rcases List.mem_append.mp hmem with hbefore | hnew
  · exact hcovered.classified other hbefore
  · obtain rfl := List.mem_singleton.mp hnew
    exact hcopy

theorem Deleting.restoring {left : List (Copy κ)} {work : Work κ} {found : Copy κ}
    (h : Underway setting number classified attempts (Deleting classified left work)) :
    (Phase.restoring number classified work.deleted).Sound setting
      (attempts.modifyHead fun attempt =>
        { attempt with found := attempt.found ++ [found] }) := by
  unfold Phase.Sound
  refine h.note_apart (fun _ => rfl) (fun _ => rfl) (fun _ => rfl) (fun _ => rfl) ?_
  rintro attempt ⟨-, -, hdeleted, -⟩ copy hmem
  exact Or.inr (hdeleted copy hmem)

theorem restoring_next {holding : Holding} {left : List (Holding × Option κ)}
    {outcome : Restored κ} {tip : κ}
    (h : (Phase.restoring number classified ((holding, some tip) :: left)).Sound setting
      attempts) :
    (Phase.restoring number classified left).Sound setting (attempts.modifyHead fun attempt =>
      { attempt with restores := attempt.restores ++ [(⟨holding, tip⟩, outcome)] }) := by
  unfold Phase.Sound
  refine Underway.note_apart h (fun _ => rfl) (fun _ => rfl) (fun _ => rfl) (fun _ => rfl) ?_
  intro attempt hback copy hmem
  rcases hback copy hmem with ⟨before, hbefore⟩ | hleft
  · exact Or.inl ⟨before, List.mem_append_left _ hbefore⟩
  · rcases List.mem_cons.mp hleft with heq | hrest
    · -- the copy put back now
      obtain ⟨rfl, htip⟩ := Prod.mk.inj heq
      obtain rfl := Option.some.inj htip
      exact Or.inl ⟨outcome, List.mem_append_right _ (List.mem_singleton.mpr rfl)⟩
    · exact Or.inr hrest

attribute [local simp] World.step

theorem Invariant.classify {copies : Copies κ} (h : Invariant setting s)
    (hphase : s.phase = .classifying number copies) (fresh : FreshReads) (verdict : Retirement κ)
    (reached : Reached)
    (hs : World.step setting s (.classify fresh verdict reached) = some s') :
    Invariant setting s' := by
  unfold Invariant at h
  rw [hphase] at h
  obtain ⟨hlen, hlt, hsettled⟩ := h
  simp only [World.step, hphase] at hs
  generalize hretirement : Retire.classify setting.census setting.branch copies fresh verdict
    reached = retirement at hs
  -- the new attempt has deleted nothing yet
  have hnew : (⟨⟨retirement, copies⟩, none, [], [], [], [], false⟩ : Attempt κ).Covered setting := by
    constructor <;> simp
  have hanswered : ∀ answer : Answer κ, (Phase.answered answer).Sound setting
      (⟨⟨retirement, copies⟩, none, [], [], [], [], false⟩ :: s.attempts) := by
    intro answer
    refine ⟨by simp only [List.length_cons]; omega, ?_, fun _ hall => ?_⟩
    · intro attempt hmem
      rcases List.mem_cons.mp hmem with rfl | hmem
      · exact ⟨hnew, putBack_of_found_nil rfl⟩
      · exact ⟨(hsettled attempt hmem).1, (hsettled attempt hmem).2.1⟩
    · have hmoved := hall _ (List.mem_cons_self ..)
      simp at hmoved
  by_cases hmay : setting.acting.permits retirement.retirementClass retirement.reason = true
  · have hread := hmay
    rw [← hretirement] at hread
    obtain ⟨hbase, htip, hreadable⟩ := read_of_permits hread
    by_cases hdry : setting.dryRun = true
    · obtain rfl : _ = s' := by simpa [hmay, hdry] using hs
      exact hanswered _
    · obtain rfl : _ = s' := by simpa [hmay, hdry] using hs
      exact ⟨_, s.attempts, rfl, hlen, hlt, hsettled, hnew, rfl, rfl, hmay,
        ⟨hbase, htip, hreadable⟩, rfl, rfl⟩
  · obtain rfl : _ = s' := by simpa [hmay] using hs
    exact hanswered _

/-- A re-read goes on, or finds every copy where it was classified, or starts over. -/
theorem Invariant.reread {left : List Holding} {now : Copies κ} {label : Label κ}
    (h : Invariant setting s) (hphase : s.phase = .rereading number classified left now)
    (hown : label.own = true) (hs : World.step setting s label = some s') :
    Invariant setting s' := by
  unfold Invariant at h
  rw [hphase] at h
  cases left with
  | cons holding left =>
    cases label with
    | read failure =>
      simp only [World.step, hphase] at hs
      obtain rfl := Option.some.inj hs
      exact h
    | move => simp [Label.own] at hown
    | _ => simp [World.step, hphase] at hs
  | nil =>
    cases label with
    | proceed =>
      simp only [World.step, hphase] at hs
      split at hs
      · rename_i hunmoved
        obtain rfl := Option.some.inj hs
        subst hunmoved
        refine Underway.note h (fun _ => rfl) (fun _ => rfl) ?_
        rintro attempt hc hcovered hmay hread ⟨hdeletions, hfound⟩
        refine ⟨?_, rfl, hfound, by simp [hdeletions], fun copy => mem_locals⟩
        constructor <;> simp [hdeletions]
      · -- a copy moved since it was classified, and nothing has been deleted
        obtain rfl := Option.some.inj hs
        apply Underway.again
        refine Underway.note h (fun _ => rfl) (fun _ => rfl) ?_
        rintro attempt hc hcovered hmay hread ⟨hdeletions, hfound⟩
        refine ⟨?_, putBack_of_found_nil hfound⟩
        constructor <;> simp [hdeletions]
    | move => simp [Label.own] at hown
    | _ => simp [World.step, hphase] at hs

/-- A local copy is passed over, deleted at the tip it was classified at, or asked about. -/
theorem Invariant.delete {left : List (Copy κ)} {work : Work κ} {label : Label κ}
    (h : Invariant setting s) (hphase : s.phase = .deleting number classified left work)
    (hown : label.own = true) (hs : World.step setting s label = some s') :
    Invariant setting s' := by
  unfold Invariant at h
  rw [hphase] at h
  cases left with
  | cons copy left =>
    cases label with
    | block why =>
      simp only [World.step, hphase] at hs
      obtain rfl := Option.some.inj hs
      exact Underway.imp h fun attempt hdeleting => hdeleting.next fun _ hmem => hmem
    | delete granted said =>
      simp only [World.step, hphase] at hs
      split at hs
      · obtain rfl := Option.some.inj hs
        refine Underway.note h (fun _ => rfl) (fun _ => rfl) ?_
        intro attempt hc hcovered hmay hread hdeleting
        have hcopy := hdeleting.2.2.2 copy (List.mem_cons_self ..)
        refine ⟨covered_delete hc hcovered hmay hread hdeleting.1 hcopy, ?_⟩
        have hnext : Deleting classified left
            { work with deleted := work.deleted ++ [(copy.holding, some copy.tip)] }
            attempt := hdeleting.next fun _ hmem => List.mem_append_left _ hmem
        obtain ⟨hreread, hfound, hdeleted, hleft⟩ := hnext
        refine ⟨hreread, hfound, fun other hmem => ?_, hleft⟩
        rcases List.mem_append.mp hmem with hbefore | hnew
        · exact hdeleted other hbefore
        · obtain rfl := List.mem_singleton.mp hnew
          exact List.mem_append_right _ (List.mem_singleton.mpr rfl)
      · obtain rfl := Option.some.inj hs
        exact h
    | move => simp [Label.own] at hown
    | _ => simp [World.step, hphase] at hs
  | nil =>
    cases label with
    | proceed =>
      simp only [World.step, hphase] at hs
      obtain rfl := Option.some.inj hs
      unfold Invariant Classified.beyondLocals
      cases horigin : classified.copies.onOrigin with
      | some copy =>
        refine Underway.imp h ?_
        rintro attempt ⟨hreread, hfound, hdeleted, -⟩
        refine ⟨hreread, hfound, hdeleted, fun other hmem => ?_⟩
        obtain rfl := List.mem_singleton.mp hmem
        exact mem_of_onOrigin horigin
      | none =>
        apply Underway.answered
        exact Underway.imp h fun attempt hdeleting => putBack_of_found_nil hdeleting.2.1
    | move => simp [Label.own] at hown
    | _ => simp [World.step, hphase] at hs

theorem Invariant.probe {copy : Copy κ} {left : List (Copy κ)} {work : Work κ} {refusal : String}
    {label : Label κ} (h : Invariant setting s)
    (hphase : s.phase = .probing number classified copy left work refusal)
    (hown : label.own = true) (hs : World.step setting s label = some s') :
    Invariant setting s' := by
  unfold Invariant at h
  rw [hphase] at h
  cases label with
  | probe failure =>
    simp only [World.step, hphase] at hs
    split at hs
    · obtain rfl := Option.some.inj hs
      refine Underway.note_apart h (fun _ => rfl) (fun _ => rfl) (fun _ => rfl)
        (fun _ => rfl) ?_
      intro attempt hdeleting
      exact hdeleting.next fun _ hmem => hmem
    · obtain rfl := Option.some.inj hs
      exact Underway.imp h fun attempt hdeleting =>
        hdeleting.next fun _ hmem => List.mem_append_left _ hmem
    · split at hs
      · obtain rfl := Option.some.inj hs
        exact Underway.imp h fun attempt hdeleting => hdeleting.next fun _ hmem => hmem
      · obtain rfl := Option.some.inj hs
        exact Deleting.restoring h
  | move => simp [Label.own] at hown
  | _ => simp [World.step, hphase] at hs

theorem Invariant.lease {tip : κ} {work : Work κ} {label : Label κ} (h : Invariant setting s)
    (hphase : s.phase = .leasing number classified tip work) (hown : label.own = true)
    (hs : World.step setting s label = some s') : Invariant setting s' := by
  unfold Invariant at h
  rw [hphase] at h
  cases label with
  | delete granted said =>
    simp only [World.step, hphase] at hs
    split at hs
    · obtain rfl := Option.some.inj hs
      apply Underway.answered
      refine Underway.note h (fun _ => rfl) (fun _ => rfl) ?_
      rintro attempt hc hcovered hmay hread ⟨hreread, hfound, -, hleft⟩
      have hcopy := hleft _ (List.mem_cons_self ..)
      exact ⟨covered_delete hc hcovered hmay hread hreread hcopy, putBack_of_found_nil hfound⟩
    · obtain rfl := Option.some.inj hs
      exact h
  | move => simp [Label.own] at hown
  | _ => simp [World.step, hphase] at hs

theorem Invariant.ask {tip : κ} {work : Work κ} {refusal : String} {label : Label κ}
    (h : Invariant setting s) (hphase : s.phase = .asking number classified tip work refusal)
    (hown : label.own = true) (hs : World.step setting s label = some s') :
    Invariant setting s' := by
  unfold Invariant at h
  rw [hphase] at h
  have hanswered : Underway setting number classified s.attempts fun attempt => attempt.PutBack :=
    Underway.imp h fun attempt hdeleting => putBack_of_found_nil hdeleting.2.1
  cases label with
  | probe failure =>
    simp only [World.step, hphase] at hs
    split at hs
    · obtain rfl := Option.some.inj hs
      apply Underway.answered
      refine Underway.note_apart h (fun _ => rfl) (fun _ => rfl) (fun _ => rfl)
        (fun _ => rfl) ?_
      exact fun attempt hdeleting => putBack_of_found_nil hdeleting.2.1
    · obtain rfl := Option.some.inj hs
      exact hanswered.answered _
    · split at hs
      · obtain rfl := Option.some.inj hs
        exact hanswered.answered _
      · obtain rfl := Option.some.inj hs
        exact Deleting.restoring h
  | move => simp [Label.own] at hown
  | _ => simp [World.step, hphase] at hs

/-- A copy is put back, or found taken, or refused by git; then the attempt is over. -/
theorem Invariant.restore {left : List (Holding × Option κ)} {label : Label κ}
    (h : Invariant setting s) (hphase : s.phase = .restoring number classified left)
    (hown : label.own = true) (hs : World.step setting s label = some s') :
    Invariant setting s' := by
  unfold Invariant at h
  rw [hphase] at h
  match left, label with
  | (_, none) :: left, .proceed =>
    simp only [World.step, hphase] at hs
    obtain rfl := Option.some.inj hs
    refine Underway.imp h fun attempt hback copy hmem => ?_
    exact (hback copy hmem).imp id fun hleft => by simpa using hleft
  | (holding, some tip) :: left, .restore granted =>
    simp only [World.step, hphase] at hs
    split at hs
    · obtain rfl := Option.some.inj hs
      exact restoring_next h
    · split at hs
      · obtain rfl := Option.some.inj hs
        exact restoring_next h
      · obtain rfl := Option.some.inj hs
        exact restoring_next h
  | [], .proceed =>
    simp only [World.step, hphase] at hs
    obtain rfl := Option.some.inj hs
    apply Underway.again
    refine Underway.imp h fun attempt hback _ copy hmem => ?_
    exact (hback copy hmem).resolve_right (by simp)
  | _, .move _ _ => simp [Label.own] at hown
  | [], .classify .. | [], .read _ | [], .block _ | [], .delete .. | [], .probe _
  | [], .restore _ => simp [World.step, hphase] at hs
  | (_, tip) :: _, .classify .. | (_, tip) :: _, .read _ | (_, tip) :: _, .block _
  | (_, tip) :: _, .delete .. | (_, tip) :: _, .probe _ =>
    cases tip <;> simp [World.step, hphase] at hs
  | (_, some _) :: _, .proceed | (_, none) :: _, .restore _ =>
    simp [World.step, hphase] at hs

theorem Invariant.read {left : List Holding} {read : Copies κ} {label : Label κ}
    (h : Invariant setting s) (hphase : s.phase = .reading number left read)
    (hown : label.own = true) (hs : World.step setting s label = some s') :
    Invariant setting s' := by
  unfold Invariant at h
  rw [hphase] at h
  match left, label with
  | holding :: left, .read failure =>
    simp only [World.step, hphase] at hs
    obtain rfl := Option.some.inj hs
    exact h
  | [], .proceed =>
    simp only [World.step, hphase] at hs
    obtain rfl := Option.some.inj hs
    exact h
  | _, .move _ _ => simp [Label.own] at hown
  | [], .classify .. | [], .read _ | [], .block _ | [], .delete .. | [], .probe _
  | [], .restore _ | _ :: _, .proceed | _ :: _, .classify .. | _ :: _, .block _
  | _ :: _, .delete .. | _ :: _, .probe _ | _ :: _, .restore _ =>
    simp [World.step, hphase] at hs

theorem Invariant.step {label : Label κ} (h : Invariant setting s)
    (hs : World.step setting s label = some s') : Invariant setting s' := by
  by_cases hown : label.own = true
  · cases hphase : s.phase with
    | classifying number copies =>
      cases label with
      | classify fresh verdict reached => exact h.classify hphase fresh verdict reached hs
      | move => simp [Label.own] at hown
      | _ => simp [World.step, hphase] at hs
    | rereading => exact h.reread hphase hown hs
    | deleting => exact h.delete hphase hown hs
    | probing => exact h.probe hphase hown hs
    | leasing => exact h.lease hphase hown hs
    | asking => exact h.ask hphase hown hs
    | restoring => exact h.restore hphase hown hs
    | reading => exact h.read hphase hown hs
    | answered answer =>
      cases label with
      | move => simp [Label.own] at hown
      | _ => simp [World.step, hphase] at hs
  · cases label with
    | move holding tip =>
      obtain rfl := Option.some.inj hs
      exact h
    | _ => simp [Label.own] at hown

theorem Effects.quiet {label : Label κ} {change : Attempt κ → Attempt κ}
    (hrefs : s'.refs = s.refs) (hattempts : s'.attempts = s.attempts.modifyHead change)
    (hrestores : ∀ attempt, (change attempt).restores = attempt.restores) :
    Effects label s s' := by
  refine ⟨fun holding hne => absurd (congrFun hrefs holding) hne, ?_⟩
  intro attempt hmem copy outcome hrestored
  rw [hattempts, List.head?_modifyHead] at hmem
  obtain ⟨before, hbefore, rfl⟩ := Option.map_eq_some_iff.mp hmem
  rw [hrestores] at hrestored
  exact Or.inl ⟨before, hbefore, hrestored⟩

theorem Effects.idle {label : Label κ} (hrefs : s'.refs = s.refs)
    (hattempts : s'.attempts = s.attempts) : Effects label s s' :=
  Effects.quiet hrefs (hattempts.trans (congrFun List.modifyHead_id s.attempts).symm) fun _ => rfl

theorem Effects.deletes {label : Label κ} {copy : Copy κ} (hne : s.attempts ≠ [])
    (hstood : s.refs copy.holding = some copy.tip)
    (hrefs : s'.refs = Function.update s.refs copy.holding none)
    (hattempts : s'.attempts = s.attempts.modifyHead fun attempt =>
      { attempt with deletions := attempt.deletions ++ [copy] }) : Effects label s s' := by
  obtain ⟨newest, earlier, hcons⟩ := List.exists_cons_of_ne_nil hne
  constructor
  · intro holding hchanged
    rw [hrefs] at hchanged
    have hsame : holding = copy.holding := by
      by_contra hother
      exact hchanged (Function.update_of_ne hother none s.refs)
    subst hsame
    refine ⟨{ newest with deletions := newest.deletions ++ [copy] }, by simp [hattempts, hcons],
      copy.tip, Or.inl ⟨hstood, by rw [hrefs, Function.update_self], ?_⟩⟩
    exact List.mem_append_right _ (List.mem_singleton.mpr rfl)
  · intro attempt hmem other outcome hrestored
    rw [hattempts, List.head?_modifyHead] at hmem
    obtain ⟨before, hbefore, rfl⟩ := Option.map_eq_some_iff.mp hmem
    exact Or.inl ⟨before, hbefore, hrestored⟩

theorem Effects.leaves {label : Label κ} {copy : Copy κ} {outcome : Restored κ}
    (hrefs : s'.refs = s.refs)
    (hattempts : s'.attempts = s.attempts.modifyHead fun attempt =>
      { attempt with restores := attempt.restores ++ [(copy, outcome)] })
    (hhappened : outcome.Happened label s s' copy) : Effects label s s' := by
  refine ⟨fun holding hne => absurd (congrFun hrefs holding) hne, ?_⟩
  intro attempt hmem other found hrestored
  rw [hattempts, List.head?_modifyHead] at hmem
  obtain ⟨before, hbefore, rfl⟩ := Option.map_eq_some_iff.mp hmem
  rcases List.mem_append.mp hrestored with hold | hnew
  · exact Or.inl ⟨before, hbefore, hold⟩
  · obtain ⟨rfl, rfl⟩ := Prod.mk.inj (List.mem_singleton.mp hnew)
    exact Or.inr hhappened

theorem Effects.putsBack {label : Label κ} {copy : Copy κ} (hne : s.attempts ≠ [])
    (hgone : s.refs copy.holding = none)
    (hrefs : s'.refs = Function.update s.refs copy.holding (some copy.tip))
    (hattempts : s'.attempts = s.attempts.modifyHead fun attempt =>
      { attempt with restores := attempt.restores ++ [(copy, .back)] }) :
    Effects label s s' := by
  obtain ⟨newest, earlier, hcons⟩ := List.exists_cons_of_ne_nil hne
  have hstands : s'.refs copy.holding = some copy.tip := by rw [hrefs, Function.update_self]
  constructor
  · intro holding hchanged
    rw [hrefs] at hchanged
    have hsame : holding = copy.holding := by
      by_contra hother
      exact hchanged (Function.update_of_ne hother _ s.refs)
    subst hsame
    refine ⟨{ newest with restores := newest.restores ++ [(copy, .back)] },
      by simp [hattempts, hcons], copy.tip, Or.inr ⟨hgone, hstands, ?_⟩⟩
    exact List.mem_append_right _ (List.mem_singleton.mpr rfl)
  · intro attempt hmem other found hrestored
    rw [hattempts, List.head?_modifyHead] at hmem
    obtain ⟨before, hbefore, rfl⟩ := Option.map_eq_some_iff.mp hmem
    rcases List.mem_append.mp hrestored with hold | hnew
    · exact Or.inl ⟨before, hbefore, hold⟩
    · obtain ⟨rfl, rfl⟩ := Prod.mk.inj (List.mem_singleton.mp hnew)
      exact Or.inr ⟨hgone, hstands⟩

theorem Underway.ne_nil (h : Underway setting number classified attempts P) : attempts ≠ [] := by
  obtain ⟨attempt, earlier, rfl, -⟩ := h
  simp

/-- A step of `act` changes the refs only as its history says. -/
theorem step_effects {label : Label κ} (h : Invariant setting s) (hown : label.own = true)
    (hs : World.step setting s label = some s') : Effects label s s' := by
  unfold Invariant at h
  unfold World.step at hs
  split at hs
  · simp [Label.own] at hown
  · split at hs <;> rename_i hphase _ <;> try rw [hphase] at h
    · -- a classification starts an attempt with an empty history
      have hnew : ∀ label, ∀ classified : Classified κ, ∀ phase, Effects label s
          ⟨s.refs, phase, ⟨classified, none, [], [], [], [], false⟩ :: s.attempts⟩ :=
        fun label classified phase => ⟨fun holding hne => absurd rfl hne, by simp⟩
      dsimp only at hs
      split at hs
      · obtain rfl := Option.some.inj hs
        exact hnew _ _ _
      · split at hs <;> obtain rfl := Option.some.inj hs
        · exact hnew _ _ _
        · exact hnew _ _ _
    · obtain rfl := Option.some.inj hs
      exact Effects.idle rfl rfl
    · split at hs <;> obtain rfl := Option.some.inj hs
      · exact Effects.quiet rfl rfl fun _ => rfl
      · exact Effects.quiet rfl (List.modifyHead_modifyHead ..) fun _ => rfl
    · obtain rfl := Option.some.inj hs
      exact Effects.idle rfl rfl
    · split at hs
      · rename_i hstood
        obtain rfl := Option.some.inj hs
        exact Effects.deletes (Underway.ne_nil h) hstood.2 rfl rfl
      · obtain rfl := Option.some.inj hs
        exact Effects.idle rfl rfl
    · obtain rfl := Option.some.inj hs
      exact Effects.idle rfl rfl
    · split at hs
      · obtain rfl := Option.some.inj hs
        exact Effects.quiet rfl rfl fun _ => rfl
      · obtain rfl := Option.some.inj hs
        exact Effects.idle rfl rfl
      · split at hs <;> obtain rfl := Option.some.inj hs
        · exact Effects.idle rfl rfl
        · exact Effects.quiet rfl rfl fun _ => rfl
    · rename_i number classified tip work granted said _
      split at hs
      · rename_i hstood
        obtain rfl := Option.some.inj hs
        have hcopy : s.refs (⟨.origin, tip⟩ : Copy κ).holding = some tip := hstood.2
        exact Effects.deletes (Underway.ne_nil h) hcopy rfl rfl
      · obtain rfl := Option.some.inj hs
        exact Effects.idle rfl rfl
    · split at hs
      · obtain rfl := Option.some.inj hs
        exact Effects.quiet rfl rfl fun _ => rfl
      · obtain rfl := Option.some.inj hs
        exact Effects.idle rfl rfl
      · split at hs <;> obtain rfl := Option.some.inj hs
        · exact Effects.idle rfl rfl
        · exact Effects.quiet rfl rfl fun _ => rfl
    · obtain rfl := Option.some.inj hs
      exact Effects.idle rfl rfl
    · rename_i number classified holding tip left granted _
      split at hs
      · rename_i now hnow
        obtain rfl := Option.some.inj hs
        exact Effects.leaves rfl rfl hnow
      · rename_i hgone
        split at hs
        · obtain rfl := Option.some.inj hs
          have hcopy : s.refs (⟨holding, tip⟩ : Copy κ).holding = none := hgone
          exact Effects.putsBack (Underway.ne_nil h) hcopy rfl rfl
        · rename_i hrefused
          obtain rfl := Option.some.inj hs
          refine Effects.leaves rfl rfl ?_
          simp [Restored.Happened, hrefused]
    · obtain rfl := Option.some.inj hs
      exact Effects.quiet rfl rfl fun _ => rfl
    · obtain rfl := Option.some.inj hs
      exact Effects.idle rfl rfl
    · obtain rfl := Option.some.inj hs
      exact Effects.idle rfl rfl
    · simp at hs

end Onevcs.Retire
