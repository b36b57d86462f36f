import Onevcs.Pool.Slots

/-!
# A slot belongs to one open session

A survey reads the session records before it looks at the slots, and a placement or prune
holds what it acts on exclusively; an adoption holds its slot shared until its session is
open. What neither covers is a slot that reads as broken before anybody asks whose it is,
and a session that opens again on a slot between the question and the lease. Where a run
meets neither, no two open sessions name one slot, and no slot an open session names is
removed, rebuilt or handed over.
-/

set_option linter.unusedSectionVars false

namespace Onevcs.Pool

open Foundations (Flock Mode)

variable {τ κ β π : Type} [DecidableEq τ] [DecidableEq κ] [DecidableEq β] [DecidableEq π]

theorem stateOf_of_holder {contents : Contents κ β} {session : τ} {closing live : Bool}
    (h : contents.damaged closing = false) :
    stateOf contents (some session) closing live = .inUse session := by
  unfold stateOf
  cases hrecord : contents.record with
  | none => simp [Contents.damaged, hrecord] at h
  | some record =>
    cases closing with
    | true => rfl
    | false =>
      simp only [Contents.damaged, hrecord, Option.isNone_some, Bool.false_eq_true, true_and,
        false_or, decide_eq_false_iff_not, not_or, not_not] at h
      simp [h.1, h.2]

theorem takeable_of_mem_shedFrom {retaining : List ℕ} {slots : List (Surveyed τ κ)} {surplus : ℕ}
    {slot : Surveyed τ κ} (h : slot ∈ shedFrom retaining slots surplus) :
    slot ∈ slots ∧ slot.takeable = true := by
  induction slots generalizing surplus with
  | nil => simp [shedFrom] at h
  | cons first rest ih =>
    cases surplus with
    | zero => simp [shedFrom] at h
    | succ surplus =>
      unfold shedFrom at h
      split_ifs at h with hfirst
      · rcases List.mem_cons.mp h with rfl | hrest
        · exact ⟨List.mem_cons_self, hfirst.1⟩
        · exact (ih hrest).imp_left (List.mem_cons_of_mem first)
      · exact (ih h).imp_left (List.mem_cons_of_mem first)

/-- A retained slot is passed over, and the next goes in its place. -/
example : (shedFrom [3] [⟨3, none, .idle⟩, ⟨2, none, .idle⟩, ⟨1, none, .idle⟩] 1 :
    List (Surveyed ℕ ℕ)) = [⟨2, none, .idle⟩] := by decide +kernel

theorem doomed_subset (survey : Survey τ κ) (retaining : List ℕ) :
    survey.doomed retaining ⊆ survey.slots.filter Surveyed.takeable := by
  intro slot hslot
  unfold Survey.doomed at hslot
  cases hjob : survey.job with
  | prune =>
    rw [hjob] at hslot
    simp only [List.mem_filter, decide_eq_true_eq] at hslot
    exact List.mem_filter.mpr ⟨hslot.1, hslot.2.1⟩
  | place token execution pool filePool =>
    rw [hjob] at hslot
    obtain ⟨hmem, htakeable⟩ := takeable_of_mem_shedFrom hslot
    exact List.mem_filter.mpr ⟨List.mem_reverse.mp hmem, htakeable⟩

theorem candidates_subset (slots : List (Surveyed τ κ)) (execution : κ) (preferred : Option ℕ) :
    candidates slots execution preferred ⊆ slots.filter Surveyed.takeable := by
  intro slot hslot
  have hidle : slot ∈ slots ∧ slot.state = .idle := by
    simp only [candidates, List.mem_append, List.mem_filter, decide_eq_true_eq] at hslot
    rcases hslot with h | h <;> exact ⟨h.1.1, h.1.2.1⟩
  exact List.mem_filter.mpr ⟨hidle.1, by simp [Surveyed.takeable, hidle.2]⟩

theorem broken_subset (slots : List (Surveyed τ κ)) :
    (slots.filter fun slot => decide (slot.state = .broken)) ⊆ slots.filter Surveyed.takeable := by
  intro slot hslot
  simp only [List.mem_filter, decide_eq_true_eq] at hslot
  exact List.mem_filter.mpr ⟨hslot.1, by simp [Surveyed.takeable, hslot.2]⟩

namespace World

variable {s s' : World τ κ β π} {p q : π} {phase : Phase τ κ β} {token : τ} {number : ℕ}

/-! ## What a process knows -/

def Opens (s : World τ κ β π) (token : τ) (number : ℕ) : Prop :=
  ∃ record, s.records token = some record ∧ record.state = .opened ∧ record.slot = number

/-- No open session names the slot. -/
def Free (s : World τ κ β π) (number : ℕ) : Prop := ∀ token, ¬ s.Opens token number

def Holds (s : World τ κ β π) (p : π) (number : ℕ) : Prop :=
  (s.leases number).Holds ⟨p, .placing⟩ .exclusive

/-- The session's record is there, with the slot that was read. -/
def Rooted (s : World τ κ β π) (adoption : Adoption τ β) : Prop :=
  ∃ stored, s.records adoption.token = some stored ∧ stored.slot = adoption.record.slot

/-- No other session has the adoption's slot, those that opened since aside. -/
def Clear (s : World τ κ β π) (adoption : Adoption τ β) : Prop :=
  ∀ other, other ≠ adoption.token → s.Opens other adoption.record.slot → other ∈ adoption.raced

/-- Whoever has one of the slots opened on it since the survey read the records. -/
def Spares (s : World τ κ β π) (survey : Survey τ κ) (slots : List (Surveyed τ κ)) : Prop :=
  ∀ slot ∈ slots, ∀ token, s.Opens token slot.number → (token, slot.number) ∈ survey.stale

/-- A survey's answer: what it found takeable, it may take. -/
def Surveys (s : World τ κ β π) (p : π) (survey : Survey τ κ) : Prop :=
  s.serial = some p ∧ s.Spares survey (survey.slots.filter Surveyed.takeable)

/-- What a process knows of the open sessions where it stands. -/
def Sound (s : World τ κ β π) (p : π) : Phase τ κ β → Prop
  | .loaded adoption =>
    s.Rooted adoption ∧ (adoption.record.state = .opened → s.Clear adoption)
  | .asking adoption unread owned =>
    s.Rooted adoption ∧ (owned = false → ∀ other, other ≠ adoption.token →
      s.Opens other adoption.record.slot → other ∈ unread ∨ other ∈ adoption.raced)
  | .checked adoption => s.Rooted adoption ∧ s.Clear adoption
  | .attached adoption =>
    (s.Rooted adoption ∧ s.Clear adoption) ∧
      (s.leases adoption.record.slot).Holds ⟨p, .adopting⟩ .shared
  | .reattached adoption =>
    (s.Rooted adoption ∧ s.Clear adoption) ∧
      (s.leases adoption.record.slot).Holds ⟨p, .adopting⟩ .shared ∧
        s.slots adoption.record.slot ≠ none
  | .surveying survey _ unread opened =>
    (s.serial = some p ∧ survey.slots = []) ∧ ∀ token number, s.Opens token number →
      token ∈ unread ∨ (token, number) ∈ opened ∨ (token, number) ∈ survey.stale
  | .looking survey _ opened =>
    s.serial = some p ∧
      (∀ token number, s.Opens token number →
        (token, number) ∈ opened ∨ (token, number) ∈ survey.stale) ∧
        ∀ slot ∈ survey.slots, slot.takeable = true → ∀ token, (token, slot.number) ∉ opened
  | .removing survey todo | .unlinked survey todo _ =>
    s.Surveys p survey ∧ s.Spares survey todo
  | .unlinking survey todo number =>
    (s.Surveys p survey ∧ s.Spares survey todo) ∧ s.Holds p number ∧ s.Free number
  | .choosing survey slots | .mending survey slots => s.Surveys p survey ∧ s.Spares survey slots
  | .counting survey slots number =>
    (s.Surveys p survey ∧ s.Spares survey slots) ∧ s.Holds p number ∧ s.Free number
  | .rebuilding _ number | .taken _ number _ =>
    s.serial = some p ∧ s.Holds p number ∧ s.Free number
  | .cutting survey number =>
    s.serial = some p ∧ ∀ token, s.Opens token number → (token, number) ∈ survey.stale
  | .recorded _ => s.serial = some p
  | .idle | .reopened _ | .visiting _ _ => True

/-- The listing names every record, an open session's slot is there and nobody else's, and
every process knows what it should. -/
structure Invariant (s : World τ κ β π) : Prop where
  listed : ∀ token record, s.records token = some record → token ∈ s.tokens
  there : ∀ token number, s.Opens token number → s.slots number ≠ none
  apart : ∀ token other number, s.Opens token number → s.Opens other number → token = other
  sound : ∀ p, s.Sound p (s.process p)

/-- What a process knows stays true while no session opens, and nobody takes what is its. -/
theorem Sound.mono (h : s.Sound p phase)
    (hopens : ∀ token number, s'.Opens token number → s.Opens token number)
    (hrooted : ∀ adoption, s.Rooted adoption → s'.Rooted adoption)
    (hserial : s.serial = some p → s'.serial = some p)
    (hleases : ∀ number purpose mode, (s.leases number).Holds ⟨p, purpose⟩ mode →
      (s'.leases number).Holds ⟨p, purpose⟩ mode)
    (hslots : ∀ number, (s.leases number).Holds ⟨p, .adopting⟩ .shared →
      s.slots number ≠ none → s'.slots number ≠ none) : s'.Sound p phase := by
  have hclear : ∀ adoption, s.Clear adoption → s'.Clear adoption :=
    fun adoption hclear other hother hopen => hclear other hother (hopens _ _ hopen)
  have hspares : ∀ survey slots, s.Spares survey slots → s'.Spares survey slots :=
    fun survey slots hspares slot hslot token hopen =>
      hspares slot hslot token (hopens _ _ hopen)
  have hsurveys : ∀ survey, s.Surveys p survey → s'.Surveys p survey :=
    fun survey hsurveys => ⟨hserial hsurveys.1, hspares _ _ hsurveys.2⟩
  have hfree : ∀ number, s.Free number → s'.Free number :=
    fun number hfree token hopen => hfree token (hopens _ _ hopen)
  cases phase with
  | loaded adoption => exact ⟨hrooted _ h.1, fun hstate => hclear _ (h.2 hstate)⟩
  | asking adoption unread owned =>
    exact ⟨hrooted _ h.1, fun hnone other hother hopen =>
      h.2 hnone other hother (hopens _ _ hopen)⟩
  | checked adoption => exact ⟨hrooted _ h.1, hclear _ h.2⟩
  | attached adoption => exact ⟨⟨hrooted _ h.1.1, hclear _ h.1.2⟩, hleases _ _ _ h.2⟩
  | reattached adoption =>
    exact ⟨⟨hrooted _ h.1.1, hclear _ h.1.2⟩, hleases _ _ _ h.2.1, hslots _ h.2.1 h.2.2⟩
  | surveying survey numbers unread opened =>
    exact ⟨⟨hserial h.1.1, h.1.2⟩, fun token number hopen => h.2 _ _ (hopens _ _ hopen)⟩
  | looking survey numbers opened =>
    exact ⟨hserial h.1, fun token number hopen => h.2.1 _ _ (hopens _ _ hopen), h.2.2⟩
  | removing survey todo => exact ⟨hsurveys _ h.1, hspares _ _ h.2⟩
  | unlinking survey todo number =>
    exact ⟨⟨hsurveys _ h.1.1, hspares _ _ h.1.2⟩, hleases _ _ _ h.2.1, hfree _ h.2.2⟩
  | unlinked survey todo number => exact ⟨hsurveys _ h.1, hspares _ _ h.2⟩
  | choosing survey slots => exact ⟨hsurveys _ h.1, hspares _ _ h.2⟩
  | counting survey slots number =>
    exact ⟨⟨hsurveys _ h.1.1, hspares _ _ h.1.2⟩, hleases _ _ _ h.2.1, hfree _ h.2.2⟩
  | mending survey slots => exact ⟨hsurveys _ h.1, hspares _ _ h.2⟩
  | rebuilding survey number => exact ⟨hserial h.1, hleases _ _ _ h.2.1, hfree _ h.2.2⟩
  | cutting survey number =>
    exact ⟨hserial h.1, fun token hopen => h.2 token (hopens _ _ hopen)⟩
  | taken token number cut => exact ⟨hserial h.1, hleases _ _ _ h.2.1, hfree _ h.2.2⟩
  | recorded number => exact hserial h
  | idle => trivial
  | reopened adoption => trivial
  | visiting number mode => trivial

theorem Sound.frame (h : s.Sound p phase) (hrecords : s'.records = s.records)
    (hserial : s.serial = some p → s'.serial = some p)
    (hleases : ∀ number purpose mode, (s.leases number).Holds ⟨p, purpose⟩ mode →
      (s'.leases number).Holds ⟨p, purpose⟩ mode)
    (hslots : ∀ number, (s.leases number).Holds ⟨p, .adopting⟩ .shared →
      s.slots number ≠ none → s'.slots number ≠ none) : s'.Sound p phase := by
  refine h.mono (fun token number hopen => ?_) (fun adoption hrooted => ?_) hserial hleases hslots
  · rwa [Opens, hrecords] at hopen
  · rwa [Rooted, hrecords]

section Meeting

variable {record : Record β}

theorem opens_of_opens_openOn {other : τ} (h : (s.openOn token record).Opens other number) :
    (other = token ∧ number = record.slot) ∨ s.Opens other number := by
  obtain ⟨r, hr, hstate, hslot⟩ := h
  by_cases hother : other = token
  · subst hother
    obtain rfl : { record with state := .opened } = r := by
      simpa [openOn, World.write] using hr
    exact Or.inl ⟨rfl, hslot.symm⟩
  · refine Or.inr ⟨r, ?_, hstate, hslot⟩
    simpa [openOn, World.write, Function.update_of_ne hother] using hr

theorem Rooted.openOn {adoption : Adoption τ β} (h : s.Rooted adoption)
    (hroot : ∀ stored, s.records token = some stored → stored.slot = record.slot) :
    (s.openOn token record).Rooted adoption := by
  obtain ⟨stored, hstored, hsame⟩ := h
  by_cases hown : adoption.token = token
  · refine ⟨{ record with state := .opened }, ?_, ?_⟩
    · simp [World.openOn, World.write, hown]
    · exact (hroot stored (hown ▸ hstored)).symm.trans hsame
  · refine ⟨stored, ?_, hsame⟩
    simpa [World.openOn, World.write, Function.update_of_ne hown] using hstored

@[simp] theorem race_record (adoption : Adoption τ β) (slot : ℕ) :
    (adoption.race token slot).record = adoption.record := by
  unfold Adoption.race
  split_ifs <;> rfl

@[simp] theorem race_token (adoption : Adoption τ β) (slot : ℕ) :
    (adoption.race token slot).token = adoption.token := by
  unfold Adoption.race
  split_ifs <;> rfl

theorem mem_raced_race {adoption : Adoption τ β} {other : τ} (hother : other ≠ adoption.token)
    (h : (other = token ∧ adoption.record.slot = number) ∨ other ∈ adoption.raced) :
    other ∈ (adoption.race token number).raced := by
  unfold Adoption.race
  split_ifs with hrace
  · rcases h with ⟨rfl, -⟩ | hbefore
    · exact List.mem_cons_self
    · exact List.mem_cons_of_mem token hbefore
  · rcases h with ⟨rfl, hslot⟩ | hbefore
    · exact absurd ⟨hslot, Ne.symm hother⟩ hrace
    · exact hbefore

theorem Rooted.race {adoption : Adoption τ β} (h : s.Rooted adoption) (slot : ℕ) :
    s.Rooted (adoption.race token slot) := by
  simpa [Rooted] using h

theorem Clear.openOn {adoption : Adoption τ β} (h : s.Clear adoption) :
    (s.openOn token record).Clear (adoption.race token record.slot) := by
  intro other hother hopen
  simp only [race_token, race_record] at hother hopen
  refine mem_raced_race hother ?_
  rcases opens_of_opens_openOn hopen with hnew | hbefore
  · exact Or.inl hnew
  · exact Or.inr (h other hother hbefore)

theorem Spares.openOn {survey : Survey τ κ} {slots : List (Surveyed τ κ)} (h : s.Spares survey slots) :
    (s.openOn token record).Spares (survey.outdate token record.slot) slots := by
  intro slot hslot other hopen
  rcases opens_of_opens_openOn hopen with ⟨rfl, hnumber⟩ | hbefore
  · rw [hnumber]
    exact List.mem_cons_self
  · exact List.mem_cons_of_mem _ (h slot hslot other hbefore)

theorem Surveys.openOn {survey : Survey τ κ} (h : s.Surveys p survey) :
    (s.openOn token record).Surveys p (survey.outdate token record.slot) :=
  ⟨h.1, h.2.openOn⟩

theorem Free.openOn (h : s.Free number) (hne : number ≠ record.slot) :
    (s.openOn token record).Free number := by
  intro other hopen
  rcases opens_of_opens_openOn hopen with ⟨-, hsame⟩ | hbefore
  · exact hne hsame
  · exact h other hbefore

/-- Whoever does not hold the slot knows of the session that opened on it. -/
theorem Sound.meet (h : s.Sound p phase)
    (hroot : ∀ stored, s.records token = some stored → stored.slot = record.slot)
    (hheld : ¬ s.Holds p record.slot) :
    (s.openOn token record).Sound p (phase.meet token record.slot) := by
  have hne : ∀ number, s.Holds p number → number ≠ record.slot :=
    fun number hholds hsame => hheld (hsame ▸ hholds)
  cases phase with
  | loaded adoption =>
    refine ⟨(h.1.openOn hroot).race _, fun hstate => (h.2 ?_).openOn⟩
    rwa [race_record] at hstate
  | asking adoption unread owned =>
    refine ⟨(h.1.openOn hroot).race _, fun hnone other hother hopen => ?_⟩
    simp only [race_token, race_record] at hother hopen
    rcases opens_of_opens_openOn hopen with hnew | hbefore
    · exact Or.inr (mem_raced_race hother (Or.inl hnew))
    · refine (h.2 hnone other hother hbefore).imp_right fun hraced => ?_
      exact mem_raced_race hother (Or.inr hraced)
  | checked adoption => exact ⟨(h.1.openOn hroot).race _, h.2.openOn⟩
  | attached adoption =>
    refine ⟨⟨(h.1.1.openOn hroot).race _, h.1.2.openOn⟩, ?_⟩
    rw [race_record]
    exact h.2
  | reattached adoption =>
    refine ⟨⟨(h.1.1.openOn hroot).race _, h.1.2.openOn⟩, ?_⟩
    rw [race_record]
    exact h.2
  | surveying survey numbers unread opened =>
    refine ⟨h.1, fun other number hopen => ?_⟩
    rcases opens_of_opens_openOn hopen with ⟨rfl, rfl⟩ | hbefore
    · exact Or.inr (Or.inr List.mem_cons_self)
    · refine (h.2 other number hbefore).imp_right (Or.imp_right ?_)
      exact List.mem_cons_of_mem _
  | looking survey numbers opened =>
    refine ⟨h.1, fun other number hopen => ?_, h.2.2⟩
    rcases opens_of_opens_openOn hopen with ⟨rfl, rfl⟩ | hbefore
    · exact Or.inr List.mem_cons_self
    · exact (h.2.1 other number hbefore).imp_right (List.mem_cons_of_mem _)
  | removing survey todo => exact ⟨h.1.openOn, h.2.openOn⟩
  | unlinking survey todo number =>
    exact ⟨⟨h.1.1.openOn, h.1.2.openOn⟩, h.2.1, h.2.2.openOn (hne _ h.2.1)⟩
  | unlinked survey todo number => exact ⟨h.1.openOn, h.2.openOn⟩
  | choosing survey slots => exact ⟨h.1.openOn, h.2.openOn⟩
  | counting survey slots number =>
    exact ⟨⟨h.1.1.openOn, h.1.2.openOn⟩, h.2.1, h.2.2.openOn (hne _ h.2.1)⟩
  | mending survey slots => exact ⟨h.1.openOn, h.2.openOn⟩
  | rebuilding survey number => exact ⟨h.1, h.2.1, h.2.2.openOn (hne _ h.2.1)⟩
  | cutting survey number =>
    refine ⟨h.1, fun other hopen => ?_⟩
    rcases opens_of_opens_openOn hopen with ⟨rfl, rfl⟩ | hbefore
    · exact List.mem_cons_self
    · exact List.mem_cons_of_mem _ (h.2 other hbefore)
  | taken token number cut => exact ⟨h.1, h.2.1, h.2.2.openOn (hne _ h.2.1)⟩
  | recorded number => exact h
  | idle => trivial
  | reopened adoption => trivial
  | visiting number mode => trivial

/-- A session opens on a slot that is there and that nobody else has. -/
theorem Invariant.openOn (h : s.Invariant) (phase : Phase τ κ β)
    (hphase : (s.openOn token record).Sound p phase)
    (hroot : ∀ stored, s.records token = some stored → stored.slot = record.slot)
    (hthere : s.slots record.slot ≠ none)
    (halone : ∀ other, other ≠ token → ¬ s.Opens other record.slot)
    (hothers : ∀ q, q ≠ p → ¬ s.Holds q record.slot) :
    ((s.openOn token record).goto p phase).Invariant where
  listed other r hr := by
    by_cases hother : other = token
    · subst hother
      by_cases hmem : other ∈ s.tokens <;> simp [World.openOn, World.write, World.goto, hmem]
    · have hstored : s.records other = some r := by
        simpa [World.openOn, World.write, World.goto, Function.update_of_ne hother] using hr
      have hmem := h.listed other r hstored
      by_cases htoken : token ∈ s.tokens <;>
        simp [World.openOn, World.write, World.goto, htoken, hmem]
  there other number hopen := by
    rcases opens_of_opens_openOn hopen with ⟨-, rfl⟩ | hbefore
    · exact hthere
    · exact h.there other number hbefore
  apart first second number hfirst hsecond := by
    by_contra hne
    rcases opens_of_opens_openOn hfirst with ⟨rfl, rfl⟩ | hbefore <;>
      rcases opens_of_opens_openOn hsecond with ⟨rfl, hsame⟩ | hbefore'
    · exact hne rfl
    · exact halone second (Ne.symm hne) hbefore'
    · exact halone first hne (hsame ▸ hbefore)
    · exact hne (h.apart first second number hbefore hbefore')
  sound q := by
    have hkept : ∀ phase', (s.openOn token record).Sound q phase' →
        ((s.openOn token record).goto p phase).Sound q phase' := fun phase' hsound =>
      hsound.frame rfl (fun hserial => hserial) (fun _ _ _ hheld => hheld) fun _ _ hthere => hthere
    by_cases hq : q = p
    · subst hq
      have hself : ((s.openOn token record).goto q phase).process q = phase :=
        Function.update_self ..
      rw [hself]
      exact hkept _ hphase
    · have hother : ((s.openOn token record).goto p phase).process q =
          (s.process q).meet token record.slot := Function.update_of_ne hq ..
      rw [hother]
      exact hkept _ ((h.sound q).meet hroot (hothers q hq))

end Meeting

/-! ## What changes no record -/

/-- The process moves on, over changes that take nothing from the others. -/
theorem Invariant.frame (h : s.Invariant) (phase : Phase τ κ β) (hphase : s'.Sound p phase)
    (hrecords : s'.records = s.records) (htokens : s'.tokens = s.tokens)
    (hprocess : s'.process = s.process)
    (hserial : ∀ q, q ≠ p → s.serial = some q → s'.serial = some q)
    (hleases : ∀ q, q ≠ p → ∀ number purpose mode,
      (s.leases number).Holds ⟨q, purpose⟩ mode → (s'.leases number).Holds ⟨q, purpose⟩ mode)
    (hslots : ∀ q, q ≠ p → ∀ number, (s.leases number).Holds ⟨q, .adopting⟩ .shared →
      s.slots number ≠ none → s'.slots number ≠ none)
    (hthere : ∀ number, ¬ s.Free number → s.slots number ≠ none → s'.slots number ≠ none) :
    (s'.goto p phase).Invariant := by
  have hopens : ∀ token number, (s'.goto p phase).Opens token number ↔ s.Opens token number := by
    intro token number
    have hsame : (s'.goto p phase).records = s.records := hrecords
    rw [Opens, Opens, hsame]
  refine ⟨fun token record hr => ?_, fun token number hopen => ?_,
    fun first second number hfirst hsecond => ?_, fun q => ?_⟩
  · have hstored : s.records token = some record := hrecords ▸ hr
    exact htokens ▸ h.listed token record hstored
  · have hbefore := (hopens token number).mp hopen
    exact hthere number (fun hfree => hfree token hbefore) (h.there token number hbefore)
  · exact h.apart first second number ((hopens _ _).mp hfirst) ((hopens _ _).mp hsecond)
  · by_cases hq : q = p
    · subst hq
      have hself : (s'.goto q phase).process q = phase := Function.update_self ..
      rw [hself]
      exact hphase.frame rfl (fun hserial => hserial) (fun _ _ _ hheld => hheld)
        fun _ _ hthere => hthere
    · have hother : (s'.goto p phase).process q = s.process q := by
        rw [← hprocess]
        exact Function.update_of_ne hq ..
      rw [hother]
      exact (h.sound q).frame hrecords (hserial q hq) (hleases q hq) (hslots q hq)

theorem Invariant.goto (h : s.Invariant) (phase : Phase τ κ β) (hphase : s.Sound p phase) :
    (s.goto p phase).Invariant :=
  h.frame phase hphase rfl rfl rfl (fun _ _ hserial => hserial) (fun _ _ _ _ _ hheld => hheld)
    (fun _ _ _ _ hthere => hthere) fun _ _ hthere => hthere

theorem Invariant.lease (h : s.Invariant) (phase : Phase τ κ β) {purpose : Purpose} {mode : Mode}
    {lease : Flock (Handle π)} (htake : (s.leases number).take ⟨p, purpose⟩ mode = some lease)
    (hphase : Sound { s with leases := Function.update s.leases number lease } p phase) :
    (World.goto { s with leases := Function.update s.leases number lease } p phase).Invariant :=
  h.frame phase hphase rfl rfl rfl (fun _ _ hserial => hserial)
    (fun _ _ _ _ _ hheld => Flock.holds_update_take htake hheld)
    (fun _ _ _ _ hthere => hthere) fun _ _ hthere => hthere

theorem Invariant.tryLease (h : s.Invariant) {purpose : Purpose} {mode : Mode}
    {granted refused : Phase τ κ β}
    (hgranted : ∀ lease, (s.leases number).take ⟨p, purpose⟩ mode = some lease →
      Sound { s with leases := Function.update s.leases number lease } p granted)
    (hrefused : s.Sound p refused) :
    (s.tryLease p number purpose mode granted refused).Invariant := by
  unfold World.tryLease
  split
  · rename_i lease htake
    exact h.lease granted htake (hgranted lease htake)
  · exact h.goto refused hrefused

theorem holds_drop_of_ne {purpose purpose' : Purpose} {number' : ℕ} {mode : Mode} (hq : q ≠ p)
    (h : (s.leases number').Holds ⟨q, purpose'⟩ mode) :
    ((s.drop p number purpose).leases number').Holds ⟨q, purpose'⟩ mode :=
  Flock.holds_update_drop.mpr ⟨h, fun hsame => hq (Handle.mk.inj hsame.2).1⟩

theorem Invariant.drop (h : s.Invariant) (phase : Phase τ κ β) {purpose : Purpose}
    (hphase : (s.drop p number purpose).Sound p phase) :
    ((s.drop p number purpose).goto p phase).Invariant :=
  h.frame phase hphase rfl rfl rfl (fun _ _ hserial => hserial)
    (fun _ hq _ _ _ hheld => holds_drop_of_ne hq hheld) (fun _ _ _ _ hthere => hthere)
    fun _ _ hthere => hthere

theorem put_ne_none {contents : Contents κ β} {number' : ℕ} (h : s.slots number' ≠ none) :
    (s.put number (some contents)).slots number' ≠ none := by
  by_cases hnumber : number' = number
  · subst hnumber
    simp [put]
  · simpa [put, Function.update_of_ne hnumber] using h

theorem Invariant.put (h : s.Invariant) (phase : Phase τ κ β) {contents : Contents κ β}
    (hphase : s.Sound p phase) : ((s.put number (some contents)).goto p phase).Invariant := by
  refine h.frame phase ?_ rfl rfl rfl (fun _ _ hserial => hserial) (fun _ _ _ _ _ hheld => hheld)
    (fun _ _ _ _ hthere => put_ne_none hthere) fun _ _ hthere => put_ne_none hthere
  exact hphase.frame rfl (fun hserial => hserial) (fun _ _ _ hheld => hheld)
    fun _ _ hthere => put_ne_none hthere

theorem unlink_ne_none (hheld : s.Holds p number) (hfree : s.Free number) :
    (∀ q number', (s.leases number').Holds ⟨q, .adopting⟩ .shared → s.slots number' ≠ none →
        (s.put number none).slots number' ≠ none) ∧
      ∀ number', ¬ s.Free number' → s.slots number' ≠ none →
        (s.put number none).slots number' ≠ none := by
  refine ⟨fun q number' hshared hthere => ?_, fun number' hnotfree hthere => ?_⟩
  · have hne : number' ≠ number := by
      rintro rfl
      exact Mode.noConfusion (Flock.exclusive_alone hheld hshared).2
    simpa [World.put, Function.update_of_ne hne] using hthere
  · have hne : number' ≠ number := fun hsame => hnotfree (hsame ▸ hfree)
    simpa [World.put, Function.update_of_ne hne] using hthere

theorem Invariant.finish (h : s.Invariant) (hserial : s.serial = some p) {purpose : Purpose} :
    (((s.drop p number purpose).yieldPool).goto p .idle).Invariant := by
  refine h.frame .idle trivial rfl rfl rfl (fun q hq hother => ?_)
    (fun _ hq _ _ _ hheld => holds_drop_of_ne hq hheld) (fun _ _ _ _ hthere => hthere)
    fun _ _ hthere => hthere
  exact absurd (Option.some.inj (hserial.symm.trans hother)) (Ne.symm hq)

theorem Invariant.yieldPool (h : s.Invariant) (hserial : s.serial = some p) :
    (s.yieldPool.goto p .idle).Invariant := by
  refine h.frame .idle trivial rfl rfl rfl (fun q hq hother => ?_) (fun _ _ _ _ _ hheld => hheld)
    (fun _ _ _ _ hthere => hthere) fun _ _ hthere => hthere
  exact absurd (Option.some.inj (hserial.symm.trans hother)) (Ne.symm hq)

end World

end Onevcs.Pool
