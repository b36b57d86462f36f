import Onevcs.Pool.Maintenance

/-!
# A live maintenance claim and its readers

A claim that was written is on its slot's record until its outcome is written or its process
dies, exactly where no reader without the pool's lock clears the record over it, and nothing is
made of a broken slot whose claimant could not write its outcome.

A claim and an outcome are written under the slot's lease, which is held alone, so no other
process's claim is written over; and a survey under the pool's lock clears no claim that was
written since it read the record, because none is written.
-/

set_option linter.unusedSectionVars false

namespace Onevcs.Pool.Maintenance

open Foundations (System)

section Kept

variable {τ κ π : Type} [DecidableEq τ] [DecidableEq κ] [DecidableEq π]
variable {s s' : World τ κ π} {p q : π} {number : ℕ} {phase : Phase τ κ π}

/-- The claim in a slot's directory. -/
def claimIn (slot : Option (Slot κ π)) : Option (Claim π) :=
  (slot.bind Slot.record).bind SlotRecord.maintaining

namespace World

/-- The claim on a slot's record. -/
def claimOf (s : World τ κ π) (number : ℕ) : Option (Claim π) := claimIn (s.slots number)

/-- Every claim that was written, by a process that runs and has not written its outcome, is on
its slot's record. -/
def Carried (s : World τ κ π) : Prop :=
  ∀ entry ∈ s.owed, s.claimOf entry.1 = some entry.2

/-- A claim on the slot is owed its outcome. -/
def owes (s : World τ κ π) (number : ℕ) : Bool := s.owed.any fun entry => entry.1 = number

/-- The step writes over no claim that is owed its outcome: a report clears none, and no broken
slot with one is recreated or removed. -/
def spares (s : World τ κ π) : Label τ κ π → Bool
  | .act p (.clear written) =>
    match s.process p with
    | .void survey number _ =>
      !(s.running p && written && !survey.job.locks && s.owes number)
    | _ => true
  | .act p (.rewrite _ _) =>
    match s.process p with
    | .inside .place _ slot =>
      !(s.running p && decide (slot.state = .broken) && s.owes slot.number)
    | _ => true
  | .act p .remove =>
    match s.process p with
    | .inside _ _ slot =>
      !(s.running p && decide (slot.state = .broken) && s.owes slot.number)
    | _ => true
  | _ => true

/-! ## What a process knows -/

/-- No claim on the slot is owed its outcome. -/
def Unclaimed (s : World τ κ π) (number : ℕ) : Prop := ∀ entry ∈ s.owed, entry.1 ≠ number

theorem owes_eq_false : s.owes number = false ↔ s.Unclaimed number := by
  simp [owes, Unclaimed]

/-- A record that was read has each claim on the slot that is owed its outcome. -/
def Seen (s : World τ κ π) (number : ℕ) (record : Option (SlotRecord κ π)) : Prop :=
  ∀ entry ∈ s.owed, entry.1 = number → record.bind SlotRecord.maintaining = some entry.2

/-- The slots found idle have no claim. -/
def Clear (s : World τ κ π) (found : List (Surveyed τ κ π)) : Prop :=
  ∀ slot ∈ found, slot.state = .idle → s.Unclaimed slot.number

/-- What a process that has the pool's lock or a slot's lease knows. -/
def Sound (s : World τ κ π) (p : π) : Phase τ κ π → Prop
  | .idle => True
  | .queue _ => True
  | .surveying survey =>
    survey.job.locks = true → s.serial = some p ∧ s.Clear survey.found
  | .looked survey number record =>
    survey.job.locks = true → s.serial = some p ∧ s.Clear survey.found ∧ s.Seen number record
  | .void survey number _ =>
    survey.job.locks = true → s.serial = some p ∧ s.Clear survey.found ∧ s.Unclaimed number
  | .surveyed _ found => s.serial = some p ∧ s.Clear found
  | .inside _ found slot =>
    s.serial = some p ∧ s.Clear found ∧ s.lease slot.number = some p ∧
      (slot.state = .idle → s.Unclaimed slot.number) ∧
      (slot.state = .idle ∨ slot.state = .broken)
  | .holding number _ _ =>
    s.serial = some p ∧ s.lease number = some p ∧ s.Unclaimed number
  | .maintaining number record _ =>
    s.lease number = some p ∧ ∃ claim, record.maintaining = some claim ∧ claim.owner = p ∧
      (number, claim) ∈ s.owed

/-- What holds of every pool that keeps its claims. -/
structure Invariant (s : World τ κ π) : Prop where
  sound : ∀ p, s.Sound p (s.process p)
  live : ∀ entry ∈ s.owed, s.running entry.2.owner = true

/-- What a step of others leaves a process: its locks, while it has the pool's lock no new claim,
and its own claim on a slot it holds. -/
structure Aside (s s' : World τ κ π) (p : π) : Prop where
  serial : s.serial = some p → s'.serial = some p
  lease : ∀ number, s.lease number = some p → s'.lease number = some p
  owed : s.serial = some p → s'.owed ⊆ s.owed
  own : ∀ entry ∈ s.owed, entry.2.owner = p → s.lease entry.1 = some p → entry ∈ s'.owed

theorem Unclaimed.mono (h : s.Unclaimed number) (howed : s'.owed ⊆ s.owed) :
    s'.Unclaimed number :=
  fun entry hentry => h entry (howed hentry)

theorem Clear.mono {found : List (Surveyed τ κ π)} (h : s.Clear found)
    (howed : s'.owed ⊆ s.owed) : s'.Clear found :=
  fun slot hslot hidle => (h slot hslot hidle).mono howed

theorem Seen.mono {record : Option (SlotRecord κ π)} (h : s.Seen number record)
    (howed : s'.owed ⊆ s.owed) : s'.Seen number record :=
  fun entry hentry => h entry (howed hentry)

theorem Sound.aside (h : s.Sound p phase) (haside : s.Aside s' p) : s'.Sound p phase := by
  cases phase with
  | idle => trivial
  | queue numbers => trivial
  | surveying survey =>
    intro hlocks
    obtain ⟨hserial, hclear⟩ := h hlocks
    exact ⟨haside.serial hserial, hclear.mono (haside.owed hserial)⟩
  | looked survey number record =>
    intro hlocks
    obtain ⟨hserial, hclear, hseen⟩ := h hlocks
    have howed := haside.owed hserial
    exact ⟨haside.serial hserial, hclear.mono howed, hseen.mono howed⟩
  | void survey number record =>
    intro hlocks
    obtain ⟨hserial, hclear, hunclaimed⟩ := h hlocks
    have howed := haside.owed hserial
    exact ⟨haside.serial hserial, hclear.mono howed, hunclaimed.mono howed⟩
  | surveyed job found =>
    obtain ⟨hserial, hclear⟩ := h
    exact ⟨haside.serial hserial, hclear.mono (haside.owed hserial)⟩
  | inside job found slot =>
    obtain ⟨hserial, hclear, hlease, hidle, hstate⟩ := h
    have howed := haside.owed hserial
    exact ⟨haside.serial hserial, hclear.mono howed, haside.lease _ hlease,
      fun heq => (hidle heq).mono howed, hstate⟩
  | holding number record rest =>
    obtain ⟨hserial, hlease, hunclaimed⟩ := h
    exact ⟨haside.serial hserial, haside.lease _ hlease,
      hunclaimed.mono (haside.owed hserial)⟩
  | maintaining number record rest =>
    obtain ⟨hlease, claim, hclaim, howner, howed⟩ := h
    exact ⟨haside.lease _ hlease, claim, hclaim, howner,
      haside.own (number, claim) howed howner hlease⟩

theorem Carried.of_slots (h : s.Carried) (howed : s'.owed ⊆ s.owed)
    (hslots : ∀ number, ¬ s.Unclaimed number → s'.claimOf number = s.claimOf number) :
    s'.Carried := by
  intro entry hentry
  have hbefore := howed hentry
  rw [hslots entry.1 fun hunclaimed => hunclaimed entry hbefore rfl]
  exact h entry hbefore

theorem claimOf_of_ne {slot : Option (Slot κ π)} {other : ℕ}
    (hslots : s'.slots = Function.update s.slots number slot) (hother : other ≠ number) :
    s'.claimOf other = s.claimOf other := by
  rw [claimOf, hslots, Function.update_of_ne hother]
  rfl

theorem Carried.of_unclaimed {slot : Option (Slot κ π)} (h : s.Carried)
    (hunclaimed : s.Unclaimed number) (howed : s'.owed ⊆ s.owed)
    (hslots : s'.slots = Function.update s.slots number slot) : s'.Carried := by
  refine h.of_slots howed fun other hother => claimOf_of_ne hslots ?_
  rintro rfl
  exact hother hunclaimed

theorem claimOf_write_none {record : SlotRecord κ π} (hrecord : record.maintaining = none) :
    (s.write number record).claimOf number = none := by
  unfold claimOf write
  cases s.slots number with
  | none => simp [claimIn]
  | some slot => simp [claimIn, hrecord]

theorem Carried.unclaimed (h : s.Carried) (hnone : s.claimOf number = none) :
    s.Unclaimed number := by
  rintro entry hentry rfl
  rw [h entry hentry] at hnone
  cases hnone

/-! ## One step of a process -/

/-- What a step of a process does to what is known, and where it keeps the claims. -/
structure Effect (s s' : World τ κ π) (p : π) (ok : Prop) : Prop where
  process : ∀ q, q ≠ p → s'.process q = s.process q
  aside : ∀ q, q ≠ p → s.Aside s' q
  own : s'.Sound p (s'.process p)
  running : s'.running = s.running
  owed : ∀ entry ∈ s'.owed, entry ∈ s.owed ∨ entry.2.owner = p
  carried : s'.Carried ↔ ok

theorem Effect.of_owed {ok : Prop} (hprocess : s'.process = Function.update s.process p phase)
    (howed : s'.owed = s.owed) (hrunning : s'.running = s.running)
    (hserial : ∀ q, q ≠ p → s.serial = some q → s'.serial = some q)
    (hlease : ∀ q, q ≠ p → ∀ number, s.lease number = some q → s'.lease number = some q)
    (hsound : s'.Sound p phase) (hcarried : s'.Carried ↔ ok) : s.Effect s' p ok where
  process q hq := by rw [hprocess, Function.update_of_ne hq]
  aside q hq := by
    refine ⟨hserial q hq, hlease q hq, fun _ => ?_, fun entry hentry _ _ => ?_⟩
    · rw [howed]
      exact List.Subset.refl _
    · rw [howed]
      exact hentry
  own := by
    rw [hprocess, Function.update_self]
    exact hsound
  running := hrunning
  owed entry hentry := .inl (howed ▸ hentry)
  carried := hcarried

theorem Effect.goto (h : s.Carried) (hsound : s.Sound p phase) :
    s.Effect (s.goto p phase) p True := by
  refine .of_owed rfl rfl rfl (fun _ _ => id) (fun _ _ _ => id) ?_ (iff_of_true h trivial)
  exact hsound.aside ⟨id, fun _ => id, fun _ => List.Subset.refl _, fun _ hentry _ _ => hentry⟩

theorem Effect.begin {survey : Survey τ κ π} (h : s.Carried) (hfree : s.serial = none)
    (hfound : survey.found = []) :
    s.Effect ({ s with serial := some p }.goto p (.surveying survey)) p True := by
  refine .of_owed rfl rfl rfl (fun q _ hserial => ?_) (fun _ _ _ => id) (fun _ => ⟨rfl, ?_⟩)
    (iff_of_true h trivial)
  · rw [hfree] at hserial
    cases hserial
  · rw [hfound]
    exact fun _ hslot => nomatch hslot

theorem Effect.yield (h : s.Carried) (hserial : s.serial = some p)
    (hsound : ∀ s : World τ κ π, s.Sound p phase) :
    s.Effect ({ s with serial := none }.goto p phase) p True := by
  refine .of_owed rfl rfl rfl (fun q hq hother => ?_) (fun _ _ _ => id) (hsound _)
    (iff_of_true h trivial)
  exact absurd (Option.some.inj (hother.symm.trans hserial)) hq

attribute [local simp] actStep

theorem effect_begin (h : s.Carried) {job : Job} {numbers : List ℕ}
    (hstep : s.actStep p (.begin job numbers) = some s') : s.Effect s' p True := by
  simp only [actStep] at hstep
  split at hstep
  · obtain rfl := Option.some.inj hstep
    exact .goto h fun hlocks => nomatch hlocks
  · split at hstep
    · next hfree =>
      obtain rfl := Option.some.inj hstep
      exact .begin h hfree rfl
    · cases hstep
  · split at hstep
    · next hfree =>
      obtain rfl := Option.some.inj hstep
      exact .begin h hfree rfl
    · cases hstep
  · split at hstep
    · next hfree =>
      obtain rfl := Option.some.inj hstep
      exact .begin h hfree rfl
    · cases hstep
  · cases hstep

theorem Carried.seen (h : s.Carried) : s.Seen number ((s.slots number).bind Slot.record) := by
  rintro entry hentry rfl
  exact h entry hentry

theorem effect_look (hinv : s.Invariant) (h : s.Carried)
    (hstep : s.actStep p .look = some s') : s.Effect s' p True := by
  have hsound := hinv.sound p
  simp only [actStep] at hstep
  split at hstep
  · next job opened number numbers found hphase =>
    rw [hphase] at hsound
    obtain rfl := Option.some.inj hstep
    refine .goto h fun hlocks => ?_
    obtain ⟨hserial, hclear⟩ := hsound hlocks
    exact ⟨hserial, hclear, h.seen⟩
  · cases hstep

theorem Clear.add {survey : Survey τ κ π} {slot : Surveyed τ κ π} (h : s.Clear survey.found)
    (hslot : slot.state = .idle → s.Unclaimed slot.number) :
    s.Clear (survey.add slot).found := by
  intro other hother hidle
  rcases List.mem_append.mp hother with hbefore | hlast
  · exact h other hbefore hidle
  · obtain rfl := List.mem_singleton.mp hlast
    exact hslot hidle

/-- The session of the first workspace opened on a slot holds it. -/
example : holder [(7, 1), (8, 2), (9, 2)] 2 = some 8 := by decide +kernel

theorem void_of_idle {running : π → Bool} {opened : List (τ × ℕ)} {record : SlotRecord κ π}
    {slot : Slot κ π} {claim : Claim π}
    (hidle : stateOf running opened number (some record) slot = .idle)
    (hclaim : record.maintaining = some claim) : running claim.owner = false := by
  cases hheld : holder opened number with
  | some session =>
    simp only [stateOf, hheld, Option.elim] at hidle
    repeat' split at hidle
    all_goals cases hidle
  | none =>
    simp only [stateOf, hheld, hclaim, Option.elim] at hidle
    repeat' split at hidle
    all_goals first
      | cases hidle; done
      | next hdead => exact Bool.eq_false_iff.mpr hdead

theorem record_of_idle {running : π → Bool} {opened : List (τ × ℕ)}
    {record : Option (SlotRecord κ π)} {slot : Slot κ π}
    (hidle : stateOf running opened number record slot = .idle) :
    ∃ read, record = some read := by
  cases record with
  | none => cases hidle
  | some read => exact ⟨read, rfl⟩

theorem Seen.unclaimed (hinv : s.Invariant) {opened : List (τ × ℕ)} {record : SlotRecord κ π}
    {slot : Slot κ π} (hseen : s.Seen number (some record))
    (hidle : stateOf s.running opened number (some record) slot = .idle) :
    s.Unclaimed number := by
  intro entry hentry hnumber
  have hdead := void_of_idle hidle (hseen entry hentry hnumber)
  rw [hinv.live entry hentry] at hdead
  cases hdead

theorem effect_judge (hinv : s.Invariant) (h : s.Carried)
    (hstep : s.actStep p .judge = some s') : s.Effect s' p True := by
  have hsound := hinv.sound p
  simp only [actStep] at hstep
  split at hstep
  · next survey number record hphase =>
    rw [hphase] at hsound
    split at hstep
    · obtain rfl := Option.some.inj hstep
      refine .goto h fun hlocks => ?_
      obtain ⟨hserial, hclear, -⟩ := hsound hlocks
      exact ⟨hserial, hclear.add fun hidle => nomatch hidle⟩
    · next slot hslot =>
      split at hstep
      · next record hidle =>
        split at hstep
        · obtain rfl := Option.some.inj hstep
          refine .goto h fun hlocks => ?_
          obtain ⟨hserial, hclear, hseen⟩ := hsound hlocks
          exact ⟨hserial, hclear.add fun _ => hseen.unclaimed hinv hidle⟩
        · obtain rfl := Option.some.inj hstep
          refine .goto h fun hlocks => ?_
          obtain ⟨hserial, hclear, hseen⟩ := hsound hlocks
          exact ⟨hserial, hclear, hseen.unclaimed hinv hidle⟩
      · next hother =>
        obtain rfl := Option.some.inj hstep
        refine .goto h fun hlocks => ?_
        obtain ⟨hserial, hclear, hseen⟩ := hsound hlocks
        refine ⟨hserial, hclear.add fun hidle => ?_⟩
        obtain ⟨read, hread⟩ := record_of_idle hidle
        exact (hother read hidle hread).elim
  · cases hstep

theorem effect_clear (hinv : s.Invariant) (h : s.Carried) (hrunning : s.running p = true)
    {written : Bool} (hstep : s.actStep p (.clear written) = some s') :
    s.Effect s' p (s.spares (.act p (.clear written)) = true) := by
  have hsound := hinv.sound p
  simp only [actStep] at hstep
  split at hstep
  · next survey number record hphase =>
    rw [hphase] at hsound
    have hnext : s.Sound p
        (.surveying (survey.add ⟨number, some record.cleared, .idle⟩)) := fun hlocks => by
      obtain ⟨hserial, hclear, hunclaimed⟩ := hsound hlocks
      exact ⟨hserial, hclear.add fun _ => hunclaimed⟩
    split at hstep
    · next hwritten =>
      obtain rfl := Option.some.inj hstep
      refine .of_owed rfl rfl rfl (fun _ _ => id) (fun _ _ _ => id) ?_ ?_
      · exact hnext.aside
          ⟨id, fun _ => id, fun _ => List.Subset.refl _, fun _ hentry _ _ => hentry⟩
      · simp only [spares, hphase, hrunning, hwritten, Bool.true_and, Bool.not_eq_true',
          Bool.and_eq_false_iff, Bool.not_eq_false', owes_eq_false]
        constructor
        · intro hcarried
          have hnone : (s.write number record.cleared).claimOf number = none :=
            claimOf_write_none rfl
          exact .inr (hcarried.unclaimed hnone)
        · rintro (hlocks | hunclaimed)
          · exact h.of_unclaimed (hsound hlocks).2.2 (List.Subset.refl _) rfl
          · exact h.of_unclaimed hunclaimed (List.Subset.refl _) rfl
    · next hwritten =>
      obtain rfl := Option.some.inj hstep
      have heffect : s.Effect _ p True := .goto h hnext
      refine { heffect with carried := iff_of_true h ?_ }
      simp [spares, hphase, hwritten]
  · cases hstep

theorem effect_done (hinv : s.Invariant) (h : s.Carried)
    (hstep : s.actStep p .done = some s') : s.Effect s' p True := by
  have hsound := hinv.sound p
  simp only [actStep] at hstep
  split at hstep
  · obtain rfl := Option.some.inj hstep
    exact .goto h trivial
  · next job opened found hjob hphase =>
    rw [hphase] at hsound
    obtain rfl := Option.some.inj hstep
    refine .goto h (hsound ?_)
    cases job with
    | report => exact (hjob rfl).elim
    | _ => rfl
  · obtain rfl := Option.some.inj hstep
    exact .goto h trivial
  · cases hstep

theorem state_of_takeable {slot : Surveyed τ κ π} (h : slot.takeable = true) :
    slot.state = .idle ∨ slot.state = .broken := by
  unfold Surveyed.takeable at h
  cases hstate : slot.state with
  | idle => exact .inl rfl
  | broken => exact .inr rfl
  | inUse session => simp [hstate] at h
  | maintaining claim => simp [hstate] at h

theorem Effect.lease (h : s.Carried) (hfree : s.lease number = none)
    (hsound : ({ s with lease := Function.update s.lease number (some p) } :
      World τ κ π).Sound p phase) :
    s.Effect ({ s with lease := Function.update s.lease number (some p) }.goto p phase) p
      True := by
  refine .of_owed rfl rfl rfl (fun _ _ => id) (fun q _ other hlease => ?_) ?_
    (iff_of_true h trivial)
  · have hother : other ≠ number := by
      rintro rfl
      rw [hfree] at hlease
      cases hlease
    exact (Function.update_of_ne hother ..).trans hlease
  · exact hsound.aside
      ⟨id, fun _ => id, fun _ => List.Subset.refl _, fun _ hentry _ _ => hentry⟩

theorem effect_lease (hinv : s.Invariant) (h : s.Carried) {granted : Bool}
    (hstep : s.actStep p (.lease number granted) = some s') : s.Effect s' p True := by
  have hsound := hinv.sound p
  simp only [actStep] at hstep
  split at hstep
  · next rest found record hphase =>
    rw [hphase] at hsound
    obtain ⟨hserial, hclear⟩ := hsound
    split at hstep
    · split at hstep
      · next hfree =>
        obtain rfl := Option.some.inj hstep
        refine .lease h hfree ⟨hserial, Function.update_self .., ?_⟩
        exact hclear _ List.mem_cons_self rfl
      · cases hstep
    · obtain rfl := Option.some.inj hstep
      exact .yield h hserial fun _ => trivial
  · cases hstep
  · next job found _ _ hphase =>
    rw [hphase] at hsound
    obtain ⟨hserial, hclear⟩ := hsound
    split at hstep
    · next slot hfind =>
      split at hstep
      · next hgranted =>
        obtain ⟨-, htakeable, hfree⟩ := hgranted
        obtain rfl := Option.some.inj hstep
        have hslot := List.mem_of_find?_eq_some hfind
        have hnumber : slot.number = number := by simpa using List.find?_some hfind
        subst hnumber
        refine .lease h hfree ⟨hserial, hclear, Function.update_self ..,
          hclear slot hslot, state_of_takeable htakeable⟩
      · cases hstep
    · cases hstep
  · cases hstep

theorem effect_cut (hinv : s.Invariant) (h : s.Carried)
    (hstep : s.actStep p (.cut number) = some s') : s.Effect s' p True := by
  have hsound := hinv.sound p
  simp only [actStep] at hstep
  split at hstep
  · next found hphase =>
    rw [hphase] at hsound
    obtain ⟨hserial, hclear⟩ := hsound
    split at hstep
    · next hfree =>
      obtain ⟨habsent, hfree⟩ := hfree
      obtain rfl := Option.some.inj hstep
      have hunclaimed : s.Unclaimed number := h.unclaimed (by simp [claimOf, claimIn, habsent])
      have hlease : s.Effect ({ s with lease := Function.update s.lease number (some p) }.goto
          p (.inside .place found ⟨number, none, .broken⟩)) p True :=
        .lease h hfree ⟨hserial, hclear, Function.update_self .., fun _ => hunclaimed,
          .inr rfl⟩
      refine ⟨hlease.process, fun q hq => ?_, ?_, rfl, fun _ => .inl, iff_of_true ?_ trivial⟩
      · exact ⟨(hlease.aside q hq).serial, (hlease.aside q hq).lease,
          (hlease.aside q hq).owed, (hlease.aside q hq).own⟩
      · exact hlease.own.aside
          ⟨id, fun _ => id, fun _ => List.Subset.refl _, fun _ hentry _ _ => hentry⟩
      · exact h.of_unclaimed hunclaimed (List.Subset.refl _) rfl
    · cases hstep
  · cases hstep

/-- What is made of a slot that is held alone: it keeps the claims if there is none on it. -/
theorem Effect.make {ok : Prop} {job : Job} {found after : List (Surveyed τ κ π)}
    {slot : Surveyed τ κ π} {made : Option (Slot κ π)}
    (hsound : s.Sound p (.inside job found slot)) (h : s.Carried) (hafter : after ⊆ found)
    (hmade : claimIn made = none) (hok : s.Unclaimed slot.number ↔ ok) :
    s.Effect ({ s with slots := Function.update s.slots slot.number made }.goto p
      (.inside job after slot)) p ok := by
  obtain ⟨hserial, hclear, hlease, hidle, hstate⟩ := hsound
  refine .of_owed rfl rfl rfl (fun _ _ => id) (fun _ _ _ => id) ?_ (Iff.trans ⟨?_, ?_⟩ hok)
  · exact ⟨hserial, fun other hother => hclear other (hafter hother), hlease, hidle, hstate⟩
  · intro hcarried
    refine hcarried.unclaimed ?_
    show claimIn (Function.update s.slots slot.number made slot.number) = none
    rw [Function.update_self, hmade]
  · exact fun hunclaimed => h.of_unclaimed hunclaimed (List.Subset.refl _) rfl

theorem effect_rewrite (hinv : s.Invariant) (h : s.Carried) (hrunning : s.running p = true)
    {executionCheckout : κ} {created : ℕ}
    (hstep : s.actStep p (.rewrite executionCheckout created) = some s') :
    s.Effect s' p (s.spares (.act p (.rewrite executionCheckout created)) = true) := by
  have hsound := hinv.sound p
  simp only [actStep] at hstep
  split at hstep
  · next found slot hphase =>
    rw [hphase] at hsound
    split at hstep
    · next hbroken =>
      obtain rfl := Option.some.inj hstep
      refine .make hsound h (List.Subset.refl _) rfl ?_
      simp [spares, hphase, hrunning, hbroken, owes_eq_false]
    · cases hstep
  · cases hstep

theorem effect_remove (hinv : s.Invariant) (h : s.Carried) (hrunning : s.running p = true)
    (hstep : s.actStep p .remove = some s') :
    s.Effect s' p (s.spares (.act p .remove) = true) := by
  have hsound := hinv.sound p
  simp only [actStep] at hstep
  split at hstep
  · next job found slot hphase =>
    rw [hphase] at hsound
    obtain rfl := Option.some.inj hstep
    refine .make hsound h List.erase_subset rfl ?_
    obtain ⟨-, -, -, hidle, hstate | hstate⟩ := hsound
    · exact iff_of_true (hidle hstate) (by simp [spares, hphase, hstate])
    · simp [spares, hphase, hrunning, hstate, owes_eq_false]
  · cases hstep

theorem drop_aside (hlease : s.lease number = some p) (hq : q ≠ p) :
    ∀ other, s.lease other = some q → (s.drop number).lease other = some q := by
  intro other hother
  have hne : other ≠ number := by
    rintro rfl
    exact hq (Option.some.inj (hother.symm.trans hlease))
  exact (Function.update_of_ne hne ..).trans hother

theorem effect_leave (hinv : s.Invariant) (h : s.Carried)
    (hstep : s.actStep p .leave = some s') : s.Effect s' p True := by
  have hsound := hinv.sound p
  simp only [actStep] at hstep
  split at hstep
  · next job found slot hphase =>
    rw [hphase] at hsound
    obtain ⟨hserial, hclear, hlease, -⟩ := hsound
    obtain rfl := Option.some.inj hstep
    exact .of_owed rfl rfl rfl (fun _ _ => id) (fun q hq => drop_aside hlease hq)
      ⟨hserial, hclear⟩ (iff_of_true h trivial)
  · cases hstep

theorem effect_giveUp (hinv : s.Invariant) (h : s.Carried)
    (hstep : s.actStep p .giveUp = some s') : s.Effect s' p True := by
  have hsound := hinv.sound p
  simp only [actStep] at hstep
  split at hstep
  · next rest found hphase =>
    rw [hphase] at hsound
    obtain rfl := Option.some.inj hstep
    exact .yield h hsound.1 fun _ => trivial
  · next found hphase =>
    rw [hphase] at hsound
    obtain rfl := Option.some.inj hstep
    exact .yield h hsound.1 fun _ => trivial
  · next job found _ _ hphase =>
    rw [hphase] at hsound
    obtain rfl := Option.some.inj hstep
    exact .yield h hsound.1 fun _ => trivial
  · next held record rest hphase =>
    rw [hphase] at hsound
    obtain ⟨hserial, hlease, -⟩ := hsound
    obtain rfl := Option.some.inj hstep
    refine .of_owed rfl rfl rfl (fun q hq hother => ?_) (fun q hq => drop_aside hlease hq)
      trivial (iff_of_true h trivial)
    exact absurd (Option.some.inj (hother.symm.trans hserial)) hq
  · cases hstep

/-- A claim is written on a slot that has none, and is owed its outcome. -/
theorem effect_claim (hinv : s.Invariant) (h : s.Carried) {since : ℕ} {written : Bool}
    (hstep : s.actStep p (.claim since written) = some s') : s.Effect s' p True := by
  have hsound := hinv.sound p
  simp only [actStep] at hstep
  split at hstep
  · next held record rest hphase =>
    rw [hphase] at hsound
    obtain ⟨hserial, hlease, hunclaimed⟩ := hsound
    have hyields (q : π) (hq : q ≠ p) : s.serial ≠ some q := fun hother =>
      hq (Option.some.inj (hother.symm.trans hserial))
    split at hstep
    · split at hstep
      · cases hstep
      · next hthere =>
        obtain rfl := Option.some.inj hstep
        refine ⟨fun q hq => Function.update_of_ne hq .., fun q hq => ?_, ?_, rfl,
          fun entry hentry => ?_, iff_of_true ?_ trivial⟩
        · exact ⟨fun hother => (hyields q hq hother).elim, fun _ => id,
            fun hother => (hyields q hq hother).elim,
            fun entry hentry _ _ => List.mem_cons_of_mem _ hentry⟩
        · show World.Sound _ p (Function.update s.process p _ p)
          rw [Function.update_self]
          exact ⟨hlease, ⟨p, since⟩, rfl, rfl, List.mem_cons_self⟩
        · rcases List.mem_cons.mp hentry with rfl | hbefore
          · exact .inr rfl
          · exact .inl hbefore
        · intro entry hentry
          rcases List.mem_cons.mp hentry with rfl | hbefore
          · obtain ⟨slot, hslot⟩ := Option.ne_none_iff_exists'.mp hthere
            show claimIn (Function.update s.slots held _ held) = _
            rw [Function.update_self, hslot]
            rfl
          · show claimIn (Function.update s.slots held _ entry.1) = _
            rw [Function.update_of_ne (hunclaimed entry hbefore)]
            exact h entry hbefore
    · obtain rfl := Option.some.inj hstep
      exact .of_owed rfl rfl rfl (fun q hq hother => (hyields q hq hother).elim)
        (fun q hq => drop_aside hlease hq) trivial (iff_of_true h trivial)
  · cases hstep

/-- An outcome is written over the claim that it is owed to, and over no other. -/
theorem effect_outcome (hinv : s.Invariant) (h : s.Carried) {now : ℕ} {outcome : Outcome}
    {written : Bool} (hstep : s.actStep p (.outcome now outcome written) = some s') :
    s.Effect s' p True := by
  have hsound := hinv.sound p
  simp only [actStep] at hstep
  split at hstep
  · next held record rest hphase =>
    rw [hphase] at hsound
    obtain ⟨hlease, claim, hclaim, howner, howed⟩ := hsound
    split at hstep
    · obtain rfl := Option.some.inj hstep
      refine ⟨fun q hq => Function.update_of_ne hq .., fun q hq => ?_, ?_, rfl,
        fun entry hentry => .inl (List.mem_filter.mp hentry).1, iff_of_true ?_ trivial⟩
      · refine ⟨id, drop_aside hlease hq, fun _ => List.filter_subset_self _, ?_⟩
        intro entry hentry _ hheld
        refine List.mem_filter.mpr ⟨hentry, ?_⟩
        have hother : entry.1 ≠ held := by
          intro heq
          rw [heq] at hheld
          exact hq (Option.some.inj (hheld.symm.trans hlease))
        simp [hother]
      · show World.Sound _ p (Function.update s.process p _ p)
        rw [Function.update_self]
        trivial
      · intro entry hentry
        obtain ⟨hbefore, hkept⟩ := List.mem_filter.mp hentry
        have hother : entry.1 ≠ held := by
          intro heq
          have hsame := (h entry hbefore).symm.trans (heq ▸ h (held, claim) howed)
          simp [heq, hclaim, Option.some.inj hsame] at hkept
        show claimIn (Function.update s.slots held _ entry.1) = _
        rw [Function.update_of_ne hother]
        exact h entry hbefore
    · obtain rfl := Option.some.inj hstep
      exact .of_owed rfl rfl rfl (fun _ _ => id) (fun q hq => drop_aside hlease hq) trivial
        (iff_of_true h trivial)
  · cases hstep

/-! ## Every step, and every run -/

theorem effect_act (hinv : s.Invariant) (h : s.Carried) (hrunning : s.running p = true)
    {act : Act κ} (hstep : s.actStep p act = some s') :
    s.Effect s' p (s.spares (.act p act) = true) := by
  have htrue {ok : Prop} (hok : ok) (heffect : s.Effect s' p True) : s.Effect s' p ok :=
    { heffect with carried := heffect.carried.trans (iff_of_true trivial hok) }
  cases act with
  | begin job numbers => exact htrue rfl (effect_begin h hstep)
  | look => exact htrue rfl (effect_look hinv h hstep)
  | judge => exact htrue rfl (effect_judge hinv h hstep)
  | clear written => exact effect_clear hinv h hrunning hstep
  | done => exact htrue rfl (effect_done hinv h hstep)
  | lease number granted => exact htrue rfl (effect_lease hinv h hstep)
  | cut number => exact htrue rfl (effect_cut hinv h hstep)
  | rewrite executionCheckout created => exact effect_rewrite hinv h hrunning hstep
  | remove => exact effect_remove hinv h hrunning hstep
  | leave => exact htrue rfl (effect_leave hinv h hstep)
  | giveUp => exact htrue rfl (effect_giveUp hinv h hstep)
  | claim since written => exact htrue rfl (effect_claim hinv h hstep)
  | outcome now outcome written => exact htrue rfl (effect_outcome hinv h hstep)

theorem Effect.invariant {ok : Prop} (heffect : s.Effect s' p ok) (hinv : s.Invariant)
    (hrunning : s.running p = true) : s'.Invariant where
  sound q := by
    by_cases hq : q = p
    · subst hq
      exact heffect.own
    · rw [heffect.process q hq]
      exact (hinv.sound q).aside (heffect.aside q hq)
  live entry hentry := by
    rw [heffect.running]
    rcases heffect.owed entry hentry with hbefore | howner
    · exact hinv.live entry hbefore
    · rw [howner]
      exact hrunning

theorem invariant_die (hinv : s.Invariant) (hstep : s.step (.die p) = some s') :
    s'.Invariant := by
  obtain rfl := Option.some.inj hstep
  constructor
  · intro q
    by_cases hq : q = p
    · subst hq
      show World.Sound _ q (Function.update s.process q _ q)
      rw [Function.update_self]
      trivial
    · show World.Sound _ q (Function.update s.process p _ q)
      rw [Function.update_of_ne hq]
      refine (hinv.sound q).aside ⟨fun hserial => ?_, fun other hlease => ?_, fun _ => ?_, ?_⟩
      · exact (if_neg fun heq => hq (Option.some.inj (hserial.symm.trans heq))).trans hserial
      · exact (if_neg fun heq => hq (Option.some.inj (hlease.symm.trans heq))).trans hlease
      · exact List.filter_subset_self _
      · rintro entry hentry rfl _
        exact List.mem_filter.mpr ⟨hentry, by simpa using hq⟩
  · intro entry hentry
    obtain ⟨hbefore, howner⟩ := List.mem_filter.mp hentry
    show Function.update s.running p false entry.2.owner = true
    rw [Function.update_of_ne (by simpa using howner)]
    exact hinv.live entry hbefore

theorem carried_turn {closing clone worktree : Bool} (h : s.Carried)
    (hstep : s.step (.turn number closing clone worktree) = some s') : s'.Carried := by
  obtain rfl := Option.some.inj hstep
  intro entry hentry
  rw [← h entry hentry]
  show claimIn (Function.update s.slots number _ entry.1) = claimIn (s.slots entry.1)
  by_cases hother : entry.1 = number
  · rw [hother, Function.update_self]
    cases s.slots number with
    | none => rfl
    | some slot => rfl
  · rw [Function.update_of_ne hother]

theorem Invariant.aside (hinv : s.Invariant) (hserial : s'.serial = s.serial)
    (hlease : s'.lease = s.lease) (howed : s'.owed = s.owed) (hrunning : s'.running = s.running)
    (hprocess : s'.process = s.process) : s'.Invariant where
  sound q := by
    rw [hprocess]
    refine (hinv.sound q).aside ⟨fun h => hserial.trans h, fun _ h => ?_, fun _ => ?_, ?_⟩
    · rw [hlease]
      exact h
    · rw [howed]
      exact List.Subset.refl _
    · rw [howed]
      exact fun _ hentry _ _ => hentry
  live entry hentry := by
    rw [hrunning]
    exact hinv.live entry (howed ▸ hentry)

theorem Invariant.step (hinv : s.Invariant) (h : s.Carried) {label : Label τ κ π}
    (hstep : s.step label = some s') : s'.Invariant := by
  cases label with
  | act p act =>
    simp only [World.step] at hstep
    split at hstep
    · next hrunning => exact (effect_act hinv h hrunning hstep).invariant hinv hrunning
    · cases hstep
  | die p => exact invariant_die hinv hstep
  | sessions opened =>
    obtain rfl := Option.some.inj hstep
    exact hinv.aside rfl rfl rfl rfl rfl
  | turn number closing clone worktree =>
    obtain rfl := Option.some.inj hstep
    exact hinv.aside rfl rfl rfl rfl rfl

theorem carried_iff_spares (hinv : s.Invariant) (h : s.Carried) {label : Label τ κ π}
    (hstep : s.step label = some s') : s'.Carried ↔ s.spares label = true := by
  cases label with
  | act p act =>
    simp only [World.step] at hstep
    split at hstep
    · next hrunning => exact (effect_act hinv h hrunning hstep).carried
    · cases hstep
  | die p =>
    obtain rfl := Option.some.inj hstep
    exact iff_of_true (h.of_slots (List.filter_subset_self _) fun _ _ => rfl) rfl
  | sessions opened =>
    obtain rfl := Option.some.inj hstep
    exact iff_of_true h rfl
  | turn number closing clone worktree => exact iff_of_true (carried_turn h hstep) rfl

theorem spares_of_disabled {label : Label τ κ π} (hstep : s.step label = none) :
    s.spares label = true := by
  cases label with
  | act p act =>
    have hact : s.running p = true → s.actStep p act = none := fun hrunning => by
      simpa only [World.step, hrunning, if_true] using hstep
    cases act with
    | clear written =>
      simp only [spares]
      split
      · next hphase =>
        cases hrunning : s.running p with
        | false => rfl
        | true =>
          have hnone := hact hrunning
          cases written with
          | false => rfl
          | true => simp [actStep, hphase] at hnone
      · rfl
    | rewrite executionCheckout created =>
      simp only [spares]
      split
      · next found slot hphase =>
        cases hrunning : s.running p with
        | false => rfl
        | true =>
          have hnone := hact hrunning
          by_cases hbroken : slot.state = .broken
          · simp [actStep, hphase, hbroken] at hnone
          · simp [hbroken]
      · rfl
    | remove =>
      simp only [spares]
      split
      · next hphase =>
        cases hrunning : s.running p with
        | false => rfl
        | true =>
          have hnone := hact hrunning
          simp [actStep, hphase] at hnone
      · rfl
    | _ => rfl
  | _ => rfl

theorem Initial.invariant (h : s.Initial) : s.Invariant where
  sound p := by
    rw [h.process p]
    trivial
  live entry hentry := by
    rw [h.owed] at hentry
    cases hentry

theorem Initial.carried (h : s.Initial) : s.Carried := by
  intro entry hentry
  rw [h.owed] at hentry
  cases hentry

end World

/-- Every claim a live process has written is on its slot's record in every later state, until
its outcome is written or the process dies, exactly where no report clears it and no broken
slot that has it is recreated or removed. -/
theorem claims_kept_iff {s : World τ κ π} (h : (pool τ κ π).Initial s)
    (labels : List (Label τ κ π)) :
    (pool τ κ π).Throughout World.Carried s labels ↔
      (pool τ κ π).RunMeets (fun s label => s.spares label = true) s labels := by
  refine System.throughout_iff_runMeets_of_invariant (fun s label s' hinv hbefore _ hstep => ?_)
    (fun s label s' hinv hbefore hstep => ?_) (fun s label _ _ hstep => ?_)
    (World.Initial.invariant h) (World.Initial.carried h) labels
  · exact hinv.step hbefore hstep
  · exact World.carried_iff_spares hinv hbefore hstep
  · exact World.spares_of_disabled hstep

end Kept

/-! ## A claim that a dead process left -/

/-- A pool of one slot, whose maintenance run died. -/
def leftClaimed : World ℕ ℕ ℕ where
  slots number :=
    if number = 1 then some ⟨some ⟨0, 0, some ⟨9, 0⟩, none, none⟩, false, true, true⟩ else none
  opened := []
  serial := none
  lease _ := none
  running p := p != 9
  process _ := .idle
  owed := []

theorem leftClaimed_initial : (pool ℕ ℕ ℕ).Initial leftClaimed :=
  ⟨rfl, fun _ => rfl, fun _ => rfl, rfl⟩

/-- A report reads the claim, and finds it void. -/
def report : List (Label ℕ ℕ ℕ) :=
  [.act 1 (.begin .report [1]), .act 1 .look, .act 1 .judge]

/-- A maintenance run looks at the slot. -/
def pass : List (Label ℕ ℕ ℕ) := [.act 2 (.begin .maintain [1]), .act 2 .look, .act 2 .judge]

def claiming : List (Label ℕ ℕ ℕ) :=
  [.act 2 .done, .act 2 .giveUp, .act 2 (.begin (.claim []) []), .act 2 .look, .act 2 .judge,
    .act 2 .done, .act 2 (.lease 1 true), .act 2 (.claim 5 true)]

/-- The report clears the claim that it read before the run takes the slot. -/
def clearedInTime : List (Label ℕ ℕ ℕ) :=
  report ++ [.act 1 (.clear true), .act 1 .done] ++ pass ++ claiming ++ report ++
    [.act 2 (.outcome 6 .succeeded true)]

/-- The run's claim is there to its outcome. -/
theorem claims_kept_iff_report :
    ((pool ℕ ℕ ℕ).run leftClaimed clearedInTime).isSome ∧
      (pool ℕ ℕ ℕ).Throughout World.Carried leftClaimed clearedInTime :=
  ⟨by decide, (claims_kept_iff leftClaimed_initial _).mpr (by decide)⟩

/-- The run clears the claim and takes the slot, and then the report clears what it read. -/
def clearedLate : List (Label ℕ ℕ ℕ) :=
  report ++ pass ++ [.act 2 (.clear true)] ++ claiming ++ [.act 1 (.clear true)]

theorem claimed_runs : ((pool ℕ ℕ ℕ).run leftClaimed clearedLate).isSome := by decide

def claimed : World ℕ ℕ ℕ := ((pool ℕ ℕ ℕ).run leftClaimed clearedLate).get claimed_runs

/-- The claim of a run that is going on is gone from the record. -/
theorem claimed_cleared :
    (pool ℕ ℕ ℕ).Reachable claimed ∧ claimed.running 2 = true ∧ (1, ⟨2, 5⟩) ∈ claimed.owed ∧
      claimed.claimOf 1 = none :=
  ⟨System.reachable_of_run leftClaimed_initial (Option.some_get claimed_runs).symm, by decide,
    by decide, by decide⟩

end Onevcs.Pool.Maintenance
