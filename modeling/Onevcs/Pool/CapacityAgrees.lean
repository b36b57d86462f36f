import Onevcs.Pool.Capacity

/-!
# Where the capacity agrees with placement

With the locks free, a placement succeeds exactly where a slot left by the shed fits, or
there is room for a new one, or the overflow admits one more. The report asks the same of
the same slots, but counts the room for a new one differently: by how many slots the shed
removes, where the shed drops every slot that has the number of one it removed.
-/

namespace Onevcs.Pool.Capacity

section

variable {τ κ δ : Type} {host : Host τ κ δ} {attempts : Attempts τ κ δ}
  {ask : Ask κ} {slot : Surveyed τ κ δ}

theorem shedFrom_sublist (host : Host τ κ δ) (judge : κ) (slots : List (Surveyed τ κ δ)) (surplus : ℕ) :
    (shedFrom host judge slots surplus).Sublist slots := by
  induction slots generalizing surplus with
  | nil => exact .slnil
  | cons slot rest ih =>
    cases surplus with
    | zero => exact List.nil_sublist _
    | succ surplus =>
      unfold shedFrom
      split
      · exact (ih (surplus + 1)).cons slot
      · exact (ih surplus).cons_cons slot

theorem shed_of_free (hfree : attempts.Free) (survey : Survey τ κ δ) :
    shed host attempts survey.slots ask.filePool ask.execution =
      survey.slots.filter fun slot => slot.number ∉ shedNumbers host ask survey := by
  have hall : (sheddable host survey.slots ask.filePool ask.execution).filter attempts.removes =
      sheddable host survey.slots ask.filePool ask.execution :=
    List.filter_eq_self.mpr fun slot _ => hfree.removes slot
  unfold shed
  rw [hall]
  rfl

theorem length_shed_le (host : Host τ κ δ) (ask : Ask κ) (survey : Survey τ κ δ) :
    (survey.slots.filter fun slot => slot.number ∉ shedNumbers host ask survey).length +
      (shedNumbers host ask survey).length ≤ survey.slots.length := by
  have hsublist : (sheddable host survey.slots ask.filePool ask.execution).Sublist
      (survey.slots.reverse.filter fun slot => slot.number ∈ shedNumbers host ask survey) := by
    have hshed := (shedFrom_sublist host ask.execution survey.slots.reverse
      (survey.slots.length - ask.filePool)).filter
        fun slot => slot.number ∈ shedNumbers host ask survey
    rwa [List.filter_eq_self.mpr] at hshed
    intro slot hslot
    exact decide_eq_true (List.mem_map_of_mem hslot)
  have hlength := hsublist.length_le
  rw [List.filter_reverse, List.length_reverse] at hlength
  have hsplit := List.length_eq_length_filter_add
    (l := survey.slots) fun slot => decide (slot.number ∈ shedNumbers host ask survey)
  have hcount : (shedNumbers host ask survey).length =
      (sheddable host survey.slots ask.filePool ask.execution).length := List.length_map ..
  simp only [decide_not] at hsplit ⊢
  omega

variable [DecidableEq κ]

/-- An idle slot of the lender that nobody is in. -/
def Ready (host : Host τ κ δ) (ask : Ask κ) (slot : Surveyed τ κ δ) : Prop :=
  slot.isIdle = true ∧ slot.lender = some ask.execution ∧ host.occupants slot = []

/-- A broken slot that is not another lender's. -/
def Mendable (host : Host τ κ δ) (ask : Ask κ) (slot : Surveyed τ κ δ) : Prop :=
  slot.isBroken = true ∧ ∀ lender ∈ boundLender host slot, lender = ask.execution

theorem fits_iff : fits host ask slot = true ↔ Ready host ask slot ∨ Mendable host ask slot := by
  unfold fits fit Ready Mendable Surveyed.isIdle Surveyed.isBroken
  cases hstate : slot.state with
  | inUse session => simp
  | maintaining pid since => simp
  | idle =>
    obtain ⟨lender, hlender⟩ := Option.isSome_iff_exists.mp (slot.recorded hstate)
    by_cases hown : lender = ask.execution
    · cases hpids : host.occupants slot <;>
        simp [hlender, hown, Option.filter_some, Fit.taken]
    · simp [hlender, hown, Option.filter_some, Fit.taken]
  | broken reason =>
    cases hbound : boundLender host slot with
    | none => simp [Fit.taken]
    | some lender =>
      by_cases hown : lender = ask.execution <;> simp [hown, Fit.taken]

omit [DecidableEq κ] in
theorem takeFirst_of_free (host : Host τ κ δ) (hfree : attempts.Free) (slots : List (Surveyed τ κ δ)) :
    ∃ found, takeFirst host attempts slots = .ok found ∧
      (found.isSome = true ↔ ∃ slot ∈ slots, host.occupants slot = []) := by
  induction slots with
  | nil => exact ⟨none, rfl, by simp⟩
  | cons slot rest ih =>
    unfold takeFirst
    rw [hfree.takes]
    by_cases hnobody : host.occupants slot = []
    · exact ⟨_, by simp [hnobody]; rfl, by simp [hnobody]⟩
    · obtain ⟨found, hrest, hiff⟩ := ih
      exact ⟨found, by simp [hnobody, hrest], by simp [hnobody, hiff]⟩

theorem takeIdle_of_free (host : Host τ κ δ) (ask : Ask κ) (hfree : attempts.Free)
    (slots : List (Surveyed τ κ δ)) :
    ∃ found, takeIdle host attempts ask slots = .ok found ∧
      (found.isSome = true ↔ ∃ slot ∈ slots, Ready host ask slot) := by
  obtain ⟨preferred, hpreferred⟩ := hfree.lastSlot
  obtain ⟨found, htaken, hiff⟩ := takeFirst_of_free host hfree (candidates ask slots preferred)
  refine ⟨found, by rw [takeIdle, hpreferred]; exact htaken, hiff.trans ?_⟩
  have hmem : ∀ slot, slot ∈ candidates ask slots preferred ↔
      slot ∈ slots ∧ slot.isIdle = true ∧ slot.lender = some ask.execution := by
    intro slot
    by_cases hnumber : some slot.number = preferred <;> simp [candidates, hnumber]
  simp only [hmem, Ready, and_assoc]

/-- With the locks free, a broken slot is recreated where one can be. -/
theorem recreateBroken_of_free (host : Host τ κ δ) (ask : Ask κ) (hfree : attempts.Free)
    (slots : List (Surveyed τ κ δ)) :
    ∃ found, recreateBroken host attempts ask slots = .ok found ∧
      (found.isSome = true ↔ ∃ slot ∈ slots, Mendable host ask slot) := by
  induction slots with
  | nil => exact ⟨none, rfl, by simp⟩
  | cons slot rest ih =>
    obtain ⟨found, hrest, hiff⟩ := ih
    unfold recreateBroken
    rw [hfree.probes, hfree.takes, hfree.rebuilds]
    have hbound : (boundLender host slot).any (fun lender => lender ≠ ask.execution) = true ↔
        ¬∀ lender ∈ boundLender host slot, lender = ask.execution := by
      cases boundLender host slot <;> simp
    by_cases hbroken : slot.isBroken = true
    · simp only [hbroken, Bool.not_true, Bool.false_eq_true, if_false]
      by_cases hother : (boundLender host slot).any (fun lender => lender ≠ ask.execution) = true
      · have hnot : ¬Mendable host ask slot := fun h => hbound.mp hother h.2
        rw [if_pos hother]
        exact ⟨found, hrest, by simp [hnot, hiff]⟩
      · have hmendable : Mendable host ask slot :=
          ⟨hbroken, not_not.mp fun h => hother (hbound.mpr h)⟩
        rw [if_neg hother]
        exact ⟨_, rfl, by simp [hmendable]⟩
    · have hnot : ¬Mendable host ask slot := fun h => hbroken h.1
      simp only [hbroken, Bool.not_false, if_true]
      exact ⟨found, hrest, by simp [hnot, hiff]⟩

/-- With the locks free, a session is placed where a slot the shed leaves fits, where there is
room for a new one, or where the overflow admits one. -/
theorem place_isOk_iff (hfree : attempts.Free) (survey : Survey τ κ δ) (there : List ℕ) :
    (∃ placement, place host attempts ask survey there = .ok placement) ↔
      (0 < ask.pool ∧
        ((∃ slot ∈ survey.slots,
            slot.number ∉ shedNumbers host ask survey ∧ fits host ask slot = true) ∨
          (survey.slots.filter fun slot => slot.number ∉ shedNumbers host ask survey).length <
            ask.pool)) ∨
        ask.overflow.admits survey.overflow.length = true := by
  have hover : ∀ slots, (∃ placement, placeOver ask survey slots = .ok placement) ↔
      ask.overflow.admits survey.overflow.length = true := by
    intro slots
    unfold placeOver
    split <;> simp [*]
  unfold place
  rw [shed_of_free hfree]
  generalize hslots : (survey.slots.filter fun slot =>
    slot.number ∉ shedNumbers host ask survey) = slots
  have hfits : (∃ slot ∈ survey.slots,
      slot.number ∉ shedNumbers host ask survey ∧ fits host ask slot = true) ↔
        (∃ slot ∈ slots, Ready host ask slot) ∨ ∃ slot ∈ slots, Mendable host ask slot := by
    rw [← exists_or, ← hslots]
    apply exists_congr
    intro slot
    rw [fits_iff, List.mem_filter, decide_eq_true_eq]
    tauto
  rw [hfits]
  by_cases hpool : 0 < ask.pool
  · obtain ⟨taken, htaken, htakenIff⟩ := takeIdle_of_free host ask hfree slots
    obtain ⟨mended, hmended, hmendedIff⟩ := recreateBroken_of_free host ask hfree slots
    rw [← htakenIff, ← hmendedIff]
    simp only [hpool, if_true, htaken, hmended, true_and]
    cases taken with
    | some placement => simp
    | none =>
      cases mended with
      | some placement => simp
      | none =>
        by_cases hroom : slots.length < ask.pool
        · simp [hroom, cutNew, hfree.makes, Except.map, Except.mapError]
        · simp [hroom, hover]
  · simp [hpool, hover]

/-- Every slot is idle, in use, claimed for maintenance, or named with why it is not counted. -/
theorem slots_eq (host : Host τ κ δ) (ask : Ask κ) (survey : Survey τ κ δ) (resumes : Bool) :
    (capacityOf host ask survey resumes).slots =
      (capacityOf host ask survey resumes).idle + (capacityOf host ask survey resumes).inUse +
        (capacityOf host ask survey resumes).maintaining +
          (capacityOf host ask survey resumes).ineligible.length := by
  unfold capacityOf
  simp only
  induction survey.slots with
  | nil => rfl
  | cons slot rest ih =>
    rw [List.length_cons, ih, List.countP_cons, List.countP_cons, List.countP_cons,
      List.filterMap_cons]
    cases hstate : slot.state with
    | inUse session =>
      simp [fit, Surveyed.isInUse, Surveyed.isMaintaining, hstate]
      omega
    | maintaining pid since =>
      simp [fit, Surveyed.isInUse, Surveyed.isMaintaining, hstate]
      omega
    | idle =>
      have hfit : fit host ask slot = some .idle ∨
          ∃ reason, fit host ask slot = some (.refused reason) := by
        unfold fit
        rw [hstate]
        cases slot.lender.filter (· ≠ ask.execution) with
        | some lender => exact .inr ⟨_, rfl⟩
        | none =>
          cases host.occupants slot with
          | nil => exact .inl rfl
          | cons pid pids => exact .inr ⟨_, rfl⟩
      rcases hfit with hfit | ⟨reason, hfit⟩
      · simp [hfit, Surveyed.isInUse, Surveyed.isMaintaining, hstate, Fit.reason]
        omega
      · simp [hfit, Surveyed.isInUse, Surveyed.isMaintaining, hstate, Fit.reason]
        omega
    | broken why =>
      have hfit : ∃ found reason, fit host ask slot = some found ∧ found ≠ .idle ∧
          found.reason = some reason := by
        unfold fit
        rw [hstate]
        cases boundLender host slot with
        | none => exact ⟨_, _, rfl, by rintro ⟨⟩, rfl⟩
        | some lender =>
          by_cases hown : lender ≠ ask.execution
          · exact ⟨_, _, if_pos hown, by rintro ⟨⟩, rfl⟩
          · exact ⟨_, _, if_neg hown, by rintro ⟨⟩, rfl⟩
      obtain ⟨found, reason, hfit, hne, hreason⟩ := hfit
      simp [hfit, Surveyed.isInUse, Surveyed.isMaintaining, hstate, hne, hreason]
      omega

/-- The report admits a request that resumes nothing where a slot fits, where there is room
left by as many slots as the shed removes, or where the overflow admits one. -/
theorem admitted_iff (host : Host τ κ δ) (ask : Ask κ) (survey : Survey τ κ δ) :
    (capacityOf host ask survey false).admitted = true ↔
      (0 < ask.pool ∧
        ((∃ slot ∈ survey.slots,
            slot.number ∉ shedNumbers host ask survey ∧ fits host ask slot = true) ∨
          survey.slots.length - (shedNumbers host ask survey).length < ask.pool)) ∨
        ask.overflow.admits survey.overflow.length = true := by
  have htakeable : 0 < takeableAfter host ask survey ↔ ∃ slot ∈ survey.slots,
      slot.number ∉ shedNumbers host ask survey ∧ fits host ask slot = true := by
    unfold takeableAfter
    rw [List.countP_pos_iff]
    simp [and_comm]
  have hcreate : 0 < canCreate host ask survey ↔
      survey.slots.length - (shedNumbers host ask survey).length < ask.pool := by
    unfold canCreate
    omega
  rw [← htakeable, ← hcreate]
  simp [capacityOf]

/-- No slot but those of a number that is shed fits, there is room for a new one among the
slots of other numbers, but none among as many slots as are not shed, and the overflow
admits none. -/
def Miscounts (host : Host τ κ δ) (ask : Ask κ) (survey : Survey τ κ δ) : Prop :=
  (∀ slot ∈ survey.slots, slot.number ∉ shedNumbers host ask survey →
    fits host ask slot = false) ∧
  (survey.slots.filter fun slot => slot.number ∉ shedNumbers host ask survey).length < ask.pool ∧
  ask.pool ≤ survey.slots.length - (shedNumbers host ask survey).length ∧
  ask.overflow.admits survey.overflow.length = false

/-- The slots add up; and with the locks free and nothing resumed, the report admits the
request exactly where it is placed, but where it miscounts. -/
theorem capacity_agrees_iff (hfree : attempts.Free) (survey : Survey τ κ δ) (there : List ℕ) :
    (((capacityOf host ask survey false).admitted = true ↔
          ∃ placement, place host attempts ask survey there = .ok placement) ∧
        (capacityOf host ask survey false).slots =
          (capacityOf host ask survey false).idle + (capacityOf host ask survey false).inUse +
            (capacityOf host ask survey false).maintaining +
              (capacityOf host ask survey false).ineligible.length) ↔
      ¬Miscounts host ask survey := by
  have hlength := length_shed_le host ask survey
  rw [admitted_iff, place_isOk_iff hfree, and_iff_left (slots_eq host ask survey false)]
  unfold Miscounts
  generalize (survey.slots.filter fun slot => slot.number ∉ shedNumbers host ask survey).length =
    left at hlength ⊢
  generalize (shedNumbers host ask survey).length = removed at hlength ⊢
  by_cases hover : ask.overflow.admits survey.overflow.length = true
  · simp [hover]
  · by_cases hfits : ∃ slot ∈ survey.slots,
        slot.number ∉ shedNumbers host ask survey ∧ fits host ask slot = true
    · -- a slot that fits is counted, and taken
      have hnot : ¬∀ slot ∈ survey.slots, slot.number ∉ shedNumbers host ask survey →
          fits host ask slot = false := by
        obtain ⟨slot, hmem, hkept, hfit⟩ := hfits
        intro hnone
        rw [hnone slot hmem hkept] at hfit
        cases hfit
      simp [hfits, hnot]
    · have hnone : ∀ slot ∈ survey.slots, slot.number ∉ shedNumbers host ask survey →
          fits host ask slot = false := by
        intro slot hmem hkept
        rw [← Bool.not_eq_true]
        exact fun hfit => hfits ⟨slot, hmem, hkept, hfit⟩
      simp only [hfits, false_or, hover, or_false, Bool.false_eq_true]
      constructor
      · rintro hiff ⟨-, hroom, hcount, -⟩
        have hadmitted := hiff.mpr ⟨by omega, hroom⟩
        omega
      · intro hcounted
        constructor
        · rintro ⟨hpool, hroom⟩
          exact ⟨hpool, by omega⟩
        · rintro ⟨hpool, hroom⟩
          refine ⟨hpool, ?_⟩
          by_contra hcount
          exact hcounted ⟨hnone, hroom, by omega, trivial⟩

end

/-- The directories `1` and `01` both hold slot 1, and both are idle. -/
def twofold : Survey ℕ ℕ String where
  slots := [⟨1, "01", some 0, .idle, fun _ => rfl⟩, ⟨1, "1", some 0, .idle, fun _ => rfl⟩]
  opened := []

/-- One slot wanted, in the file and for this request, and no overflow. -/
def single : Ask ℕ := ⟨0, 1, 1, .bounded 0⟩

/-- Nothing is retained and nobody is inside. -/
def quiet : Host ℕ ℕ String where
  retains _ _ := false
  occupants _ := []
  alternate _ := none
  clone _ := .repository
  worktree _ := .repository

def unlocked : Attempts ℕ ℕ String where
  removes _ := true
  probes _ := .ok true
  takes _ := .ok true
  rebuilds _ := .ok ()
  lastSlot := .ok none
  makes _ := .ok ()

theorem unlocked_free : unlocked.Free :=
  ⟨fun _ => rfl, fun _ => rfl, fun _ => rfl, fun _ => rfl, ⟨none, rfl⟩, fun _ => rfl⟩

/-- The shed removes one of them and drops both, so a new slot is cut that the report had no
room for. -/
theorem counted_twice :
    unlocked.Free ∧
      place quiet unlocked single twofold [] = .ok (.slot 1 .fresh) ∧
      (capacityOf quiet single twofold false).admitted = false :=
  ⟨unlocked_free, rfl, rfl⟩

/-- One slot, which the request takes. -/
def alone : Survey ℕ ℕ String where
  slots := [⟨1, "1", some 0, .idle, fun _ => rfl⟩]
  opened := []

theorem capacity_agrees_iff_alone :
    (capacityOf quiet single alone false).admitted = true ↔
      ∃ placement, place quiet unlocked single alone [] = .ok placement :=
  ((capacity_agrees_iff unlocked_free alone []).mpr
    (by rintro ⟨-, hroom, -⟩; revert hroom; decide)).1

end Onevcs.Pool.Capacity
