import Onevcs.Pool.Ownership

/-!
# Runs that outrun no adoption

The steps of a run that meets no damaged slot of an open session, and in which no session
has opened on a slot behind the survey or the adoption that acts on it, keep what every
process knows. A run that meets one gives a slot to two sessions.
-/

set_option linter.unusedSectionVars false

namespace Onevcs.Pool

open Foundations (Flock Mode System)

variable {τ κ β π : Type} [DecidableEq τ] [DecidableEq κ] [DecidableEq β] [DecidableEq π]

namespace World

variable {s s' : World τ κ β π} {p : π} {token : τ} {number : ℕ}

/-- The session is open on the slot. -/
def opensOn (s : World τ κ β π) (token : τ) (number : ℕ) : Bool :=
  (s.records token).any fun record => record.state = .opened ∧ record.slot = number

theorem opensOn_iff : s.opensOn token number = true ↔ s.Opens token number := by
  simp [opensOn, Opens, Option.any_eq_true]

/-- None of the sessions that opened since the survey is open on the slot it would take. -/
def uptodate (s : World τ κ β π) (survey : Survey τ κ) (number : ℕ) : Bool :=
  decide ((s.leases number).Grants .exclusive) →
    ∀ held ∈ survey.stale, held.2 = number → s.opensOn held.1 number = false

/-- The step looks at no damaged slot of an open session, takes no slot a session has
opened on since the survey, and opens no session on a slot that another has opened on since
the adoption asked. -/
def unraced (s : World τ κ β π) : Label τ κ β π → Bool
  | .act p act =>
    match s.process p, act with
    | .looking _ (number :: _) opened, .look closing _ =>
      match s.slots number with
      | some contents =>
        decide ((∃ held ∈ opened, held.2 = number) → contents.damaged closing = false)
      | none => true
    | .removing survey (slot :: _), .lock _ | .choosing survey (slot :: _), .lock _
    | .mending survey (slot :: _), .lock _ => s.uptodate survey slot.number
    | .cutting survey number, .lock _ => s.uptodate survey number
    | .reattached adoption, .reopen =>
      decide (∀ other ∈ adoption.raced, s.opensOn other adoption.record.slot = false)
    | _, _ => true
  | _ => true

theorem free_of_uptodate {survey : Survey τ κ}
    (hspares : ∀ token, s.Opens token number → (token, number) ∈ survey.stale)
    (hgrants : (s.leases number).Grants .exclusive) (hok : s.uptodate survey number = true) :
    s.Free number := by
  intro token hopen
  simp only [uptodate, decide_eq_true_eq] at hok
  have hclosed := hok hgrants (token, number) (hspares token hopen) rfl
  rw [opensOn_iff.mpr hopen] at hclosed
  cases hclosed

theorem Invariant.adoptionStep (h : s.Invariant) {act : Act τ κ}
    (hok : s.unraced (.act p act) = true) (hs : s.adoptionStep p act = some s') :
    s'.Invariant := by
  have hsound := h.sound p
  unfold World.adoptionStep at hs
  split at hs <;> rename_i hp <;> try rw [hp] at hsound
  · -- ask
    split_ifs at hs with hstate hlists
    · obtain rfl := Option.some.inj hs
      exact h.goto (.checked _) ⟨hsound.1, hsound.2 hstate⟩
    · obtain rfl := Option.some.inj hs
      refine h.goto (.asking _ _ _) ⟨hsound.1, fun _ other _ hopen => Or.inl ?_⟩
      obtain ⟨record, hrecord, -, -⟩ := hopen
      exact hlists other (h.listed other record hrecord)
  · -- read
    obtain rfl := Option.some.inj hs
    refine h.goto (.asking _ _ _) ⟨hsound.1, fun hnone other hother hopen => ?_⟩
    rw [Bool.or_eq_false_iff] at hnone
    rcases hsound.2 hnone.1 other hother hopen with hunread | hraced
    · rcases List.mem_cons.mp hunread with rfl | hrest
      · -- the record just read would have said so
        obtain ⟨record, hrecord, hstate, hslot⟩ := hopen
        simp [opensElsewhere, hrecord, hstate, hslot, hother] at hnone
      · exact Or.inl hrest
    · exact Or.inr hraced
  · -- judge
    split at hs
    · split_ifs at hs with htree <;> obtain rfl := Option.some.inj hs
      · refine h.goto (.checked _) ⟨hsound.1, fun other hother hopen => ?_⟩
        exact (hsound.2 htree.1 other hother hopen).resolve_left List.not_mem_nil
      · exact h.goto .idle trivial
    · obtain rfl := Option.some.inj hs
      exact h.goto .idle trivial
  · -- attach
    obtain rfl := Option.some.inj hs
    refine h.tryLease (fun lease htake => ⟨hsound, ?_⟩) trivial
    simpa using Flock.take_holds htake
  · -- reattach
    split at hs
    · rename_i contents hcontents
      split_ifs at hs <;> obtain rfl := Option.some.inj hs
      · exact h.drop .idle trivial
      · exact h.put (.reattached _) ⟨hsound.1, hsound.2, by simp [hcontents]⟩
      · exact h.goto (.reattached _) ⟨hsound.1, hsound.2, by simp [hcontents]⟩
    · obtain rfl := Option.some.inj hs
      exact h.drop .idle trivial
  · -- reopen
    split at hs <;> obtain rfl := Option.some.inj hs
    · rename_i adoption _ stored hstored
      obtain ⟨⟨⟨stored', hstored', hslot⟩, hclear⟩, hheld, hthere⟩ := hsound
      obtain rfl : stored = stored' := Option.some.inj (hstored.symm.trans hstored')
      rw [← hslot] at hheld hthere
      refine h.openOn (.reopened adoption) trivial (by simp [hstored]) hthere ?_ ?_
      · intro other hother hopen
        rw [hslot] at hopen
        simp only [unraced, hp, decide_eq_true_eq] at hok
        have hclosed := hok other (hclear other hother hopen)
        rw [opensOn_iff.mpr hopen] at hclosed
        cases hclosed
      · exact fun q _ hexclusive => Mode.noConfusion (Flock.exclusive_alone hexclusive hheld).2
    · exact h.drop .idle trivial
  · -- detach, attached
    obtain rfl := Option.some.inj hs
    exact h.drop .idle trivial
  · -- detach, the tree there
    obtain rfl := Option.some.inj hs
    exact h.drop .idle trivial
  · -- detach, open
    obtain rfl := Option.some.inj hs
    exact h.drop .idle trivial
  · cases hs

theorem Spares.subset {survey : Survey τ κ} {slots slots' : List (Surveyed τ κ)}
    (h : s.Spares survey slots) (hsub : slots' ⊆ slots) : s.Spares survey slots' :=
  fun slot hslot => h slot (hsub hslot)

theorem Spares.tail {survey : Survey τ κ} {slot : Surveyed τ κ} {slots : List (Surveyed τ κ)}
    (h : s.Spares survey (slot :: slots)) : s.Spares survey slots :=
  h.subset (List.subset_cons_self slot slots)

theorem Invariant.takeSlot (h : s.Invariant) {survey : Survey τ κ} {slot : Surveyed τ κ}
    {rest : List (Surveyed τ κ)} {granted refused : Phase τ κ β}
    (hknown : s.Surveys p survey ∧ s.Spares survey (slot :: rest))
    (hok : s.uptodate survey slot.number = true)
    (hgranted : ∀ s' : World τ κ β π, (s'.Surveys p survey ∧ s'.Spares survey rest) →
      s'.Holds p slot.number → s'.Free slot.number → s'.Sound p granted)
    (hrefused : (s.Surveys p survey ∧ s.Spares survey rest) → s.Sound p refused) :
    (s.tryLease p slot.number .placing .exclusive granted refused).Invariant := by
  refine h.tryLease (fun lease htake => ?_) (hrefused ⟨hknown.1, hknown.2.tail⟩)
  have hgrants := (Flock.take_eq_some htake).2.1
  have hspares := hknown.2 slot List.mem_cons_self
  have hfree := free_of_uptodate hspares hgrants hok
  refine hgranted _ ⟨hknown.1, hknown.2.tail⟩ ?_ hfree
  simpa [Holds] using Flock.take_holds htake

theorem surveying_read {survey : Survey τ κ} {numbers : List ℕ} {unread : List τ}
    {opened : List (τ × ℕ)} (h : s.Sound p (.surveying survey numbers (token :: unread) opened)) :
    s.Sound p (.surveying survey numbers unread
      (match s.records token with
        | some ⟨slot, _, .opened⟩ => (token, slot) :: opened
        | _ => opened)) := by
  refine ⟨h.1, fun other number hopen => ?_⟩
  rcases h.2 other number hopen with hunread | hopened | hstale
  · rcases List.mem_cons.mp hunread with rfl | hrest
    · obtain ⟨⟨slot, branch, state⟩, hrecord, hstate, hslot⟩ := hopen
      dsimp only at hstate hslot
      subst hstate hslot
      rw [hrecord]
      exact Or.inr (Or.inl List.mem_cons_self)
    · exact Or.inl hrest
  · refine Or.inr (Or.inl ?_)
    split
    · exact List.mem_cons_of_mem _ hopened
    · exact hopened
  · exact Or.inr (Or.inr hstale)

/-- A slot the survey finds takeable is not one of those it read an open session of, where
it is not damaged under one. -/
theorem looking_look {survey : Survey τ κ} {numbers : List ℕ} {opened : List (τ × ℕ)}
    {contents : Contents κ β} {closing live : Bool}
    (h : s.Sound p (.looking survey (number :: numbers) opened))
    (hok : (∃ held ∈ opened, held.2 = number) → contents.damaged closing = false) :
    s.Sound p (.looking
      { survey with slots := survey.slots ++ [⟨number, contents.record.map SlotRecord.lender,
        stateOf contents ((opened.find? fun held => decide (held.2 = number)).map Prod.fst)
          closing live⟩] } numbers opened) := by
  obtain ⟨hserial, hknown, hslots⟩ := h
  refine ⟨hserial, hknown, fun slot hslot htakeable token hopened => ?_⟩
  rcases List.mem_append.mp hslot with hbefore | hlast
  · exact hslots slot hbefore htakeable token hopened
  · obtain rfl := List.mem_singleton.mp hlast
    dsimp only at hopened
    cases hfind : opened.find? fun held => decide (held.2 = number) with
    | none => simpa using List.find?_eq_none.mp hfind _ hopened
    | some held =>
      have hnumber : held.2 = number := by simpa using List.find?_some hfind
      have hintact := hok ⟨held, List.mem_of_find?_eq_some hfind, hnumber⟩
      rw [hfind, Option.map_some] at htakeable
      simp [Surveyed.takeable, stateOf_of_holder hintact] at htakeable

theorem Invariant.poolStep (h : s.Invariant) {act : Act τ κ}
    (hok : s.unraced (.act p act) = true) (hs : s.poolStep p act = some s') :
    s'.Invariant := by
  have hsound := h.sound p
  unfold World.poolStep at hs
  split at hs <;> rename_i hp <;> try rw [hp] at hsound
  · -- read, a record
    obtain rfl := Option.some.inj hs
    exact h.goto (.surveying _ _ _ _) (surveying_read hsound)
  · -- read, the records over
    obtain rfl := Option.some.inj hs
    refine h.goto (.looking _ _ _) ⟨hsound.1.1, fun token number hopen => ?_, ?_⟩
    · exact (hsound.2 token number hopen).resolve_left List.not_mem_nil
    · rw [hsound.1.2]
      exact fun _ hslot => absurd hslot List.not_mem_nil
  · -- look
    split at hs <;> obtain rfl := Option.some.inj hs
    · rename_i contents hcontents
      simp only [unraced, hp, hcontents, decide_eq_true_eq] at hok
      exact h.goto (.looking _ _ _) (looking_look hsound hok)
    · exact h.goto (.looking _ _ _) hsound
  · -- plan
    obtain rfl := Option.some.inj hs
    rename_i survey _ retaining
    have hspares : s.Spares survey (survey.slots.filter Surveyed.takeable) := by
      intro slot hslot token hopen
      obtain ⟨hmem, htakeable⟩ := List.mem_filter.mp hslot
      exact (hsound.2.1 token slot.number hopen).resolve_left (hsound.2.2 slot hmem htakeable token)
    exact h.goto (.removing _ _)
      ⟨⟨hsound.1, hspares⟩, hspares.subset (doomed_subset survey retaining)⟩
  · -- lock, to remove
    split_ifs at hs <;> obtain rfl := Option.some.inj hs
    · simp only [unraced, hp] at hok
      exact h.takeSlot hsound hok (fun _ hknown hheld hfree => ⟨hknown, hheld, hfree⟩) id
    · exact h.goto (.removing _ _) ⟨hsound.1, hsound.2.tail⟩
  · -- unlink
    obtain rfl := Option.some.inj hs
    obtain ⟨hknown, hheld, hfree⟩ := hsound
    obtain ⟨hslots, hthere⟩ := unlink_ne_none hheld hfree
    refine h.frame (.unlinked _ _ _) ⟨⟨hknown.1.1, ?_⟩, hknown.2⟩ rfl rfl rfl
      (fun _ _ hserial => hserial) (fun _ _ _ _ _ hheld => hheld) (fun q _ => hslots q) hthere
    intro slot hslot
    obtain ⟨hmem, htakeable⟩ := List.mem_filter.mp hslot
    exact hknown.1.2 slot (List.mem_filter.mpr ⟨List.mem_of_mem_filter hmem, htakeable⟩)
  · -- unlock, kept
    obtain rfl := Option.some.inj hs
    exact h.drop (.removing _ _) hsound.1
  · -- unlock, removed
    obtain rfl := Option.some.inj hs
    exact h.drop (.removing _ _) hsound
  · -- choose
    split at hs
    · obtain rfl := Option.some.inj hs
      exact h.yieldPool hsound.1.1
    · split_ifs at hs <;> obtain rfl := Option.some.inj hs
      · exact h.goto (.choosing _ _) ⟨hsound.1, hsound.1.2.subset (candidates_subset _ _ _)⟩
      · exact h.yieldPool hsound.1.1
  · -- lock, to take
    obtain rfl := Option.some.inj hs
    simp only [unraced, hp] at hok
    exact h.takeSlot hsound hok (fun _ hknown hheld hfree => ⟨hknown, hheld, hfree⟩) id
  · -- census
    split_ifs at hs
    · obtain rfl := Option.some.inj hs
      exact h.drop (.choosing _ _) hsound.1
    · split at hs
      · obtain rfl := Option.some.inj hs
        exact h.goto (.taken _ _ _) ⟨hsound.1.1.1, hsound.2⟩
      · cases hs
  · -- mend
    obtain rfl := Option.some.inj hs
    exact h.goto (.mending _ _) ⟨hsound.1, hsound.1.2.subset (broken_subset _)⟩
  · -- lock, to rebuild
    have hskip := h.goto (.mending _ _) ⟨hsound.1, hsound.2.tail⟩
    split at hs
    · dsimp only at hs
      split_ifs at hs <;> obtain rfl := Option.some.inj hs
      · simp only [unraced, hp] at hok
        exact h.takeSlot hsound hok
          (fun _ hknown hheld hfree => ⟨hknown.1.1, hheld, hfree⟩) id
      · exact hskip
    · obtain rfl := Option.some.inj hs
      exact hskip
  · -- rebuild
    split at hs
    · obtain rfl := Option.some.inj hs
      exact h.put (.taken _ _ _) hsound
    · cases hs
  · -- cutNew
    split at hs
    · split_ifs at hs with hfree
      obtain rfl := Option.some.inj hs
      refine h.put (.cutting _ _) ⟨hsound.1.1, fun token hopen => ?_⟩
      -- an open session's slot is there
      have hthere := h.there _ _ hopen
      simp only [lowestFree, Option.isNone_iff_eq_none, decide_eq_true_eq] at hfree
      exact absurd hfree.2.2.1 hthere
    · cases hs
  · -- lock, of a new slot
    split at hs
    · split at hs <;> obtain rfl := Option.some.inj hs
      · rename_i lease htake
        simp only [unraced, hp] at hok
        have hgrants := (Flock.take_eq_some htake).2.1
        have hfree := free_of_uptodate hsound.2 hgrants hok
        refine h.frame (.taken _ _ _) ⟨hsound.1, ?_, hfree⟩ rfl rfl rfl
          (fun _ _ hserial => hserial) (fun _ _ _ _ _ hheld => Flock.holds_update_take htake hheld)
          (fun _ _ _ _ hthere => put_ne_none hthere) fun _ _ hthere => put_ne_none hthere
        simpa [Holds] using Flock.take_holds htake
      · exact h.yieldPool hsound.1
    · cases hs
  · -- giveUp
    split at hs
    · split_ifs at hs
      obtain rfl := Option.some.inj hs
      exact h.yieldPool hsound.1.1
    · cases hs
  · -- create
    split at hs
    · rename_i hnew hslot
      obtain rfl := Option.some.inj hs
      obtain ⟨hserial, hheld, hfree⟩ := hsound
      refine h.openOn (.recorded _) hserial (by simp [hnew]) (by simp [hslot]) ?_ ?_
      · exact fun other _ => hfree other
      · intro q hq hother
        exact hq (Handle.mk.inj (Flock.exclusive_alone hheld hother).1).1
    · cases hs
  · -- abort, the slot taken
    obtain ⟨hserial, hheld, hfree⟩ := hsound
    obtain ⟨hslots, hthere⟩ := unlink_ne_none hheld hfree
    split_ifs at hs <;> obtain rfl := Option.some.inj hs
    · refine h.frame .idle trivial rfl rfl rfl (fun q hq hother => ?_)
        (fun _ hq _ _ _ hheld => holds_drop_of_ne hq hheld) (fun q _ => hslots q) hthere
      exact absurd (Option.some.inj (hserial.symm.trans hother)) (Ne.symm hq)
    · exact h.finish hserial
  · -- release
    obtain rfl := Option.some.inj hs
    exact h.finish hsound
  · -- abort, rebuilding
    obtain rfl := Option.some.inj hs
    exact h.finish hsound.1
  · -- abort, counting
    obtain rfl := Option.some.inj hs
    exact h.finish hsound.1.1.1
  · -- abort, surveying
    obtain rfl := Option.some.inj hs
    exact h.yieldPool hsound.1.1
  · -- abort, looking
    obtain rfl := Option.some.inj hs
    exact h.yieldPool hsound.1
  · -- abort, removing
    obtain rfl := Option.some.inj hs
    exact h.yieldPool hsound.1.1
  · -- abort, choosing
    obtain rfl := Option.some.inj hs
    exact h.yieldPool hsound.1.1
  · -- abort, mending
    obtain rfl := Option.some.inj hs
    exact h.yieldPool hsound.1.1
  · -- abort, cutting
    obtain rfl := Option.some.inj hs
    exact h.yieldPool hsound.1
  · cases hs

theorem Invariant.act (h : s.Invariant) {act : Act τ κ} (hok : s.unraced (.act p act) = true)
    (hs : s.act p act = some s') : s'.Invariant := by
  unfold World.act at hs
  split at hs
  · -- adopt
    split at hs
    · rename_i token _ record hrecord
      obtain rfl := Option.some.inj hs
      refine h.goto (.loaded _) ⟨⟨record, hrecord, rfl⟩, fun hstate other hother hopen => ?_⟩
      exact absurd (h.apart _ _ _ hopen ⟨record, hrecord, hstate, rfl⟩) hother
    · cases hs
  · -- begin
    split_ifs at hs with hbegin
    obtain rfl := Option.some.inj hs
    refine h.frame (.surveying _ _ _ _) ⟨⟨rfl, rfl⟩, fun token number hopen => Or.inl ?_⟩ rfl rfl rfl
      (fun q _ hserial => ?_) (fun _ _ _ _ _ hheld => hheld) (fun _ _ _ _ hthere => hthere)
      fun _ _ hthere => hthere
    · obtain ⟨record, hrecord, -, -⟩ := hopen
      exact hbegin.2.1 token (h.listed token record hrecord)
    · rw [hbegin.1] at hserial
      cases hserial
  · -- visit
    obtain rfl := Option.some.inj hs
    exact h.tryLease (fun _ _ => trivial) trivial
  · -- leave
    obtain rfl := Option.some.inj hs
    exact h.drop .idle trivial
  · cases hs
  all_goals first | exact h.adoptionStep hok hs | exact h.poolStep hok hs

theorem Invariant.close (h : s.Invariant) {stored : Record β}
    (hstored : s.records token = some stored) :
    (s.write token { stored with state := .closed }).Invariant := by
  have hopens : ∀ other number, (s.write token { stored with state := .closed }).Opens other number →
      s.Opens other number := by
    rintro other number ⟨record, hrecord, hstate, hslot⟩
    by_cases hother : other = token
    · subst hother
      obtain rfl : { stored with state := .closed } = record := by
        simpa [World.write] using hrecord
      cases hstate
    · refine ⟨record, ?_, hstate, hslot⟩
      simpa [World.write, Function.update_of_ne hother] using hrecord
  refine ⟨fun other record hrecord => ?_, fun other number hopen => ?_,
    fun first second number hfirst hsecond => ?_, fun q => ?_⟩
  · by_cases hother : other = token
    · subst hother
      have hmem := h.listed other stored hstored
      simp [World.write, hmem]
    · have hbefore : s.records other = some record := by
        simpa [World.write, Function.update_of_ne hother] using hrecord
      have hmem := h.listed other record hbefore
      by_cases htoken : token ∈ s.tokens <;> simp [World.write, htoken, hmem]
  · exact h.there other number (hopens other number hopen)
  · exact h.apart first second number (hopens _ _ hfirst) (hopens _ _ hsecond)
  · refine (h.sound q).mono hopens (fun adoption hrooted => ?_) (fun hserial => hserial)
      (fun _ _ _ hheld => hheld) fun _ _ hthere => hthere
    obtain ⟨kept, hkept, hsame⟩ := hrooted
    by_cases hown : adoption.token = token
    · obtain rfl : stored = kept := by
        rw [hown, hstored] at hkept
        exact Option.some.inj hkept
      exact ⟨{ stored with state := .closed }, by simp [World.write, hown], hsame⟩
    · exact ⟨kept, by simpa [World.write, Function.update_of_ne hown] using hkept, hsame⟩

theorem Invariant.turn (h : s.Invariant) (contents : Contents κ β) :
    (s.put number (some contents)).Invariant :=
  ⟨h.listed, fun token number hopen => put_ne_none (h.there token number hopen), h.apart,
    fun q => (h.sound q).frame rfl (fun hserial => hserial) (fun _ _ _ hheld => hheld)
      fun _ _ hthere => put_ne_none hthere⟩

theorem Invariant.step (h : s.Invariant) {label : Label τ κ β π} (hok : s.unraced label = true)
    (hs : s.step label = some s') : s'.Invariant := by
  cases label with
  | act p act => exact h.act hok hs
  | close token =>
    simp only [World.step] at hs
    split at hs
    · rename_i stored hstored
      obtain rfl := Option.some.inj hs
      exact h.close hstored
    · cases hs
  | turn number contents =>
    simp only [World.step] at hs
    split_ifs at hs
    obtain rfl := Option.some.inj hs
    exact h.turn contents

theorem invariant_of_reachable
    (h : (pools τ κ β π).ReachableBy (fun s label => s.unraced label = true) s) : s.Invariant := by
  refine h.invariant ?_ fun _ _ _ hi hok hs => hi.step hok hs
  rintro s ⟨hrecords, -, -, -, -, hprocess⟩
  have hnone : ∀ token number, ¬ s.Opens token number := by
    rintro token number ⟨record, hrecord, -, -⟩
    rw [hrecords] at hrecord
    cases hrecord
  refine ⟨by simp [hrecords], fun token number hopen => absurd hopen (hnone token number),
    fun token other number hopen => absurd hopen (hnone token number), fun p => ?_⟩
  rw [hprocess]
  trivial

end World

/-- The slot a process is about to remove, rebuild or give to a session. -/
def Phase.disposes : Phase τ κ β → Option ℕ
  | .unlinking _ _ number | .counting _ _ number | .rebuilding _ number | .taken _ number _ =>
    some number
  | _ => none

/-- In every run that outruns no adoption and meets no damaged slot of an open session, no
two open sessions name one slot, an open session's slot is there, and no process is about to
remove it, rebuild it or give it to another. -/
theorem slots_owned {s : World τ κ β π}
    (h : (pools τ κ β π).ReachableBy (fun s label => s.unraced label = true) s) :
    (∀ token other record record', s.records token = some record →
        s.records other = some record' → record.state = .opened → record'.state = .opened →
        record.slot = record'.slot → token = other) ∧
      ∀ token record, s.records token = some record → record.state = .opened →
        s.slots record.slot ≠ none ∧ ∀ p, (s.process p).disposes ≠ some record.slot := by
  have hinv := World.invariant_of_reachable h
  refine ⟨fun token other record record' hrecord hrecord' hstate hstate' hslot => ?_,
    fun token record hrecord hstate => ⟨?_, fun p hdisposes => ?_⟩⟩
  · exact hinv.apart token other record.slot ⟨record, hrecord, hstate, rfl⟩
      ⟨record', hrecord', hstate', hslot.symm⟩
  · exact hinv.there token record.slot ⟨record, hrecord, hstate, rfl⟩
  · have hopen : s.Opens token record.slot := ⟨record, hrecord, hstate, rfl⟩
    have hsound := hinv.sound p
    cases hp : s.process p with
    | unlinking survey todo number =>
      rw [hp] at hsound hdisposes
      obtain rfl := Option.some.inj hdisposes
      exact hsound.2.2 token hopen
    | counting survey slots number =>
      rw [hp] at hsound hdisposes
      obtain rfl := Option.some.inj hdisposes
      exact hsound.2.2 token hopen
    | rebuilding survey number =>
      rw [hp] at hsound hdisposes
      obtain rfl := Option.some.inj hdisposes
      exact hsound.2.2 token hopen
    | taken token number cut =>
      rw [hp] at hsound hdisposes
      obtain rfl := Option.some.inj hdisposes
      exact hsound.2.2 _ hopen
    | _ =>
      rw [hp] at hdisposes
      cases hdisposes

/-! ## A damaged slot -/

/-- A host that has no pool yet. -/
def noPool : World ℕ ℕ ℕ ℕ := ⟨fun _ => none, [], fun _ => none, fun _ => .free, none, fun _ => .idle⟩

/-- The slot as a session on branch 5 has it. -/
def inUse : Contents ℕ ℕ := ⟨some ⟨0, false⟩, .repository, some 0, .repository, some 5⟩

/-- Session 1 is placed on a slot cut for it. -/
def placing : List (Label ℕ ℕ ℕ ℕ) :=
  [.act 1 (.begin (.place 1 0 1 1) [] []), .act 1 .read, .act 1 (.plan []),
    .act 1 (.choose none), .act 1 .mend, .act 1 (.cutNew 1), .act 1 (.lock true), .turn 1 inUse,
    .act 1 .create, .act 1 .release]

theorem placing_runs : ((pools ℕ ℕ ℕ ℕ).run noPool placing).isSome := by
  rfl

/-- The host with one session, on slot 1. -/
def placed : World ℕ ℕ ℕ ℕ := ((pools ℕ ℕ ℕ ℕ).run noPool placing).get placing_runs

theorem slots_owned_placed :
    (placed.records 1 = some ⟨1, 5, .opened⟩) ∧
      ∀ token record, placed.records token = some record → record.state = .opened →
        placed.slots record.slot ≠ none ∧ ∀ p, (placed.process p).disposes ≠ some record.slot := by
  have hreach : (pools ℕ ℕ ℕ ℕ).ReachableBy (fun s label => s.unraced label = true) placed :=
    System.reachableBy_of_run ⟨rfl, rfl, rfl, rfl, rfl, rfl⟩ (by decide +kernel)
      (Option.some_get placing_runs).symm
  exact ⟨by decide +kernel, (slots_owned hreach).2⟩

/-- The record of the session's slot can no longer be read, and a second session is placed. -/
def damaging : List (Label ℕ ℕ ℕ ℕ) :=
  placing ++ [.turn 1 { inUse with record := none },
    .act 2 (.begin (.place 2 0 1 1) [1] [1]), .act 2 .read, .act 2 .read, .act 2 (.look false true),
    .act 2 (.plan []), .act 2 (.choose none), .act 2 .mend, .act 2 (.lock true), .act 2 .rebuild,
    .turn 1 { inUse with head := some 6 }, .act 2 .create, .act 2 .release]

theorem damaging_runs : ((pools ℕ ℕ ℕ ℕ).run noPool damaging).isSome := by
  rfl

/-- The host once the second session is open. -/
def doubled : World ℕ ℕ ℕ ℕ := ((pools ℕ ℕ ℕ ℕ).run noPool damaging).get damaging_runs

/-- Two open sessions name one slot. -/
theorem doubled_shares : (pools ℕ ℕ ℕ ℕ).Reachable doubled ∧
    doubled.records 1 = some ⟨1, 5, .opened⟩ ∧ doubled.records 2 = some ⟨1, 6, .opened⟩ :=
  ⟨System.reachable_of_run ⟨rfl, rfl, rfl, rfl, rfl, rfl⟩ (Option.some_get damaging_runs).symm,
    by decide +kernel, by decide +kernel⟩

/-- Session 1 is closed without its slot being returned, and an adoption asks before, and
opens it again after, a second session is placed on the slot. -/
def adopting : List (Label ℕ ℕ ℕ ℕ) :=
  placing ++ [.close 1, .act 3 (.adopt 1), .act 3 (.ask [1]), .act 3 .read, .act 3 .judge,
    .act 2 (.begin (.place 2 0 1 1) [1] [1]), .act 2 .read, .act 2 .read, .act 2 (.look false true),
    .act 2 (.plan []), .act 2 (.choose none), .act 2 (.lock true), .act 2 (.census false),
    .turn 1 { inUse with head := some 6 }, .act 2 .create, .act 2 .release,
    .act 3 .attach, .act 3 .reattach, .act 3 .reopen, .act 3 .detach]

/-- No slot is damaged there, and two open sessions name one all the same. -/
example : ((pools ℕ ℕ ℕ ℕ).run noPool adopting).any (fun s =>
    s.records 1 = some ⟨1, 5, .opened⟩ ∧ s.records 2 = some ⟨1, 6, .opened⟩) := by decide +kernel

end Onevcs.Pool
