import Mathlib.Data.List.Sort
import Onevcs.Sessions.Reclaim

/-!
# An open session's run root is never reclaimed

The record and the lease of a run root hand over to each other. An open holds the lease
until its record is written, an adoption holds it until its session is open again, and a
walk reads the records only once it holds the lease exclusively. So while a walk holds it,
no record that names the run root can appear, and one that was there is met in the
listing.
-/

set_option linter.unusedSectionVars false

namespace Onevcs.Sessions.Reclaim

open Foundations (Flock Mode System)

variable {τ π : Type} [DecidableEq τ] [DecidableEq π]

theorem Record.names_iff {record : Record τ} {root : Root τ} :
    record.names root = true ↔ record.state = .opened ∧ record.root = root := by
  simp [Record.names]

theorem reclaims_outcome (walk : Walk τ) : walk.outcome.reclaims.Perm walk.kept := by
  have hsorted : walk.outcome.reclaims =
      (walk.holdingWork.mergeSort fun a b => decide (b.1 ≤ a.1)).map Prod.snd :=
    List.take_append_drop _ _
  rw [hsorted]
  exact (List.mergeSort_perm _ _).map Prod.snd

namespace World

variable {s s' : World τ π} {p q : π} {phase : Phase τ} {token entry : τ} {record : Record τ}

/-! ## What a process has established -/

/-- A record says its session is open in the run root. -/
def Named (s : World τ π) (root : Root τ) : Prop :=
  ∃ token record, s.records token = some record ∧ record.names root = true

/-- The process holds the lease of the run root exclusively, to reclaim it. -/
def Reclaims (s : World τ π) (p : π) (entry : τ) : Prop :=
  (s.leases (.run entry)).Holds ⟨p, .reclaiming⟩ .exclusive

/-- The process reclaims the run roots, and no open session names one. -/
structure Clears (s : World τ π) (p : π) (entries : List τ) : Prop where
  nodup : entries.Nodup
  reclaims : ∀ entry ∈ entries, s.Reclaims p entry
  unnamed : ∀ entry ∈ entries, ¬ s.Named (.run entry)

/-- The session's record is there, with the root that was read. -/
def Rooted (s : World τ π) (token : τ) (record : Record τ) : Prop :=
  ∃ stored, s.records token = some stored ∧ stored.root = record.root

/-- What a process has established where it stands. -/
def Sound (s : World τ π) (p : π) : Phase τ → Prop
  | .leased token | .made token | .recorded token =>
    (s.leases (.run token)).Holds ⟨p, .opening⟩ .shared
  | .adopting token record _ => s.Rooted token record
  | .attached token record _ | .found token record _ | .reopened token record _ =>
    s.Rooted token record ∧ (s.leases record.root).Holds ⟨p, .adopting⟩ .shared
  | .walking walk | .probing walk _ | .taking walk _ => s.Clears p walk.kept
  | .taken walk entry => s.Clears p walk.kept ∧ s.Reclaims p entry ∧ entry ∉ walk.kept
  | .relisting walk entry unread named =>
    (s.Clears p walk.kept ∧ s.Reclaims p entry ∧ entry ∉ walk.kept) ∧
      (named = false → ∀ token record, s.records token = some record →
        record.names (.run entry) = true → token ∈ unread)
  | .abandoned walk entry => s.Clears p (entry :: walk.kept)
  | .removing entry after | .removed entry after => s.Clears p (entry :: after.phase.reclaims)
  | .finishing retained doomed => s.Clears p (retained ++ doomed)
  | .idle | .discarding _ | .visiting _ _ | .surveying _ _ _ => True

/-- The records' directory lists every record, and every process is where it may be. -/
structure Invariant (s : World τ π) : Prop where
  listed : ∀ token record, s.records token = some record → token ∈ s.tokens
  sound : ∀ p, s.Sound p (s.process p)

theorem Clears.tail {entries : List τ} (h : s.Clears p (entry :: entries)) :
    s.Clears p entries where
  nodup := h.nodup.of_cons
  reclaims r hr := h.reclaims r (List.mem_cons_of_mem entry hr)
  unnamed r hr := h.unnamed r (List.mem_cons_of_mem entry hr)

theorem Clears.cons {entries : List τ} (h : s.Clears p entries) (hfresh : entry ∉ entries)
    (hheld : s.Reclaims p entry) (hunnamed : ¬ s.Named (.run entry)) :
    s.Clears p (entry :: entries) where
  nodup := List.nodup_cons.mpr ⟨hfresh, h.nodup⟩
  reclaims := List.forall_mem_cons.mpr ⟨hheld, h.reclaims⟩
  unnamed := List.forall_mem_cons.mpr ⟨hunnamed, h.unnamed⟩

theorem Clears.perm {entries entries' : List τ} (h : s.Clears p entries)
    (hperm : entries'.Perm entries) : s.Clears p entries' where
  nodup := hperm.nodup_iff.mpr h.nodup
  reclaims r hr := h.reclaims r (hperm.mem_iff.mp hr)
  unnamed r hr := h.unnamed r (hperm.mem_iff.mp hr)

theorem Clears.nil : s.Clears p [] := ⟨List.nodup_nil, by simp, by simp⟩

/-- Nobody else's lease is needed by what a process has established. -/
theorem Sound.frame (h : s.Sound p phase) (hrecords : s'.records = s.records)
    (hleases : ∀ root purpose mode, (s.leases root).Holds ⟨p, purpose⟩ mode →
      (s'.leases root).Holds ⟨p, purpose⟩ mode) : s'.Sound p phase := by
  have hnamed : ∀ root, s'.Named root ↔ s.Named root := by
    intro root
    simp only [Named, hrecords]
  have hrooted : ∀ token record, s.Rooted token record → s'.Rooted token record := by
    intro token record hrooted
    rwa [Rooted, hrecords]
  have hclears : ∀ entries, s.Clears p entries → s'.Clears p entries := fun entries hclears =>
    ⟨hclears.nodup, fun entry hentry => hleases _ _ _ (hclears.reclaims entry hentry),
      fun entry hentry => (hnamed _).not.mpr (hclears.unnamed entry hentry)⟩
  cases phase with
  | leased token => exact hleases _ _ _ h
  | made token => exact hleases _ _ _ h
  | recorded token => exact hleases _ _ _ h
  | adopting token record resumed => exact hrooted _ _ h
  | attached token record resumed => exact ⟨hrooted _ _ h.1, hleases _ _ _ h.2⟩
  | found token record resumed => exact ⟨hrooted _ _ h.1, hleases _ _ _ h.2⟩
  | reopened token record resumed => exact ⟨hrooted _ _ h.1, hleases _ _ _ h.2⟩
  | walking walk => exact hclears _ h
  | probing walk entry => exact hclears _ h
  | taking walk entry => exact hclears _ h
  | taken walk entry => exact ⟨hclears _ h.1, hleases _ _ _ h.2.1, h.2.2⟩
  | relisting walk entry unread named =>
    obtain ⟨⟨hkept, hheld, hfresh⟩, hunread⟩ := h
    exact ⟨⟨hclears _ hkept, hleases _ _ _ hheld, hfresh⟩, hrecords ▸ hunread⟩
  | abandoned walk entry => exact hclears _ h
  | removing entry after => exact hclears _ h
  | removed entry after => exact hclears _ h
  | finishing retained doomed => exact hclears _ h
  | idle => trivial
  | discarding token => trivial
  | visiting root mode => trivial
  | surveying entries unread snapshot => trivial

/-- A record is written that keeps its root, and names no run root under reclamation. -/
theorem Sound.write (h : s.Sound p phase)
    (hroot : ∀ stored, s.records token = some stored → stored.root = record.root)
    (hnames : ∀ entry, s.Reclaims p entry → record.names (.run entry) = false) :
    (s.write token record).Sound p phase := by
  have hback : ∀ t r, (s.write token record).records t = some r →
      (t = token ∧ r = record) ∨ s.records t = some r := by
    intro t r hr
    by_cases ht : t = token
    · subst ht
      exact Or.inl ⟨rfl, by simpa [World.write, eq_comm] using hr⟩
    · exact Or.inr (by simpa [World.write, Function.update_of_ne ht] using hr)
  have hnamed : ∀ entry, s.Reclaims p entry → ¬ s.Named (.run entry) →
      ¬ (s.write token record).Named (.run entry) := by
    rintro entry hheld hunnamed ⟨t, r, hr, hopen⟩
    rcases hback t r hr with ⟨-, rfl⟩ | hstored
    · rw [hnames entry hheld] at hopen
      cases hopen
    · exact hunnamed ⟨t, r, hstored, hopen⟩
  have hrooted : ∀ t r, s.Rooted t r → (s.write token record).Rooted t r := by
    rintro t r ⟨stored, hstored, hsame⟩
    by_cases ht : t = token
    · subst ht
      exact ⟨record, by simp [World.write], (hroot stored hstored).symm.trans hsame⟩
    · exact ⟨stored, by simpa [World.write, Function.update_of_ne ht] using hstored, hsame⟩
  have hclears : ∀ entries, s.Clears p entries → (s.write token record).Clears p entries :=
    fun entries hclears => ⟨hclears.nodup, hclears.reclaims, fun entry hentry =>
      hnamed entry (hclears.reclaims entry hentry) (hclears.unnamed entry hentry)⟩
  cases phase with
  | adopting token record resumed => exact hrooted _ _ h
  | attached token record resumed => exact ⟨hrooted _ _ h.1, h.2⟩
  | found token record resumed => exact ⟨hrooted _ _ h.1, h.2⟩
  | reopened token record resumed => exact ⟨hrooted _ _ h.1, h.2⟩
  | walking walk => exact hclears _ h
  | probing walk entry => exact hclears _ h
  | taking walk entry => exact hclears _ h
  | taken walk entry => exact ⟨hclears _ h.1, h.2⟩
  | relisting walk entry unread named =>
    obtain ⟨⟨hkept, hheld, hfresh⟩, hunread⟩ := h
    refine ⟨⟨hclears _ hkept, hheld, hfresh⟩, fun hnone t r hr hopen => ?_⟩
    rcases hback t r hr with ⟨-, rfl⟩ | hstored
    · rw [hnames entry hheld] at hopen
      cases hopen
    · exact hunread hnone t r hstored hopen
  | abandoned walk entry => exact hclears _ h
  | removing entry after => exact hclears _ h
  | removed entry after => exact hclears _ h
  | finishing retained doomed => exact hclears _ h
  | leased token => exact h
  | made token => exact h
  | recorded token => exact h
  | idle => trivial
  | discarding token => trivial
  | visiting root mode => trivial
  | surveying entries unread snapshot => trivial

/-! ## Taking and letting go -/

theorem Invariant.goto (h : s.Invariant) (phase : Phase τ) (hphase : s.Sound p phase) :
    (s.goto p phase).Invariant where
  listed := h.listed
  sound q := by
    by_cases hq : q = p
    · subst hq
      have hself : (s.goto q phase).process q = phase := Function.update_self ..
      rw [hself]
      exact hphase.frame rfl fun _ _ _ hheld => hheld
    · have hother : (s.goto p phase).process q = s.process q := Function.update_of_ne hq ..
      rw [hother]
      exact (h.sound q).frame rfl fun _ _ _ hheld => hheld

theorem Invariant.exist (h : s.Invariant) (exist : Root τ → Bool) :
    Invariant { s with exist := exist } where
  listed := h.listed
  sound q := (h.sound q).frame rfl fun _ _ _ hheld => hheld

theorem Clears.lease {entries : List τ} (h : s.Clears p entries) {root : Root τ}
    {purpose : Purpose} {mode : Mode} {lease : Flock (Handle π)}
    (htake : (s.leases root).take ⟨q, purpose⟩ mode = some lease) :
    Clears { s with leases := Function.update s.leases root lease } p entries :=
  ⟨h.nodup, fun entry hentry => Flock.holds_update_take htake (h.reclaims entry hentry), h.unnamed⟩

theorem Invariant.lease (h : s.Invariant) {root : Root τ} {purpose : Purpose} {mode : Mode}
    {lease : Flock (Handle π)} (htake : (s.leases root).take ⟨p, purpose⟩ mode = some lease) :
    Invariant { s with leases := Function.update s.leases root lease } where
  listed := h.listed
  sound q := (h.sound q).frame rfl fun _ _ _ hheld => Flock.holds_update_take htake hheld

theorem Invariant.tryLease (h : s.Invariant) {root : Root τ} {purpose : Purpose} {mode : Mode}
    {granted refused : Phase τ}
    (hgranted : ∀ lease, (s.leases root).take ⟨p, purpose⟩ mode = some lease →
      Sound { s with leases := Function.update s.leases root lease } p granted)
    (hrefused : s.Sound p refused) : (s.tryLease p root purpose mode granted refused).Invariant := by
  unfold World.tryLease
  split
  · rename_i lease htake
    have hlease := h.lease htake
    exact hlease.goto granted (hgranted lease htake)
  · exact h.goto refused hrefused

theorem Invariant.drop (h : s.Invariant) (phase : Phase τ) {root : Root τ} {purpose : Purpose}
    (hphase : (s.drop p root purpose).Sound p phase) :
    ((s.drop p root purpose).goto p phase).Invariant where
  listed := h.listed
  sound q := by
    by_cases hq : q = p
    · subst hq
      have hself : ((s.drop q root purpose).goto q phase).process q = phase :=
        Function.update_self ..
      rw [hself]
      exact hphase.frame rfl fun _ _ _ hheld => hheld
    · have hother : ((s.drop p root purpose).goto p phase).process q = s.process q :=
        Function.update_of_ne hq ..
      rw [hother]
      refine (h.sound q).frame rfl fun at' purpose' mode hheld => ?_
      exact Flock.holds_update_drop.mpr ⟨hheld, fun hsame => hq (Handle.mk.inj hsame.2).1⟩

theorem Clears.drop {entries : List τ} (h : s.Clears p entries) (hfresh : entry ∉ entries) :
    (s.drop p (.run entry) .reclaiming).Clears p entries where
  nodup := h.nodup
  reclaims r hr := by
    refine Flock.holds_update_drop.mpr ⟨h.reclaims r hr, fun hsame => ?_⟩
    obtain rfl : r = entry := Root.run.inj hsame.1
    exact hfresh hr
  unnamed := h.unnamed

theorem dropAll_spec (s : World τ π) (p : π) (held : List (Root τ × Purpose × Mode)) :
    (s.dropAll p held).records = s.records ∧ (s.dropAll p held).tokens = s.tokens ∧
      (s.dropAll p held).process = s.process ∧
      ∀ q, q ≠ p → ∀ root purpose mode, (s.leases root).Holds ⟨q, purpose⟩ mode →
        ((s.dropAll p held).leases root).Holds ⟨q, purpose⟩ mode := by
  induction held generalizing s with
  | nil => exact ⟨rfl, rfl, rfl, fun _ _ _ _ _ hheld => hheld⟩
  | cons lease held ih =>
    obtain ⟨hrecords, htokens, hprocess, hleases⟩ := ih (s.drop p lease.1 lease.2.1)
    refine ⟨hrecords, htokens, hprocess, fun q hq root purpose mode hheld => ?_⟩
    refine hleases q hq root purpose mode (Flock.holds_update_drop.mpr ⟨hheld, fun hsame => ?_⟩)
    exact hq (Handle.mk.inj hsame.2).1

theorem Invariant.dropAll (h : s.Invariant) {held : List (Root τ × Purpose × Mode)}
    (hphase : ∀ s' : World τ π, s'.Sound p phase) :
    ((s.dropAll p held).goto p phase).Invariant := by
  obtain ⟨hrecords, htokens, hprocess, hleases⟩ := dropAll_spec s p held
  refine ⟨fun t r hr => ?_, fun q => ?_⟩
  · have hstored : s.records t = some r := hrecords ▸ hr
    exact htokens ▸ h.listed t r hstored
  · by_cases hq : q = p
    · subst hq
      have hself : ((s.dropAll q held).goto q phase).process q = phase := Function.update_self ..
      rw [hself]
      exact hphase _
    · have hother : ((s.dropAll p held).goto p phase).process q = s.process q := by
        rw [← hprocess]
        exact Function.update_of_ne hq ..
      rw [hother]
      exact (h.sound q).frame hrecords fun root purpose mode hheld => hleases q hq _ _ _ hheld

theorem Invariant.write (h : s.Invariant)
    (hroot : ∀ stored, s.records token = some stored → stored.root = record.root)
    (hnames : ∀ q entry, s.Reclaims q entry → record.names (.run entry) = false) :
    (s.write token record).Invariant where
  listed t r hr := by
    by_cases ht : t = token
    · subst ht
      by_cases hmem : t ∈ s.tokens <;> simp [World.write, hmem]
    · have hstored : s.records t = some r := by
        simpa [World.write, Function.update_of_ne ht] using hr
      have hmem := h.listed t r hstored
      by_cases htoken : token ∈ s.tokens <;> simp [World.write, htoken, hmem]
  sound q := (h.sound q).write hroot (hnames q)

theorem not_names_of_holds {handle : Handle π} (hpurpose : handle.purpose ≠ .reclaiming)
    {mode : Mode} (hheld : (s.leases record.root).Holds handle mode) :
    ∀ q entry, s.Reclaims q entry → record.names (.run entry) = false := by
  intro q entry hreclaims
  by_contra hnames
  rw [Bool.not_eq_false, Record.names_iff] at hnames
  rw [hnames.2] at hheld
  obtain rfl := (Flock.exclusive_alone hreclaims hheld).1
  exact hpurpose rfl

/-! ## Every step -/

theorem Invariant.leave (h : s.Invariant) (held : List (Root τ × Purpose × Mode)) :
    ((s.dropAll p held).goto p .idle).Invariant :=
  h.dropAll fun _ => trivial

theorem Sound.after {after : After τ} (h : s.Clears p after.phase.reclaims) :
    s.Sound p after.phase := by
  cases after <;> exact h

theorem Sound.readOn {walk : Walk τ} {unread : List τ} {named : Bool}
    (h : s.Sound p (.relisting walk entry (token :: unread) named)) :
    s.Sound p (.relisting walk entry unread
      (named || (s.records token).any fun record => record.names (.run entry))) := by
  refine ⟨h.1, fun hnone t r hr hopen => ?_⟩
  rw [Bool.or_eq_false_iff] at hnone
  rcases List.mem_cons.mp (h.2 hnone.1 t r hr hopen) with rfl | hmem
  · rw [hr, Option.any_some, hopen] at hnone
    exact absurd hnone.2 (by decide)
  · exact hmem

theorem Invariant.act (h : s.Invariant) {act : Act τ} (hs : s.act p act = some s') :
    s'.Invariant := by
  have hsound := h.sound p
  unfold World.act at hs
  split at hs <;> rename_i hp <;> try rw [hp] at hsound
  · -- lease
    obtain rfl := Option.some.inj hs
    exact h.tryLease (fun lease htake => by simpa [Sound] using Flock.take_holds htake) trivial
  · -- make
    obtain rfl := Option.some.inj hs
    exact (h.goto (.made _) hsound).exist _
  · -- record
    split at hs <;> obtain rfl := Option.some.inj hs
    · exact h.leave _
    · rename_i token _ _ hnew
      refine Invariant.goto (h.write (by simp [hnew]) ?_) (.recorded _) hsound
      exact not_names_of_holds (by simp) hsound
  · -- finish
    obtain rfl := Option.some.inj hs
    exact h.leave _
  · -- refuse
    obtain rfl := Option.some.inj hs
    exact h.dropAll fun _ => trivial
  · -- discard
    obtain rfl := Option.some.inj hs
    exact (h.goto .idle trivial).exist _
  · -- openSlot
    split at hs
    · cases hs
    · rename_i hnew
      obtain rfl := Option.some.inj hs
      exact h.write (by simp [hnew]) fun q entry _ => by simp [Record.names]
  · -- adopt
    split at hs
    · cases hs
    · rename_i record hrecord
      obtain rfl := Option.some.inj hs
      exact h.goto (.adopting _ _ _) ⟨record, hrecord, rfl⟩
  · -- resume
    split at hs
    · cases hs
    · rename_i record hrecord
      split_ifs at hs
      obtain rfl := Option.some.inj hs
      exact h.tryLease (fun lease _ => ⟨record, hrecord, rfl⟩) trivial
  · -- attach
    split at hs <;> obtain rfl := Option.some.inj hs
    · rename_i lease htake
      have hlease := h.lease htake
      refine hlease.goto (.attached _ _ _) ⟨hsound, ?_⟩
      simpa using Flock.take_holds htake
    · exact h.leave _
  · -- find
    split_ifs at hs <;> obtain rfl := Option.some.inj hs
    · exact h.goto (.found _ _ _) hsound
    · exact h.leave _
  · -- reopen
    split at hs <;> obtain rfl := Option.some.inj hs
    · exact h.leave _
    · rename_i _ token record resumed _ stored hstored
      obtain ⟨⟨stored', hstored', hroot⟩, hheld⟩ := hsound
      obtain rfl : stored = stored' := Option.some.inj (hstored.symm.trans hstored')
      rw [← hroot] at hheld
      have hwritten : (s.write token { stored with state := .opened }).Invariant :=
        h.write (by simp [hstored]) (not_names_of_holds (by simp) hheld)
      refine hwritten.goto (.reopened _ _ _)
        ⟨⟨{ stored with state := .opened }, ?_, hroot⟩, hroot ▸ hheld⟩
      simp [World.write]
  · -- detach
    obtain rfl := Option.some.inj hs
    exact h.leave _
  · -- close
    split at hs
    · cases hs
    · rename_i stored hstored
      obtain rfl := Option.some.inj hs
      exact h.write (by simp [hstored]) fun q entry _ => by simp [Record.names]
  · -- visit
    obtain rfl := Option.some.inj hs
    exact h.tryLease (fun _ _ => trivial) trivial
  · -- leave
    obtain rfl := Option.some.inj hs
    exact h.leave _
  · -- survey
    split_ifs at hs
    obtain rfl := Option.some.inj hs
    exact h.goto _ trivial
  · -- read, the snapshot over
    obtain rfl := Option.some.inj hs
    exact h.goto (.walking _) .nil
  · -- read, for the snapshot
    obtain rfl := Option.some.inj hs
    exact h.goto _ trivial
  · -- next
    split at hs
    · obtain rfl := Option.some.inj hs
      refine h.goto (Walk.outcome _) ?_
      exact Clears.perm hsound (reclaims_outcome _)
    · dsimp only at hs
      split_ifs at hs <;> obtain rfl := Option.some.inj hs
      · exact h.goto (.probing _ _) hsound
      · exact h.goto (.walking _) hsound
  · -- probe
    obtain rfl := Option.some.inj hs
    refine h.goto _ ?_
    split_ifs <;> exact hsound
  · -- take
    obtain rfl := Option.some.inj hs
    refine h.tryLease (fun lease htake => ⟨hsound.lease htake, ?_, ?_⟩) hsound
    · simpa [Reclaims] using Flock.take_holds htake
    · intro hmem
      exact (Flock.take_eq_some htake).2.1.not_holds (hsound.reclaims _ hmem)
  · -- relist
    split_ifs at hs with hlists
    obtain rfl := Option.some.inj hs
    exact h.goto (.relisting _ _ _ _)
      ⟨hsound, fun _ token record hrecord _ => hlists token (h.listed token record hrecord)⟩
  · -- read, under the lease
    obtain rfl := Option.some.inj hs
    exact h.goto (.relisting _ _ _ _) hsound.readOn
  · -- read, the listing over
    split_ifs at hs with hnamed <;> obtain rfl := Option.some.inj hs
    · exact h.drop (.walking _) (hsound.1.1.drop hsound.1.2.2)
    · obtain ⟨⟨hkept, hheld, hfresh⟩, hunread⟩ := hsound
      refine h.goto (.abandoned _ _) (hkept.cons hfresh hheld ?_)
      rintro ⟨token, record, hrecord, hopen⟩
      exact List.not_mem_nil (hunread (by simpa using hnamed) token record hrecord hopen)
  · -- judge
    split_ifs at hs <;> obtain rfl := Option.some.inj hs
    · exact h.goto (.walking _) hsound
    · exact h.goto (.removing _ (.walking _)) hsound
  · -- remove
    obtain rfl := Option.some.inj hs
    exact (h.goto (.removed _ _) hsound).exist _
  · -- release, after a removal
    obtain rfl := Option.some.inj hs
    have hfresh := (List.nodup_cons.mp hsound.nodup).1
    exact h.drop _ (Sound.after (hsound.tail.drop hfresh))
  · -- release, what is retained
    obtain rfl := Option.some.inj hs
    have hfresh := (List.nodup_cons.mp hsound.nodup).1
    exact h.drop (.finishing _ _) (hsound.tail.drop hfresh)
  · -- next, of what is removed
    obtain rfl := Option.some.inj hs
    exact h.goto (.removing _ (.finishing _)) hsound
  · -- next, nothing left
    obtain rfl := Option.some.inj hs
    exact h.goto _ trivial
  · -- fail
    obtain rfl := Option.some.inj hs
    exact h.leave _
  · cases hs

theorem invariant_of_reachable (h : (walks τ π).Reachable s) : s.Invariant := by
  refine h.invariant ?_ fun s label s' hi _ hs => ?_
  · rintro s ⟨hrecords, -, -, -, hprocess⟩
    refine ⟨by simp [hrecords], fun p => ?_⟩
    rw [hprocess]
    trivial
  · have hact : s.act label.1 label.2 = some s' := hs
    exact hi.act hact

theorem remove_inv (hs : s.act p .remove = some s') :
    ∃ entry after, s.process p = .removing entry after ∧
      s'.exist = Function.update s.exist (.run entry) false := by
  unfold World.act at hs
  split at hs <;> try contradiction
  rename_i entry after hp _
  obtain rfl := Option.some.inj hs
  exact ⟨entry, after, hp, rfl⟩

end World

/-- A run root `reclaim` removes is named by no open session, and no open that is going to
record it holds its lease. -/
theorem removed_unnamed {s s' : World τ π} {p : π} {name : τ}
    (hreach : (walks τ π).Reachable s) (hstep : (walks τ π).step s (p, .remove) = some s')
    (hthere : s.exist (.run name) = true) (hgone : s'.exist (.run name) = false) :
    (∀ token record, s.records token = some record → record.state = .opened →
        record.root ≠ .run name) ∧
      (∀ q mode, ¬ (s.leases (.run name)).Holds ⟨q, .opening⟩ mode) ∧
      ∀ q, s.process q ≠ .leased name ∧ s.process q ≠ .made name := by
  have hinv := World.invariant_of_reachable hreach
  obtain ⟨entry, after, hp, hexist⟩ := World.remove_inv hstep
  obtain rfl : name = entry := by
    by_contra hne
    have hother : Root.run name ≠ .run entry := fun h => hne (Root.run.inj h)
    rw [hexist, Function.update_of_ne hother, hthere] at hgone
    cases hgone
  have hclears := hinv.sound p
  rw [hp] at hclears
  have hreclaims := hclears.reclaims name List.mem_cons_self
  have hunnamed := hclears.unnamed name List.mem_cons_self
  have halone : ∀ q mode, ¬ (s.leases (.run name)).Holds ⟨q, .opening⟩ mode := fun q mode hheld =>
    Purpose.noConfusion (Handle.mk.inj (Flock.exclusive_alone hreclaims hheld).1).2
  refine ⟨fun token record hrecord hopen hroot => ?_, halone, fun q => ⟨fun hq => ?_, fun hq => ?_⟩⟩
  · exact hunnamed ⟨token, record, hrecord, Record.names_iff.mpr ⟨hopen, hroot⟩⟩
  · have hheld := hinv.sound q
    rw [hq] at hheld
    exact halone q .shared hheld
  · have hheld := hinv.sound q
    rw [hq] at hheld
    exact halone q .shared hheld

/-- A host that has no session yet. -/
def noSessions : World ℕ ℕ := ⟨fun _ => none, [], fun _ => false, fun _ => .free, fun _ => .idle⟩

/-- Session 7 opens and closes, and a walk of a second process finds its run root abandoned
while a third process opens session 8. -/
def abandoning : List (ℕ × Act ℕ) :=
  [(1, .lease 7), (1, .make), (1, .record), (1, .finish), (1, .close 7), (3, .lease 8),
    (2, .survey [7, 8] [7]), (2, .read), (2, .read), (3, .make), (3, .record), (2, .next),
    (2, .probe true), (2, .take), (2, .relist [7, 8]), (2, .read), (2, .read), (2, .read),
    (2, .judge false 0)]

theorem abandoning_runs : ((walks ℕ ℕ).run noSessions abandoning).isSome := by decide

/-- The host as the walk is about to remove the run root. -/
def aboutToRemove : World ℕ ℕ := ((walks ℕ ℕ).run noSessions abandoning).get abandoning_runs

theorem aboutToRemove_removes : ((walks ℕ ℕ).step aboutToRemove (2, .remove)).isSome := by decide

theorem removed_unnamed_aboutToRemove :
    (∀ token record, aboutToRemove.records token = some record → record.state = .opened →
        record.root ≠ .run 7) ∧
      (∀ q mode, ¬ (aboutToRemove.leases (.run 7)).Holds ⟨q, .opening⟩ mode) ∧
      ∀ q, aboutToRemove.process q ≠ .leased 7 ∧ aboutToRemove.process q ≠ .made 7 :=
  removed_unnamed (p := 2)
    (System.reachable_of_run ⟨rfl, rfl, rfl, rfl, rfl⟩ (Option.some_get abandoning_runs).symm)
    (Option.some_get aboutToRemove_removes).symm (by decide) (by decide)

end Onevcs.Sessions.Reclaim
