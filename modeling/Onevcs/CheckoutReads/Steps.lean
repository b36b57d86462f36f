import Onevcs.CheckoutReads.Invariant

/-!
# Every step of a process keeps its invariant

One lemma for each place a thread can go on from, in the order of the source:
`Hold::take`, `Process::acquire` with `Files::exclusive`, `Process::upgrade`, and
`Hold::drop`. `View.step_sound` assembles them.
-/

set_option linter.unusedSectionVars false

namespace Onevcs.CheckoutReads

open Foundations

variable {P T : Type*} [DecidableEq P] [DecidableEq T]

section Kept

variable {L L' : Flock (Description P)} {p : P} {d e : Description P} {mode mode' : Mode}

theorem Kept.take (h : Kept L p d mode) (htake : L.take e mode' = some L') :
    Kept L' p d mode :=
  ⟨(Flock.take_holds_iff htake).mpr (Or.inr h.holds), h.owner, h.inUse⟩

theorem Kept.taken {serial : Nat} (htake : L.take ⟨p, serial, false⟩ mode = some L') :
    Kept L' p ⟨p, serial, false⟩ mode :=
  ⟨Flock.take_holds htake, rfl, rfl⟩

theorem Kept.drop (h : Kept L p d mode) (hne : d ≠ e) : Kept (L.drop e) p d mode :=
  ⟨Flock.drop_holds_iff.mpr ⟨h.holds, hne⟩, h.owner, h.inUse⟩

theorem Kept.ne_stray (h : Kept L p d mode) {q : P} {serial : Nat} : d ≠ ⟨q, serial, true⟩ := by
  rintro rfl
  exact Bool.noConfusion h.inUse

end Kept

namespace Sound

variable {p : P} {v w : View P T} {t : T}

theorem call (hs : Sound p v) (hpc : v.process.pc t = .out) (mode : Mode) :
    Sound p (v.moved t (.taking mode)) :=
  hs.resting rfl rfl rfl (fun u _ d h => hs.threadIntent u d h) (by rw [hpc]; rfl) rfl rfl
    hs.accounted

theorem intent_granted (hs : Sound p v) {a : Pc P} {d : Description P} {L : Flock (Description P)}
    (htake : v.intent.take d .exclusive = some L) :
    ∀ u ≠ t, ∀ e, (v.process.pc u).intentRef = some e →
      Kept w.intent p e .exclusive ∧ a.intentRef = none := by
  intro u _ e href
  rw [hs.no_intent_of_grants (Flock.take_eq_some htake).2.1 u] at href
  exact absurd href (by simp)

theorem take (hs : Sound p v) {mode : Mode} (hpc : v.process.pc t = .taking mode)
    (htake : v.take t mode = some w) : Sound p w := by
  unfold View.take at htake
  split at htake
  · next hcovered =>
    obtain rfl := Option.some.inj htake
    exact hs.resting rfl (Holders.enter_file mode) rfl (fun u _ d h => hs.threadIntent u d h)
      (by rw [hpc]; rfl) rfl rfl (hs.accounted.enter t hcovered)
  · next hnot =>
    cases hfile : v.process.holders.file with
    | free =>
      simp only [hfile] at htake
      obtain rfl := Option.some.inj htake
      have hidle := hs.all_idle (by rw [hfile]; intro phase; cases phase <;> simp [File.Allows])
      have hnil := hs.accounted.holds_nil (by rw [hfile]; intro m; rfl)
      refine hs.moving rfl (fun u _ => hidle u) trivial ?_ ?_ ?_
        (hs.intent_untouched rfl rfl) ?_ ?_
      · exact fun d m h => absurd h (by simp [View.moved, View.settle, File.leaseRef])
      · exact fun d m h => absurd h (by simp [Pc.leaseRef])
      · exact fun d h => absurd h (by simp [Pc.intentRef])
      · exact fun h => absurd h (by simp [View.moved, View.settle])
      · exact hs.accounted.settle (by simp [hnil])
    | held m guard =>
      simp only [hfile] at htake
      obtain rfl := Option.some.inj htake
      have hidle := hs.all_idle (by rw [hfile]; intro phase; cases phase <;> simp [File.Allows])
      -- only a shared hold leaves a take uncovered, and only an exclusive one
      have hm : m = .shared := by
        cases m with
        | shared => rfl
        | exclusive => simp [hfile, covered] at hnot
      subst hm
      refine hs.moving rfl (fun u _ => hidle u) trivial ?_ ?_ ?_
        (hs.intent_untouched rfl rfl) ?_ ?_
      · intro d m h
        exact hs.fileLease d m (by rw [hfile]; exact h)
      · exact fun d m h => absurd h (by simp [Pc.leaseRef])
      · exact fun d h => absurd h (by simp [Pc.intentRef])
      · exact fun h => absurd h (by simp [View.moved, View.settle])
      · refine hs.accounted.settle fun e hmem => ?_
        have hcovers := hs.accounted.covers e hmem
        rw [hfile] at hcovers
        exact hcovers
    | acquiring => simp [hfile] at htake
    | upgrading u => simp [hfile] at htake

theorem transit (hs : Sound p v) {a : Pc P}
    (hbusy : (v.process.pc t).phase ≠ .idle) (hsame : a.phase = (v.process.pc t).phase)
    (hprocess : w.process = { v.process with pc := Function.update v.process.pc t a })
    (hfile : ∀ d mode, v.process.holders.file.leaseRef = some (d, mode) → Kept w.lease p d mode)
    (hlease : ∀ d mode, a.leaseRef = some (d, mode) → Kept w.lease p d mode)
    (hintent : ∀ d, a.intentRef = some d → Kept w.intent p d .exclusive)
    (hothers : ∀ u ≠ t, ∀ d, (v.process.pc u).intentRef = some d →
      Kept w.intent p d .exclusive ∧ a.intentRef = none) : Sound p w := by
  have hholders : w.process.holders = v.process.holders := by rw [hprocess]
  have hfits := hs.fits t
  rw [← hsame] at hfits
  refine hs.moving (by rw [hprocess]) (hs.others_idle hbusy) ?_ ?_ hlease hintent hothers ?_ ?_
  · rwa [hholders]
  · rwa [hholders]
  · intro hreplaced
    rw [hholders] at hreplaced
    rw [hreplaced] at hfits
    cases hphase : a.phase with
    | raising => rfl
    | idle => exact absurd (hsame.symm.trans hphase) hbusy
    | acquiring => simp [hphase, File.Allows] at hfits
    | intending => simp [hphase, File.Allows] at hfits
    | unrestored => simp [hphase, File.Allows] at hfits
  · rw [hprocess]
    exact hs.accounted

/-! ## The steps of `Process::acquire` and `Files::exclusive` -/

theorem holds_nil_of_acquiring (hs : Sound p v)
    (hphase : (v.process.pc t).phase = .acquiring) :
    v.process.holders.file = .acquiring ∧ v.process.holds = [] := by
  have hfile : v.process.holders.file = .acquiring := by
    have hfits := hs.fits t
    rw [hphase] at hfits
    cases hf : v.process.holders.file with
    | acquiring => rfl
    | upgrading u => cases u <;> simp [hf, File.Allows] at hfits
    | free => simp [hf, File.Allows] at hfits
    | held m g => simp [hf, File.Allows] at hfits
  exact ⟨hfile, hs.accounted.holds_nil (by rw [hfile]; intro mode; rfl)⟩

theorem acquiring_step (hs : Sound p v) {a : Pc P}
    (hbefore : (v.process.pc t).phase = .acquiring) (hafter : a.phase = .acquiring)
    (hprocess : w.process = { v.process with pc := Function.update v.process.pc t a })
    (hlease : ∀ d mode, a.leaseRef = some (d, mode) → Kept w.lease p d mode)
    (hintent : ∀ d, a.intentRef = some d → Kept w.intent p d .exclusive)
    (hothers : ∀ u ≠ t, ∀ d, (v.process.pc u).intentRef = some d →
      Kept w.intent p d .exclusive ∧ a.intentRef = none) : Sound p w := by
  obtain ⟨hfile, _⟩ := hs.holds_nil_of_acquiring hbefore
  refine hs.transit (by rw [hbefore]; simp) (hafter.trans hbefore.symm) hprocess ?_ hlease
    hintent hothers
  exact fun d mode h => absurd h (by simp [hfile, File.leaseRef])

theorem leasing_exclusive_granted (hs : Sound p v) {serial : Nat}
    (hpc : v.process.pc t = .leasing .exclusive) {L : Flock (Description P)}
    (htake : v.lease.take ⟨p, serial, false⟩ .exclusive = some L) :
    Sound p ({ v with lease := L }.moved t (.checking ⟨p, serial, false⟩)) := by
  refine hs.acquiring_step (by rw [hpc]; rfl) rfl rfl ?_ ?_ (hs.intent_untouched rfl rfl)
  · intro d mode href
    obtain ⟨rfl, rfl⟩ : (⟨p, serial, false⟩ : Description P) = d ∧ Mode.exclusive = mode := by
      simpa [Pc.leaseRef] using href
    exact Kept.taken htake
  · exact fun d h => absurd h (by simp [Pc.intentRef])

theorem leasing_shared_granted (hs : Sound p v) {serial : Nat}
    (hpc : v.process.pc t = .leasing .shared) {L : Flock (Description P)}
    (htake : v.lease.take ⟨p, serial, false⟩ .shared = some L) :
    Sound p ({ v with lease := L }.moved t (.leased .shared ⟨p, serial, false⟩)) := by
  refine hs.acquiring_step (by rw [hpc]; rfl) rfl rfl ?_ ?_ (hs.intent_untouched rfl rfl)
  · intro d mode href
    obtain ⟨rfl, rfl⟩ : (⟨p, serial, false⟩ : Description P) = d ∧ Mode.shared = mode := by
      simpa [Pc.leaseRef] using href
    exact Kept.taken htake
  · exact fun d h => absurd h (by simp [Pc.intentRef])

theorem checking_granted (hs : Sound p v) {serial : Nat} {guard : Description P}
    (hpc : v.process.pc t = .checking guard) {L : Flock (Description P)}
    (htake : v.intent.take ⟨p, serial, false⟩ .exclusive = some L) :
    Sound p ({ v with intent := L }.moved t (.cleared guard ⟨p, serial, false⟩)) := by
  refine hs.acquiring_step (by rw [hpc]; rfl) rfl rfl ?_ ?_ (hs.intent_granted htake)
  · intro d mode href
    exact hs.threadLease t d mode (by rw [hpc]; exact href)
  · intro d href
    obtain rfl : (⟨p, serial, false⟩ : Description P) = d := by simpa [Pc.intentRef] using href
    exact Kept.taken htake

theorem checking_busy (hs : Sound p v) {guard : Description P}
    (hpc : v.process.pc t = .checking guard) : Sound p (v.moved t (.yielding guard)) := by
  refine hs.acquiring_step (by rw [hpc]; rfl) rfl rfl ?_ ?_ (hs.intent_untouched rfl rfl)
  · intro d mode href
    exact hs.threadLease t d mode (by rw [hpc]; exact href)
  · exact fun d h => absurd h (by simp [Pc.intentRef])

theorem cleared (hs : Sound p v) {guard intent : Description P}
    (hpc : v.process.pc t = .cleared guard intent) :
    Sound p ((v.dropIntent intent).moved t (.leased .exclusive guard)) := by
  refine hs.acquiring_step (by rw [hpc]; rfl) rfl rfl ?_ ?_
    (hs.intent_mine (d := intent) (by rw [hpc]; rfl))
  · intro d mode href
    exact hs.threadLease t d mode (by rw [hpc]; exact href)
  · exact fun d h => absurd h (by simp [Pc.intentRef])

theorem acquiring_without (hs : Sound p v) {a : Pc P}
    (hbefore : (v.process.pc t).phase = .acquiring) (hafter : a.phase = .acquiring)
    (hprocess : w.process = { v.process with pc := Function.update v.process.pc t a })
    (hnolease : a.leaseRef = none) (hnointent : a.intentRef = none)
    (hothers : ∀ u ≠ t, ∀ d, (v.process.pc u).intentRef = some d →
      Kept w.intent p d .exclusive ∧ a.intentRef = none) : Sound p w := by
  refine hs.acquiring_step hbefore hafter hprocess ?_ ?_ hothers
  · exact fun d mode h => absurd (hnolease.symm.trans h) (by simp)
  · exact fun d h => absurd (hnointent.symm.trans h) (by simp)

theorem yielding (hs : Sound p v) {guard : Description P}
    (hpc : v.process.pc t = .yielding guard) :
    Sound p ((v.dropLease guard).moved t .queueing) :=
  hs.acquiring_without (by rw [hpc]; rfl) rfl rfl rfl rfl (hs.intent_untouched rfl rfl)

theorem queueing_granted (hs : Sound p v) {serial : Nat}
    (hpc : v.process.pc t = .queueing) {L : Flock (Description P)}
    (htake : v.intent.take ⟨p, serial, false⟩ .exclusive = some L) :
    Sound p ({ v with intent := L }.moved t (.queued ⟨p, serial, false⟩)) := by
  refine hs.acquiring_step (by rw [hpc]; rfl) rfl rfl ?_ ?_ (hs.intent_granted htake)
  · exact fun d mode h => absurd h (by simp [Pc.leaseRef])
  · intro d href
    obtain rfl : (⟨p, serial, false⟩ : Description P) = d := by simpa [Pc.intentRef] using href
    exact Kept.taken htake

theorem queued (hs : Sound p v) {intent : Description P}
    (hpc : v.process.pc t = .queued intent) :
    Sound p ((v.dropIntent intent).moved t (.leasing .exclusive)) :=
  hs.acquiring_without (by rw [hpc]; rfl) rfl rfl rfl rfl
    (hs.intent_mine (d := intent) (by rw [hpc]; rfl))

theorem acquiring_refused (hs : Sound p v)
    (hbefore : (v.process.pc t).phase = .acquiring)
    (hprocess : w.process = { v.process with pc := Function.update v.process.pc t .unleased })
    (hintent : w.intent = v.intent) : Sound p w :=
  hs.acquiring_without hbefore rfl hprocess rfl rfl (hs.intent_untouched hintent rfl)

theorem settled_free (hs : Sound p v) {a : Pc P}
    (hbusy : (v.process.pc t).phase ≠ .idle) (hafter : a.phase = .idle)
    (hpc : w.process.pc = Function.update v.process.pc t a)
    (hfile : w.process.holders.file = .free)
    (hintent : ∀ d, a.intentRef = some d → Kept w.intent p d .exclusive)
    (hothers : ∀ u ≠ t, ∀ d, (v.process.pc u).intentRef = some d →
      Kept w.intent p d .exclusive ∧ a.intentRef = none)
    (hcounted : Counted w.process.holders w.process.holds)
    (hnil : w.process.holds = []) : Sound p w := by
  refine hs.moving hpc (hs.others_idle hbusy) (by simp [hafter]) ?_ ?_ hintent hothers ?_ ?_
  · exact fun d mode h => absurd h (by simp [hfile, File.leaseRef])
  · exact fun d mode h => absurd hafter (Pc.phase_ne_idle_of_leaseRef h)
  · exact fun h => absurd h (by simp [hfile])
  · exact ⟨hcounted, by simp [hnil]⟩

theorem settled_held (hs : Sound p v) {mode : Mode} {guard : Description P}
    (hbusy : (v.process.pc t).phase ≠ .idle)
    (hpc : w.process.pc = Function.update v.process.pc t .out)
    (hfile : w.process.holders.file = .held mode guard)
    (hguard : Kept w.lease p guard mode)
    (hothers : ∀ u ≠ t, ∀ d, (v.process.pc u).intentRef = some d →
      Kept w.intent p d .exclusive ∧ (Pc.out : Pc P).intentRef = none)
    (haccounted : Accounted w.process.holders w.process.holds) : Sound p w := by
  refine hs.moving hpc (hs.others_idle hbusy) (File.allows_idle _) ?_ ?_ ?_ hothers ?_ haccounted
  · intro d m h
    obtain ⟨rfl, rfl⟩ : guard = d ∧ mode = m := by simpa [hfile, File.leaseRef] using h
    exact hguard
  · exact fun d m h => absurd h (by simp [Pc.leaseRef])
  · exact fun d h => absurd h (by simp [Pc.intentRef])
  · exact fun h => absurd h (by simp [hfile])

theorem leased (hs : Sound p v) {mode : Mode} {guard : Description P}
    (hpc : v.process.pc t = .leased mode guard) :
    Sound p (((v.settle (.held mode guard)).enter t mode).moved t .out) := by
  obtain ⟨_, hnil⟩ := hs.holds_nil_of_acquiring (t := t) (by rw [hpc]; rfl)
  refine hs.settled_held (by rw [hpc]; simp [Pc.phase]) rfl (Holders.enter_file mode)
    (hs.threadLease t guard mode (by rw [hpc]; rfl)) (hs.intent_untouched rfl rfl) ?_
  refine Accounted.enter (hs.accounted.settle (by simp [hnil])) t ?_
  cases mode <;> rfl

theorem unleased (hs : Sound p v) (hpc : v.process.pc t = .unleased) :
    Sound p ((v.settle .free).moved t .out) := by
  obtain ⟨_, hnil⟩ := hs.holds_nil_of_acquiring (t := t) (by rw [hpc]; rfl)
  refine hs.settled_free (by rw [hpc]; simp [Pc.phase]) rfl rfl rfl ?_
    (hs.intent_untouched rfl rfl) ?_ hnil
  · exact fun d h => absurd h (by simp [Pc.intentRef])
  · exact ⟨hs.accounted.readers, hs.accounted.writers⟩

/-! ## The steps of `Process::upgrade` -/

theorem intending_granted (hs : Sound p v) {serial : Nat}
    (hpc : v.process.pc t = .intending) {L : Flock (Description P)}
    (htake : v.intent.take ⟨p, serial, false⟩ .exclusive = some L) :
    Sound p ({ v with intent := L }.moved t (.intended ⟨p, serial, false⟩)) := by
  refine hs.transit (by rw [hpc]; simp [Pc.phase]) (by rw [hpc]; rfl) rfl hs.fileLease ?_ ?_
    (hs.intent_granted htake)
  · exact fun d mode h => absurd h (by simp [Pc.leaseRef])
  · intro d href
    obtain rfl : (⟨p, serial, false⟩ : Description P) = d := by simpa [Pc.intentRef] using href
    exact Kept.taken htake

theorem intending_refused (hs : Sound p v) (hpc : v.process.pc t = .intending) :
    Sound p (v.moved t .unintended) := by
  refine hs.transit (by rw [hpc]; simp [Pc.phase]) (by rw [hpc]; rfl) rfl hs.fileLease ?_ ?_
    (hs.intent_untouched rfl rfl)
  · exact fun d mode h => absurd h (by simp [Pc.leaseRef])
  · exact fun d h => absurd h (by simp [Pc.intentRef])

theorem intended_sharing (hs : Sound p v) {intent shared : Description P}
    (hpc : v.process.pc t = .intended intent)
    (hfile : v.process.holders.file = .upgrading (.sharing shared)) :
    Sound p (((v.settle (.upgrading .intended)).dropLease shared).moved t (.raising intent)) := by
  have hmine : (v.process.pc t).intentRef = some intent := by rw [hpc]; rfl
  refine hs.moving rfl (hs.others_idle (by rw [hpc]; simp [Pc.phase])) trivial ?_ ?_ ?_
    (hs.intent_mine hmine) ?_ ?_
  · exact fun d mode h => absurd h (by simp [View.moved, View.dropLease, View.settle, File.leaseRef])
  · exact fun d mode h => absurd h (by simp [Pc.leaseRef])
  · exact fun d href => hs.threadIntent t d (by rw [hpc]; exact href)
  · exact fun _ => rfl
  · refine hs.accounted.settle fun e hmem => ?_
    have hcovers := hs.accounted.covers e hmem
    rw [hfile] at hcovers
    exact hcovers

theorem intended_lapsed (hs : Sound p v) {intent : Description P}
    (hpc : v.process.pc t = .intended intent)
    (hfile : v.process.holders.file = .upgrading .lapsed) :
    Sound p (v.moved t (.raising intent)) := by
  have hmine : (v.process.pc t).intentRef = some intent := by rw [hpc]; rfl
  refine hs.moving rfl (hs.others_idle (by rw [hpc]; simp [Pc.phase])) ?_ hs.fileLease ?_ ?_
    (hs.intent_mine hmine) ?_ hs.accounted
  · exact (congrArg (fun f => File.Allows f .raising) hfile).mpr trivial
  · exact fun d mode h => absurd h (by simp [Pc.leaseRef])
  · exact fun d href => hs.threadIntent t d (by rw [hpc]; exact href)
  · exact fun _ => rfl

theorem unintended_sharing (hs : Sound p v) {shared : Description P}
    (hpc : v.process.pc t = .unintended)
    (hfile : v.process.holders.file = .upgrading (.sharing shared)) :
    Sound p ((v.settle (.held .shared shared)).moved t .out) := by
  refine hs.settled_held (by rw [hpc]; simp [Pc.phase]) rfl rfl
    (hs.fileLease shared .shared (by rw [hfile]; rfl)) (hs.intent_untouched rfl rfl) ?_
  refine hs.accounted.settle fun e hmem => ?_
  have hcovers := hs.accounted.covers e hmem
  rw [hfile] at hcovers
  exact hcovers

theorem unintended_lapsed (hs : Sound p v) (hpc : v.process.pc t = .unintended)
    (hfile : v.process.holders.file = .upgrading .lapsed) :
    Sound p ((v.settle .free).moved t .out) := by
  have hnil := hs.accounted.holds_nil (by rw [hfile]; intro mode; rfl)
  refine hs.settled_free (by rw [hpc]; simp [Pc.phase]) rfl rfl rfl ?_
    (hs.intent_untouched rfl rfl) ⟨hs.accounted.readers, hs.accounted.writers⟩ hnil
  exact fun d h => absurd h (by simp [Pc.intentRef])

/-- An upgrade that is refused the intent goes back to the lease it kept. -/
example : (View.go (⟨⟨⟨.upgrading (.sharing ⟨0, 1, false⟩), 1, 0⟩, [(1, .shared)], fun _ => .unintended⟩,
    Flock.free, Flock.free⟩ : View ℕ ℕ) 0).map (fun v => v.process.holders.file) =
      some (.held .shared ⟨0, 1, false⟩) := by decide +kernel

theorem raising_file (hs : Sound p v) (hphase : (v.process.pc t).phase = .raising) :
    v.process.holders.file.leaseRef = none ∧
      ∀ mode, covered v.process.holders.file mode = true → mode = .shared := by
  have hfits := hs.fits t
  rw [hphase] at hfits
  cases hf : v.process.holders.file with
  | upgrading u =>
    cases u with
    | sharing s => simp [hf, File.Allows] at hfits
    | intended => exact ⟨rfl, fun mode h => by cases mode <;> simp_all [covered]⟩
    | lapsed => exact ⟨rfl, fun mode h => by simp [covered] at h⟩
  | acquiring => simp [hf, File.Allows] at hfits
  | free => simp [hf, File.Allows] at hfits
  | held m g => simp [hf, File.Allows] at hfits

theorem raising_step (hs : Sound p v) {a : Pc P} {i : Description P}
    (hbefore : (v.process.pc t).phase = .raising) (hafter : a.phase = .raising)
    (hmine : (v.process.pc t).intentRef = some i) (hkept : a.intentRef = some i)
    (hprocess : w.process = { v.process with pc := Function.update v.process.pc t a })
    (hintent : w.intent = v.intent)
    (hlease : ∀ d mode, a.leaseRef = some (d, mode) → Kept w.lease p d mode) : Sound p w := by
  refine hs.transit (by rw [hbefore]; simp) (hafter.trans hbefore.symm) hprocess ?_ hlease ?_
    (hs.intent_mine hmine)
  · exact fun d mode h => absurd ((hs.raising_file hbefore).1.symm.trans h) (by simp)
  · intro d href
    rw [hintent]
    exact hs.threadIntent t d (hmine.trans (hkept.symm.trans href))

theorem raising_granted (hs : Sound p v) {serial : Nat} {intent : Description P}
    (hpc : v.process.pc t = .raising intent) {L : Flock (Description P)}
    (htake : v.lease.take ⟨p, serial, false⟩ .exclusive = some L) :
    Sound p ({ v with lease := L }.moved t (.raised intent ⟨p, serial, false⟩)) := by
  refine hs.raising_step (i := intent) (by rw [hpc]; rfl) rfl (by rw [hpc]; rfl) rfl rfl rfl ?_
  intro d mode href
  obtain ⟨rfl, rfl⟩ : (⟨p, serial, false⟩ : Description P) = d ∧ Mode.exclusive = mode := by
    simpa [Pc.leaseRef] using href
  exact Kept.taken htake

theorem restoring_granted (hs : Sound p v) {serial : Nat} {intent : Description P}
    (hpc : v.process.pc t = .restoring intent) {L : Flock (Description P)}
    (htake : v.lease.take ⟨p, serial, false⟩ .shared = some L) :
    Sound p ({ v with lease := L }.moved t (.restored intent ⟨p, serial, false⟩)) := by
  refine hs.raising_step (i := intent) (by rw [hpc]; rfl) rfl (by rw [hpc]; rfl) rfl rfl rfl ?_
  intro d mode href
  obtain ⟨rfl, rfl⟩ : (⟨p, serial, false⟩ : Description P) = d ∧ Mode.shared = mode := by
    simpa [Pc.leaseRef] using href
  exact Kept.taken htake

theorem raising_without (hs : Sound p v) {a : Pc P} {intent : Description P}
    (hbefore : (v.process.pc t).phase = .raising) (hafter : a.phase = .raising)
    (hmine : (v.process.pc t).intentRef = some intent) (hkept : a.intentRef = some intent)
    (hnone : a.leaseRef = none) : Sound p (v.moved t a) :=
  hs.raising_step hbefore hafter hmine hkept rfl rfl
    fun _ _ h => absurd (hnone.symm.trans h) (by simp)

theorem raised (hs : Sound p v) {intent guard : Description P}
    (hpc : v.process.pc t = .raised intent guard) :
    Sound p ((((v.settle (.held .exclusive guard)).dropIntent intent).enter t .exclusive).moved t
      .out) := by
  refine hs.settled_held (by rw [hpc]; simp [Pc.phase]) rfl (Holders.enter_file .exclusive)
    (hs.threadLease t guard .exclusive (by rw [hpc]; rfl))
    (hs.intent_mine (d := intent) (by rw [hpc]; rfl)) ?_
  have hsettled : Accounted { v.process.holders with file := .held .exclusive guard }
      v.process.holds :=
    hs.accounted.settle fun e _ => by cases e.2 <;> rfl
  exact hsettled.enter (m := .exclusive) t rfl

theorem raising_holds_nil (hs : Sound p v) (hphase : (v.process.pc t).phase = .raising)
    (hnone : ¬ 0 < v.process.holders.readers) : v.process.holds = [] := by
  rw [List.eq_nil_iff_forall_not_mem]
  intro e hmem
  have hshared := (hs.raising_file hphase).2 e.2 (hs.accounted.covers e hmem)
  have hpos := hs.accounted.pos_of_mem hmem
  rw [hshared] at hpos
  exact hnone hpos

theorem unraised_settled (hs : Sound p v) {intent : Description P}
    (hpc : v.process.pc t = .unraised intent) (hnone : ¬ 0 < v.process.holders.readers) :
    Sound p (((v.settle .free).dropIntent intent).moved t .out) := by
  have hnil := hs.raising_holds_nil (t := t) (by rw [hpc]; rfl) hnone
  refine hs.settled_free (by rw [hpc]; simp [Pc.phase]) rfl rfl rfl ?_
    (hs.intent_mine (d := intent) (by rw [hpc]; rfl))
    ⟨hs.accounted.readers, hs.accounted.writers⟩ hnil
  exact fun d h => absurd h (by simp [Pc.intentRef])

theorem restored_kept (hs : Sound p v) {intent guard : Description P}
    (hpc : v.process.pc t = .restored intent guard) :
    Sound p (((v.settle (.held .shared guard)).dropIntent intent).moved t .out) := by
  refine hs.settled_held (by rw [hpc]; simp [Pc.phase]) rfl rfl
    (hs.threadLease t guard .shared (by rw [hpc]; rfl))
    (hs.intent_mine (d := intent) (by rw [hpc]; rfl)) ?_
  refine hs.accounted.settle fun e hmem => ?_
  have hshared := (hs.raising_file (t := t) (by rw [hpc]; rfl)).2 e.2
    (hs.accounted.covers e hmem)
  rw [hshared]
  rfl

theorem restored_left (hs : Sound p v) {intent guard : Description P}
    (hpc : v.process.pc t = .restored intent guard) (hnone : ¬ 0 < v.process.holders.readers) :
    Sound p (((v.dropLease guard).settle .free).moved t (.leaving intent)) := by
  have hnil := hs.raising_holds_nil (t := t) (by rw [hpc]; rfl) hnone
  refine hs.settled_free (by rw [hpc]; simp [Pc.phase]) rfl rfl rfl ?_
    (hs.intent_mine (d := intent) (by rw [hpc]; rfl))
    ⟨hs.accounted.readers, hs.accounted.writers⟩ hnil
  exact fun d href => hs.threadIntent t d (by rw [hpc]; exact href)

theorem leaving (hs : Sound p v) {intent : Description P}
    (hpc : v.process.pc t = .leaving intent) :
    Sound p ((v.dropIntent intent).moved t .out) := by
  refine hs.resting rfl rfl rfl ?_ (by rw [hpc]; rfl) rfl rfl hs.accounted
  have hmine : (v.process.pc t).intentRef = some intent := by rw [hpc]; rfl
  exact fun u hne d href => (hs.intent_mine (a := .out) hmine u hne d href).1

theorem refile (hs : Sound p v) {file : File P}
    (hprocess : w.process =
      { v.process with holders := { v.process.holders with file := file } })
    (hintent : w.intent = v.intent)
    (hfits : ∀ u, file.Allows (v.process.pc u).phase)
    (hnone : ∀ u, (v.process.pc u).leaseRef = none)
    (hfile : ∀ d mode, file.leaseRef = some (d, mode) → Kept w.lease p d mode)
    (hreplaced : file ≠ .upgrading .intended)
    (hcovers : ∀ e ∈ v.process.holds, covered file e.2 = true) : Sound p w where
  fits := by rw [hprocess]; exact hfits
  single := by rw [hprocess]; exact hs.single
  fileLease := by rw [hprocess]; exact hfile
  threadLease := by
    rw [hprocess]
    exact fun u d mode h => absurd ((hnone u).symm.trans h) (by simp)
  threadIntent := by rw [hprocess, hintent]; exact hs.threadIntent
  oneIntent := by rw [hprocess]; exact hs.oneIntent
  replaced := by
    rw [hprocess]
    exact fun h => absurd h hreplaced
  accounted := by rw [hprocess]; exact hs.accounted.settle hcovers

theorem no_lease_of_idle {pc : Pc P} (h : pc.phase = .idle) : pc.leaseRef = none := by
  by_contra hsome
  obtain ⟨r, hr⟩ := Option.ne_none_iff_exists'.mp hsome
  exact Pc.phase_ne_idle_of_leaseRef hr h

theorem no_lease_of_sharing (hs : Sound p v) {shared : Description P}
    (hfile : v.process.holders.file = .upgrading (.sharing shared)) (u : T) :
    (File.upgrading .lapsed : File P).Allows (v.process.pc u).phase ∧
      (v.process.pc u).leaseRef = none := by
  have hfits := hs.fits u
  rw [hfile] at hfits
  cases hpc : v.process.pc u <;>
    simp_all [Pc.phase, File.Allows, Pc.leaseRef]

theorem letGo (hs : Sound p v) (mode : Mode) (shares : Bool) : Sound p (v.letGo mode shares) := by
  unfold View.letGo
  split
  · next hnobody =>
    have hnil := hs.accounted.holds_nil_of_none hnobody
    split
    · next held guard hfile =>
      have hidle := hs.all_idle (by rw [hfile]; intro phase; cases phase <;> simp [File.Allows])
      exact hs.refile rfl rfl (fun u => by simp [hidle u]) (fun u => no_lease_of_idle (hidle u))
        (fun d m h => absurd h (by simp [File.leaseRef])) (by simp) (by simp [hnil])
    · next guard hfile =>
      have hsharing := hs.no_lease_of_sharing hfile
      exact hs.refile rfl rfl (fun u => (hsharing u).1) (fun u => (hsharing u).2)
        (fun d m h => absurd h (by simp [File.leaseRef])) (by simp) (by simp [hnil])
    · exact hs
  · split
    · next hlast =>
      split
      · next guard hfile =>
        split
        · have hidle := hs.all_idle
            (by rw [hfile]; intro phase; cases phase <;> simp [File.Allows])
          have hguard := hs.fileLease guard .exclusive (by rw [hfile]; rfl)
          refine hs.refile rfl rfl (fun u => by simp [hidle u])
            (fun u => no_lease_of_idle (hidle u)) ?_ (by simp) ?_
          · intro d m h
            obtain ⟨rfl, rfl⟩ : guard = d ∧ Mode.shared = m := by
              simpa [File.leaseRef] using h
            exact ⟨Flock.share_holds_iff.mpr (Or.inr ⟨rfl, rfl, _, hguard.holds⟩),
              hguard.owner, hguard.inUse⟩
          · intro e hmem
            rw [hs.accounted.all_shared hlast.2 e hmem]
            rfl
        · exact hs
      · exact hs
    · exact hs

theorem left (hs : Sound p v) {mode : Mode} (hpc : v.process.pc t = .out)
    (hmem : (t, mode) ∈ v.process.holds) :
    Sound p { v with process := { v.process with
      holders := v.process.holders.leave mode, holds := v.process.holds.erase (t, mode) } } := by
  refine hs.resting (a := .out) (t := t) ?_ (Holders.leave_file mode) rfl
    (fun u _ d h => hs.threadIntent u d h) (by rw [hpc]; rfl) rfl rfl (hs.accounted.leave hmem)
  rw [← hpc, Function.update_eq_self]

theorem drop (hs : Sound p v) {mode : Mode} {shares : Bool}
    (hdrop : v.drop t mode shares = some w) : Sound p w := by
  unfold View.drop at hdrop
  split at hdrop
  · next hlive =>
    obtain rfl := Option.some.inj hdrop
    exact (hs.left hlive.1 hlive.2).letGo mode shares
  · exact absurd hdrop (by simp)

theorem strayLease (hs : Sound p v) {serial : Nat} {mode : Mode}
    (hstep : v.takeLease ⟨p, serial, true⟩ mode = some w) : Sound p w := by
  obtain ⟨L, htake, rfl⟩ := Option.map_eq_some_iff.mp hstep
  exact hs.frame rfl (fun d m h => h.take htake) (fun d m h => h)

theorem strayIntent (hs : Sound p v) {serial : Nat} {mode : Mode}
    (hstep : v.takeIntent ⟨p, serial, true⟩ mode = some w) : Sound p w := by
  obtain ⟨L, htake, rfl⟩ := Option.map_eq_some_iff.mp hstep
  exact hs.frame rfl (fun d m h => h) (fun d m h => h.take htake)

theorem strayLeaseClosed (hs : Sound p v) (serial : Nat) :
    Sound p (v.dropLease ⟨p, serial, true⟩) :=
  hs.frame rfl (fun _ _ h => h.drop h.ne_stray) (fun _ _ h => h)

theorem strayIntentClosed (hs : Sound p v) (serial : Nat) :
    Sound p (v.dropIntent ⟨p, serial, true⟩) :=
  hs.frame rfl (fun _ _ h => h) (fun _ _ h => h.drop h.ne_stray)

theorem go (hs : Sound p v) (hgo : v.go t = some w) : Sound p w := by
  unfold View.go at hgo
  cases hpc : v.process.pc t with
  | taking mode =>
    simp only [hpc] at hgo
    exact hs.take hpc hgo
  | cleared guard intent =>
    simp only [hpc, Option.some.injEq] at hgo
    exact hgo ▸ hs.cleared hpc
  | yielding guard =>
    simp only [hpc, Option.some.injEq] at hgo
    exact hgo ▸ hs.yielding hpc
  | queued intent =>
    simp only [hpc, Option.some.injEq] at hgo
    exact hgo ▸ hs.queued hpc
  | leased mode guard =>
    simp only [hpc, Option.some.injEq] at hgo
    exact hgo ▸ hs.leased hpc
  | unleased =>
    simp only [hpc, Option.some.injEq] at hgo
    exact hgo ▸ hs.unleased hpc
  | intended intent =>
    simp only [hpc] at hgo
    split at hgo
    · next shared hfile =>
      exact Option.some.inj hgo ▸ hs.intended_sharing hpc hfile
    · next hfile => exact Option.some.inj hgo ▸ hs.intended_lapsed hpc hfile
    · exact absurd hgo (by simp)
  | unintended =>
    simp only [hpc] at hgo
    split at hgo
    · next shared hfile =>
      exact Option.some.inj hgo ▸ hs.unintended_sharing hpc hfile
    · next hfile => exact Option.some.inj hgo ▸ hs.unintended_lapsed hpc hfile
    · exact absurd hgo (by simp)
  | raised intent guard =>
    simp only [hpc, Option.some.injEq] at hgo
    exact hgo ▸ hs.raised hpc
  | unraised intent =>
    simp only [hpc] at hgo
    split at hgo
    · exact Option.some.inj hgo ▸
        hs.raising_without (by rw [hpc]; rfl) rfl (by rw [hpc]; rfl) rfl rfl
    · next hnone => exact Option.some.inj hgo ▸ hs.unraised_settled hpc hnone
  | restored intent guard =>
    simp only [hpc] at hgo
    split at hgo
    · exact Option.some.inj hgo ▸ hs.restored_kept hpc
    · next hnone => exact Option.some.inj hgo ▸ hs.restored_left hpc hnone
  | unrestored intent =>
    -- no file allows a thread to have been refused its restoring take
    have hfits := hs.fits t
    rw [hpc] at hfits
    cases hf : v.process.holders.file with
    | upgrading u => cases u <;> simp [hf, Pc.phase, File.Allows] at hfits
    | _ => simp [hf, Pc.phase, File.Allows] at hfits
  | leaving intent =>
    simp only [hpc, Option.some.injEq] at hgo
    exact hgo ▸ hs.leaving hpc
  | _ => simp [hpc] at hgo

theorem granted (hs : Sound p v) {serial : Nat}
    (hgranted : v.granted t ⟨p, serial, false⟩ = some w) : Sound p w := by
  unfold View.granted View.takeLease View.takeIntent at hgranted
  simp only [Option.map_map] at hgranted
  cases hpc : v.process.pc t with
  | leasing mode =>
    cases mode with
    | exclusive =>
      simp only [hpc] at hgranted
      obtain ⟨L, htake, rfl⟩ := Option.map_eq_some_iff.mp hgranted
      exact hs.leasing_exclusive_granted hpc htake
    | shared =>
      simp only [hpc] at hgranted
      obtain ⟨L, htake, rfl⟩ := Option.map_eq_some_iff.mp hgranted
      exact hs.leasing_shared_granted hpc htake
  | checking guard =>
    simp only [hpc] at hgranted
    obtain ⟨L, htake, rfl⟩ := Option.map_eq_some_iff.mp hgranted
    exact hs.checking_granted hpc htake
  | queueing =>
    simp only [hpc] at hgranted
    obtain ⟨L, htake, rfl⟩ := Option.map_eq_some_iff.mp hgranted
    exact hs.queueing_granted hpc htake
  | intending =>
    simp only [hpc] at hgranted
    obtain ⟨L, htake, rfl⟩ := Option.map_eq_some_iff.mp hgranted
    exact hs.intending_granted hpc htake
  | raising intent =>
    simp only [hpc] at hgranted
    obtain ⟨L, htake, rfl⟩ := Option.map_eq_some_iff.mp hgranted
    exact hs.raising_granted hpc htake
  | restoring intent =>
    simp only [hpc] at hgranted
    obtain ⟨L, htake, rfl⟩ := Option.map_eq_some_iff.mp hgranted
    exact hs.restoring_granted hpc htake
  | _ => simp [hpc] at hgranted

theorem busy (hs : Sound p v) (hbusy : v.busy t = some w) : Sound p w := by
  unfold View.busy at hbusy
  cases hpc : v.process.pc t with
  | checking guard =>
    simp only [hpc] at hbusy
    split at hbusy
    · exact absurd hbusy (by simp)
    · exact Option.some.inj hbusy ▸ hs.checking_busy hpc
  | _ => simp [hpc] at hbusy

theorem refused (hs : Sound p v) (hrefused : v.refused t = some w)
    (hrestores : (v.process.pc t).isRestoring = false) : Sound p w := by
  unfold View.refused at hrefused
  cases hpc : v.process.pc t with
  | leasing mode =>
    simp only [hpc, Option.some.injEq] at hrefused
    exact hrefused ▸ hs.acquiring_refused (by rw [hpc]; rfl) rfl rfl
  | checking guard =>
    simp only [hpc, Option.some.injEq] at hrefused
    exact hrefused ▸ hs.acquiring_refused (by rw [hpc]; rfl) rfl rfl
  | queueing =>
    simp only [hpc, Option.some.injEq] at hrefused
    exact hrefused ▸ hs.acquiring_refused (by rw [hpc]; rfl) rfl rfl
  | intending =>
    simp only [hpc, Option.some.injEq] at hrefused
    exact hrefused ▸ hs.intending_refused hpc
  | raising intent =>
    simp only [hpc, Option.some.injEq] at hrefused
    exact hrefused ▸ hs.raising_without (by rw [hpc]; rfl) rfl (by rw [hpc]; rfl) rfl rfl
  | restoring intent => exact absurd hrestores (by rw [hpc]; simp [Pc.isRestoring])
  | _ => simp [hpc] at hrefused

theorem step (hs : Sound p v) {act : Act} (hstep : v.step p t act = some w)
    (hrestores : act = .refused → (v.process.pc t).isRestoring = false) : Sound p w := by
  cases act with
  | call mode =>
    simp only [View.step, Option.ite_none_right_eq_some, Option.some.injEq] at hstep
    exact hstep.2 ▸ hs.call hstep.1 mode
  | go => exact hs.go hstep
  | granted serial => exact hs.granted hstep
  | busy => exact hs.busy hstep
  | refused => exact hs.refused hstep (hrestores rfl)
  | drop mode shares => exact hs.drop hstep
  | strayGranted lock mode serial =>
    cases lock with
    | lease => exact hs.strayLease hstep
    | intent => exact hs.strayIntent hstep
  | strayClosed lock serial =>
    cases lock with
    | lease => exact Option.some.inj hstep ▸ hs.strayLeaseClosed serial
    | intent => exact Option.some.inj hstep ▸ hs.strayIntentClosed serial

end Sound

end Onevcs.CheckoutReads
