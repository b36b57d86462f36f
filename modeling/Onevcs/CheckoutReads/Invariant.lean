import Mathlib.Data.List.Count
import Onevcs.CheckoutReads.Model

/-!
# What one process's turns keep

The invariant of one process ties its in-memory `File` to the kernel's lock files:
the description a file or a thread refers to really is held there, in the mode the
reference says; a file in transition has one thread moving it, standing in the phase
the file names; and every live `Hold` is covered by the file.

Each step of a process keeps its own invariant, provided a restoring take is not
refused. A restoring take that is refused leaves the file free with readers inside,
which is the one branch of the code the invariant excludes.
-/

namespace Onevcs.CheckoutReads

open Foundations

/-- Which transition of its process's file a thread is carrying out. A thread whose
restoring take was refused is in the phase no file allows. -/
inductive Phase
  | idle
  | acquiring
  | intending
  | raising
  | unrestored
  deriving DecidableEq

section References

variable {P : Type*}

def Pc.phase : Pc P → Phase
  | .out | .taking _ | .leaving _ => .idle
  | .leasing _ | .checking _ | .cleared _ _ | .yielding _ | .queueing | .queued _ => .acquiring
  | .leased _ _ | .unleased => .acquiring
  | .intending | .intended _ | .unintended => .intending
  | .raising _ | .raised _ _ | .unraised _ => .raising
  | .restoring _ | .restored _ _ => .raising
  | .unrestored _ => .unrestored

/-- The phases a thread may be in while the file stands there. -/
def File.Allows : File P → Phase → Prop
  | _, .idle => True
  | .acquiring, .acquiring => True
  | .upgrading (.sharing _), .intending => True
  | .upgrading .lapsed, .intending => True
  | .upgrading .lapsed, .raising => True
  | .upgrading .intended, .raising => True
  | _, _ => False

/-- The description of the lease file a file owns, and its mode. -/
def File.leaseRef : File P → Option (Description P × Mode)
  | .held mode guard => some (guard, mode)
  | .upgrading (.sharing guard) => some (guard, .shared)
  | _ => none

/-- The description of the lease file a thread has in hand, and its mode. -/
def Pc.leaseRef : Pc P → Option (Description P × Mode)
  | .checking guard | .cleared guard _ | .yielding guard => some (guard, .exclusive)
  | .leased mode guard => some (guard, mode)
  | .raised _ guard => some (guard, .exclusive)
  | .restored _ guard => some (guard, .shared)
  | _ => none

/-- The description of the intent file a thread has in hand. -/
def Pc.intentRef : Pc P → Option (Description P)
  | .cleared _ intent | .queued intent | .intended intent => some intent
  | .raising intent | .raised intent _ | .unraised intent => some intent
  | .restoring intent | .restored intent _ | .unrestored intent => some intent
  | .leaving intent => some intent
  | _ => none

/-- The thread has the lease exclusively and has seen the intent free since. -/
def Pc.confirmed : Pc P → Bool
  | .cleared _ _ | .leased .exclusive _ | .raised _ _ => true
  | _ => false

/-- A description of process `p` that is still in use holds the lock in `mode`. -/
structure Kept (L : Flock (Description P)) (p : P) (d : Description P) (mode : Mode) : Prop where
  holds : L.Holds d mode
  owner : d.owner = p
  inUse : d.abandoned = false

@[simp] theorem File.allows_idle (file : File P) : file.Allows .idle := by
  cases file <;> trivial

theorem Pc.phase_ne_idle_of_leaseRef {pc : Pc P} {r : Description P × Mode}
    (h : pc.leaseRef = some r) : pc.phase ≠ .idle := by
  cases pc <;> simp_all [Pc.leaseRef, Pc.phase]

theorem Pc.intentRef_of_raising {pc : Pc P} (h : pc.phase = .raising) :
    ∃ d, pc.intentRef = some d := by
  cases pc <;> simp_all [Pc.intentRef, Pc.phase]

theorem Pc.leaseRef_of_confirmed {pc : Pc P} (h : pc.confirmed = true) :
    ∃ d, pc.leaseRef = some (d, .exclusive) := by
  cases pc with
  | leased mode guard => cases mode <;> simp_all [Pc.confirmed, Pc.leaseRef]
  | _ => simp_all [Pc.confirmed, Pc.leaseRef]

end References

section Invariant

variable {P T : Type*}

/-- The counts of a process are those of its live holds. -/
structure Counted (h : Holders P) (holds : List (T × Mode)) : Prop where
  readers : h.readers = holds.countP fun e => decide (e.2 = .shared)
  writers : h.writers = holds.countP fun e => decide (e.2 = .exclusive)

/-- The counts are right, and the file covers every live hold. -/
structure Accounted (h : Holders P) (holds : List (T × Mode)) : Prop extends Counted h holds where
  covers : ∀ e ∈ holds, covered h.file e.2 = true

/-- The invariant of one process. -/
structure Sound (p : P) (v : View P T) : Prop where
  fits : ∀ t, v.process.holders.file.Allows (v.process.pc t).phase
  single : ∀ t u, (v.process.pc t).phase ≠ .idle → (v.process.pc u).phase ≠ .idle → t = u
  fileLease : ∀ d mode, v.process.holders.file.leaseRef = some (d, mode) → Kept v.lease p d mode
  threadLease : ∀ t d mode, (v.process.pc t).leaseRef = some (d, mode) → Kept v.lease p d mode
  threadIntent : ∀ t d, (v.process.pc t).intentRef = some d → Kept v.intent p d .exclusive
  oneIntent : ∀ t u d e,
    (v.process.pc t).intentRef = some d → (v.process.pc u).intentRef = some e → t = u
  replaced : v.process.holders.file = .upgrading .intended →
    ∃ t, (v.process.pc t).phase = .raising
  accounted : Accounted v.process.holders v.process.holds

/-- The file is in the hands of a teardown that has seen the intent free. -/
def Confirmed (process : Process P T) : Prop :=
  (∃ d, process.holders.file = .held .exclusive d) ∨ ∃ t, (process.pc t).confirmed = true

section Counting

variable {h : Holders P} {holds : List (T × Mode)}

@[simp] theorem Holders.enter_file (mode : Mode) : (h.enter mode).file = h.file := by
  cases mode <;> rfl

theorem Counted.enter (hc : Counted h holds) (t : T) (mode : Mode) :
    Counted (h.enter mode) ((t, mode) :: holds) := by
  cases mode <;> constructor <;> simp [Holders.enter, hc.readers, hc.writers]

@[simp] theorem Holders.leave_file (mode : Mode) : (h.leave mode).file = h.file := by
  cases mode <;> rfl

theorem Counted.leave [DecidableEq T] (hc : Counted h holds) {t : T} {mode : Mode}
    (hmem : (t, mode) ∈ holds) : Counted (h.leave mode) (holds.erase (t, mode)) := by
  cases mode <;> constructor <;>
    simp [Holders.leave, List.countP_erase, hmem, hc.readers, hc.writers]

theorem Accounted.leave [DecidableEq T] (ha : Accounted h holds) {t : T} {mode : Mode}
    (hmem : (t, mode) ∈ holds) : Accounted (h.leave mode) (holds.erase (t, mode)) where
  toCounted := ha.toCounted.leave hmem
  covers := by
    intro e he
    rw [Holders.leave_file]
    exact ha.covers e (List.mem_of_mem_erase he)

theorem Accounted.enter (ha : Accounted h holds) (t : T) {m : Mode}
    (hcovered : covered h.file m = true) :
    Accounted (h.enter m) ((t, m) :: holds) where
  toCounted := ha.toCounted.enter t m
  covers := by
    intro e hmem
    rw [Holders.enter_file]
    rcases List.mem_cons.mp hmem with rfl | hin
    · exact hcovered
    · exact ha.covers e hin

theorem Counted.pos_of_mem (hc : Counted h holds) {e : T × Mode} (hmem : e ∈ holds) :
    match e.2 with
    | .shared => 0 < h.readers
    | .exclusive => 0 < h.writers := by
  obtain ⟨t, mode⟩ := e
  cases mode with
  | shared =>
    rw [hc.readers]
    exact List.countP_pos_iff.mpr ⟨(t, .shared), hmem, by simp⟩
  | exclusive =>
    rw [hc.writers]
    exact List.countP_pos_iff.mpr ⟨(t, .exclusive), hmem, by simp⟩

theorem Counted.holds_nil_of_none (hc : Counted h holds) (hnone : h.readers + h.writers = 0) :
    holds = [] := by
  rw [List.eq_nil_iff_forall_not_mem]
  rintro ⟨t, mode⟩ hmem
  have hpos := hc.pos_of_mem hmem
  cases mode <;> simp only at hpos <;> omega

theorem Counted.all_shared (hc : Counted h holds) (hnone : h.writers = 0) :
    ∀ e ∈ holds, e.2 = .shared := by
  rintro ⟨t, mode⟩ hmem
  have hpos := hc.pos_of_mem hmem
  cases mode with
  | shared => rfl
  | exclusive =>
    simp only at hpos
    omega

/-- An upgrade that was granted the intent covers its readers, and no writer. -/
example : covered (.upgrading .intended : File ℕ) .shared = true ∧
    covered (.upgrading .intended : File ℕ) .exclusive = false := by decide +kernel

theorem Accounted.holds_nil (ha : Accounted h holds)
    (hnot : ∀ mode, covered h.file mode = false) : holds = [] := by
  rw [List.eq_nil_iff_forall_not_mem]
  intro e hmem
  have hcovers := ha.covers e hmem
  rw [hnot e.2] at hcovers
  exact Bool.noConfusion hcovers

theorem Accounted.settle (ha : Accounted h holds) {file : File P}
    (hcovers : ∀ e ∈ holds, covered file e.2 = true) :
    Accounted { h with file := file } holds :=
  ⟨⟨ha.readers, ha.writers⟩, hcovers⟩

end Counting

namespace Sound

variable {p : P} {v w : View P T} {t : T}

theorem others_idle (hs : Sound p v) (hbusy : (v.process.pc t).phase ≠ .idle) :
    ∀ u ≠ t, (v.process.pc u).phase = .idle := by
  intro u hne
  by_contra hidle
  exact hne (hs.single u t hidle hbusy)

theorem all_idle (hs : Sound p v)
    (hsettled : ∀ phase, v.process.holders.file.Allows phase → phase = .idle) :
    ∀ u, (v.process.pc u).phase = .idle :=
  fun u => hsettled _ (hs.fits u)

theorem others_without_intent (hs : Sound p v) {d : Description P}
    (hmine : (v.process.pc t).intentRef = some d) :
    ∀ u ≠ t, (v.process.pc u).intentRef = none := by
  intro u hne
  by_contra hsome
  obtain ⟨e, he⟩ := Option.ne_none_iff_exists'.mp hsome
  exact hne (hs.oneIntent u t e d he hmine)

theorem no_intent_of_grants (hs : Sound p v) (hfree : v.intent.Grants .exclusive) (u : T) :
    (v.process.pc u).intentRef = none := by
  by_contra hsome
  obtain ⟨e, he⟩ := Option.ne_none_iff_exists'.mp hsome
  exact hfree.not_holds (hs.threadIntent u e he).holds

section Update

variable [DecidableEq T]

/-- The invariant after a step that moves thread `t` to `a` while every sibling is idle:
what is left to check is what `t` and the file refer to now. -/
theorem moving (hs : Sound p v) {a : Pc P}
    (hpc : w.process.pc = Function.update v.process.pc t a)
    (hidle : ∀ u ≠ t, (v.process.pc u).phase = .idle)
    (hfits : w.process.holders.file.Allows a.phase)
    (hfile : ∀ d mode, w.process.holders.file.leaseRef = some (d, mode) → Kept w.lease p d mode)
    (hlease : ∀ d mode, a.leaseRef = some (d, mode) → Kept w.lease p d mode)
    (hintent : ∀ d, a.intentRef = some d → Kept w.intent p d .exclusive)
    (hothers : ∀ u ≠ t, ∀ d, (v.process.pc u).intentRef = some d →
      Kept w.intent p d .exclusive ∧ a.intentRef = none)
    (hreplaced : w.process.holders.file = .upgrading .intended → a.phase = .raising)
    (haccounted : Accounted w.process.holders w.process.holds) : Sound p w where
  fits := by
    rw [hpc, Function.forall_update_iff v.process.pc
      fun _ pc => w.process.holders.file.Allows pc.phase]
    exact ⟨hfits, fun u hne => by simp [hidle u hne]⟩
  single := by
    have honly : ∀ u, (w.process.pc u).phase ≠ .idle → u = t := by
      intro u hbusy
      by_contra hne
      rw [hpc, Function.update_of_ne hne] at hbusy
      exact hbusy (hidle u hne)
    intro u u' hu hu'
    rw [honly u hu, honly u' hu']
  fileLease := hfile
  threadLease := by
    intro u d mode href
    rw [hpc] at href
    by_cases hne : u = t
    · subst hne
      exact hlease d mode (by simpa using href)
    · rw [Function.update_of_ne hne] at href
      exact absurd (hidle u hne) (Pc.phase_ne_idle_of_leaseRef href)
  threadIntent := by
    intro u d href
    rw [hpc] at href
    by_cases hne : u = t
    · subst hne
      exact hintent d (by simpa using href)
    · rw [Function.update_of_ne hne] at href
      exact (hothers u hne d href).1
  oneIntent := by
    intro u u' d e hd he
    rw [hpc] at hd he
    by_cases hu : u = t <;> by_cases hu' : u' = t
    · rw [hu, hu']
    · rw [Function.update_of_ne hu'] at he
      rw [hu, Function.update_self, (hothers u' hu' e he).2] at hd
      exact absurd hd (by simp)
    · rw [Function.update_of_ne hu] at hd
      rw [hu', Function.update_self, (hothers u hu d hd).2] at he
      exact absurd he (by simp)
    · rw [Function.update_of_ne hu] at hd
      rw [Function.update_of_ne hu'] at he
      exact hs.oneIntent u u' d e hd he
  replaced := fun hfile' => ⟨t, by rw [hpc, Function.update_self]; exact hreplaced hfile'⟩
  accounted := haccounted

/-- A thread that changes only where it rests, the file standing, keeps the invariant. -/
theorem resting (hs : Sound p v) {a : Pc P}
    (hpc : w.process.pc = Function.update v.process.pc t a)
    (hfile : w.process.holders.file = v.process.holders.file)
    (hlease : w.lease = v.lease)
    (hintent : ∀ u ≠ t, ∀ d, (v.process.pc u).intentRef = some d → Kept w.intent p d .exclusive)
    (hbefore : (v.process.pc t).phase = .idle)
    (hidle : a.phase = .idle) (hnone : a.intentRef = none)
    (haccounted : Accounted w.process.holders w.process.holds) : Sound p w where
  fits := by
    rw [hpc, hfile, Function.forall_update_iff v.process.pc
      fun _ pc => v.process.holders.file.Allows pc.phase]
    exact ⟨by simp [hidle], fun u _ => hs.fits u⟩
  single := by
    have hback : ∀ u, (w.process.pc u).phase ≠ .idle → (v.process.pc u).phase ≠ .idle := by
      intro u hbusy
      rw [hpc] at hbusy
      by_cases hne : u = t
      · subst hne
        rw [Function.update_self] at hbusy
        exact absurd hidle hbusy
      · rwa [Function.update_of_ne hne] at hbusy
    exact fun u u' hu hu' => hs.single u u' (hback u hu) (hback u' hu')
  fileLease := by
    rw [hfile, hlease]
    exact hs.fileLease
  threadLease := by
    intro u d mode href
    rw [hpc] at href
    by_cases hne : u = t
    · subst hne
      rw [Function.update_self] at href
      exact absurd hidle (Pc.phase_ne_idle_of_leaseRef href)
    · rw [Function.update_of_ne hne] at href
      rw [hlease]
      exact hs.threadLease u d mode href
  threadIntent := by
    intro u d href
    rw [hpc] at href
    by_cases hne : u = t
    · subst hne
      rw [Function.update_self, hnone] at href
      exact absurd href (by simp)
    · rw [Function.update_of_ne hne] at href
      exact hintent u hne d href
  oneIntent := by
    have hback : ∀ u d, (w.process.pc u).intentRef = some d →
        (v.process.pc u).intentRef = some d := by
      intro u d href
      rw [hpc] at href
      by_cases hne : u = t
      · subst hne
        rw [Function.update_self, hnone] at href
        exact absurd href (by simp)
      · rwa [Function.update_of_ne hne] at href
    exact fun u u' d e hd he => hs.oneIntent u u' d e (hback u d hd) (hback u' e he)
  replaced := by
    intro hreplaced
    rw [hfile] at hreplaced
    obtain ⟨u, hu⟩ := hs.replaced hreplaced
    have hne : u ≠ t := by
      rintro rfl
      exact absurd (hbefore.symm.trans hu) (by simp)
    exact ⟨u, by rwa [hpc, Function.update_of_ne hne]⟩
  accounted := haccounted

end Update

theorem intent_untouched (hs : Sound p v) {a : Pc P} (hintent : w.intent = v.intent)
    (hnone : a.intentRef = none) :
    ∀ u ≠ t, ∀ d, (v.process.pc u).intentRef = some d →
      Kept w.intent p d .exclusive ∧ a.intentRef = none := by
  intro u _ d href
  rw [hintent]
  exact ⟨hs.threadIntent u d href, hnone⟩

theorem intent_mine (hs : Sound p v) {a : Pc P} {d : Description P}
    (hmine : (v.process.pc t).intentRef = some d) :
    ∀ u ≠ t, ∀ e, (v.process.pc u).intentRef = some e →
      Kept w.intent p e .exclusive ∧ a.intentRef = none := by
  intro u hne e href
  rw [hs.others_without_intent hmine u hne] at href
  exact absurd href (by simp)

/-- A change of the locks that keeps what this process's descriptions hold keeps the
invariant. -/
theorem frame (hs : Sound p v) (hprocess : w.process = v.process)
    (hlease : ∀ d mode, Kept v.lease p d mode → Kept w.lease p d mode)
    (hintent : ∀ d mode, Kept v.intent p d mode → Kept w.intent p d mode) : Sound p w where
  fits := by simpa only [hprocess] using hs.fits
  single := by simpa only [hprocess] using hs.single
  fileLease := by
    rw [hprocess]
    exact fun d mode h => hlease d mode (hs.fileLease d mode h)
  threadLease := by
    rw [hprocess]
    exact fun t d mode h => hlease d mode (hs.threadLease t d mode h)
  threadIntent := by
    rw [hprocess]
    exact fun t d h => hintent d _ (hs.threadIntent t d h)
  oneIntent := by simpa only [hprocess] using hs.oneIntent
  replaced := by simpa only [hprocess] using hs.replaced
  accounted := by simpa only [hprocess] using hs.accounted

end Sound

end Invariant

end Onevcs.CheckoutReads
