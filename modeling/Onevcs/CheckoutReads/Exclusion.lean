import Onevcs.CheckoutReads.Steps

/-!
# Checkout readers and teardowns exclude each other

What a step of one process shows to the others: it changes only what its own
descriptions hold; it confirms a teardown only while it has the intent, or had
confirmed it before; and it stands on its intent only by giving up a shared hold it
had. So while one process has a confirmed teardown, no other stands on its intent
alone, and every hold elsewhere would be one the kernel refuses beside the exclusive
lease.
-/

set_option linter.unusedSectionVars false

namespace Onevcs.CheckoutReads

open Foundations

variable {P T : Type*} [DecidableEq P]

/-- What a step of process `p` may do to a lock file. -/
inductive Touches (p : P) (L L' : Flock (Description P)) : Prop
  | same (h : L' = L)
  | took {d : Description P} {mode : Mode} (h : L.take d mode = some L')
  | dropped {d : Description P} (howner : d.owner = p) (h : L' = L.drop d)
  | shared {d : Description P} (howner : d.owner = p) (h : L' = L.share d)

theorem Touches.frame {p q : P} {L L' : Flock (Description P)} (ht : Touches p L L')
    (hne : q ≠ p) {d : Description P} {mode : Mode} (h : Kept L q d mode) : Kept L' q d mode := by
  have hother : ∀ e : Description P, e.owner = p → d ≠ e := by
    rintro e howner rfl
    exact hne (h.owner.symm.trans howner)
  cases ht with
  | same hsame => exact hsame ▸ h
  | took htake => exact h.take htake
  | dropped howner hdrop => exact hdrop ▸ h.drop (hother _ howner)
  | shared howner hshare =>
    subst hshare
    exact ⟨(Flock.share_holds_of_ne (hother _ howner)).mpr h.holds, h.owner, h.inUse⟩

/-- What a step of process `p` shows to the others. -/
structure Outward (p : P) (v w : View P T) : Prop where
  lease : Touches p v.lease w.lease
  intent : Touches p v.intent w.intent
  confirmed : Confirmed w.process → Confirmed v.process ∨ ∃ d, Kept w.intent p d .exclusive
  intended : w.process.holders.file = .upgrading .intended →
    v.process.holders.file = .upgrading .intended ∨ ∃ d, Kept v.lease p d .shared

namespace Outward

variable [DecidableEq T] {p : P} {v w : View P T} {t : T}

theorem moved {a : Pc P} (hpc : w.process.pc = Function.update v.process.pc t a)
    (hlease : Touches p v.lease w.lease) (hintent : Touches p v.intent w.intent)
    (hthread : a.confirmed = true → Confirmed v.process ∨ ∃ d, Kept w.intent p d .exclusive)
    (hfile : ∀ d, w.process.holders.file = .held .exclusive d → Confirmed v.process)
    (hintended : w.process.holders.file = .upgrading .intended →
      v.process.holders.file = .upgrading .intended ∨ ∃ d, Kept v.lease p d .shared) :
    Outward p v w where
  lease := hlease
  intent := hintent
  confirmed := by
    rintro (⟨d, hd⟩ | ⟨u, hu⟩)
    · exact Or.inl (hfile d hd)
    · rw [hpc] at hu
      by_cases hne : u = t
      · subst hne
        rw [Function.update_self] at hu
        exact hthread hu
      · rw [Function.update_of_ne hne] at hu
        exact Or.inl (Or.inr ⟨u, hu⟩)
  intended := hintended

theorem standing {a : Pc P} (hpc : w.process.pc = Function.update v.process.pc t a)
    (hfile : w.process.holders.file = v.process.holders.file)
    (hlease : Touches p v.lease w.lease) (hintent : Touches p v.intent w.intent)
    (hthread : a.confirmed = true → Confirmed v.process ∨ ∃ d, Kept w.intent p d .exclusive) :
    Outward p v w :=
  moved hpc hlease hintent hthread (fun d h => Or.inl ⟨d, hfile.symm.trans h⟩)
    fun h => Or.inl (hfile.symm.trans h)

theorem settling {a : Pc P} (hpc : w.process.pc = Function.update v.process.pc t a)
    (hlease : Touches p v.lease w.lease) (hintent : Touches p v.intent w.intent)
    (hthread : a.confirmed = false)
    (hheld : ∀ d, w.process.holders.file ≠ .held .exclusive d)
    (hintended : w.process.holders.file ≠ .upgrading .intended) : Outward p v w :=
  moved hpc hlease hintent (fun h => absurd (hthread.symm.trans h) (by simp))
    (fun d h => absurd h (hheld d)) fun h => absurd h hintended

theorem take {mode : Mode} (htake : v.take t mode = some w) : Outward p v w := by
  unfold View.take at htake
  split at htake
  · obtain rfl := Option.some.inj htake
    exact standing rfl (Holders.enter_file mode) (.same rfl) (.same rfl) (by simp [Pc.confirmed])
  · split at htake
    · obtain rfl := Option.some.inj htake
      exact settling rfl (.same rfl) (.same rfl) rfl (by simp [View.moved, View.settle])
        (by simp [View.moved, View.settle])
    · obtain rfl := Option.some.inj htake
      exact settling rfl (.same rfl) (.same rfl) rfl (by simp [View.moved, View.settle])
        (by simp [View.moved, View.settle])
    · exact absurd htake (by simp)
    · exact absurd htake (by simp)

theorem handing {d : Description P} (hpc : w.process.pc = Function.update v.process.pc t .out)
    (hlease : Touches p v.lease w.lease) (hintent : Touches p v.intent w.intent)
    (hfile : w.process.holders.file = .held .exclusive d)
    (hbefore : (v.process.pc t).confirmed = true) : Outward p v w :=
  moved hpc hlease hintent (by simp [Pc.confirmed]) (fun _ _ => Or.inr ⟨t, hbefore⟩)
    fun h => absurd (hfile.symm.trans h) (by simp)

theorem go (hs : Sound p v) (hgo : v.go t = some w) : Outward p v w := by
  have hintentOwner : ∀ d, (v.process.pc t).intentRef = some d → d.owner = p :=
    fun d h => (hs.threadIntent t d h).owner
  have hleaseOwner : ∀ d mode, (v.process.pc t).leaseRef = some (d, mode) → d.owner = p :=
    fun d mode h => (hs.threadLease t d mode h).owner
  unfold View.go at hgo
  cases hpc : v.process.pc t with
  | taking mode =>
    simp only [hpc] at hgo
    exact take hgo
  | cleared guard intent =>
    simp only [hpc, Option.some.injEq] at hgo
    subst hgo
    exact standing rfl rfl (.same rfl) (.dropped (hintentOwner _ (by rw [hpc]; rfl)) rfl)
      fun _ => Or.inl (Or.inr ⟨t, by rw [hpc]; rfl⟩)
  | yielding guard =>
    simp only [hpc, Option.some.injEq] at hgo
    subst hgo
    exact standing rfl rfl (.dropped (hleaseOwner _ _ (by rw [hpc]; rfl)) rfl) (.same rfl)
      (by simp [Pc.confirmed])
  | queued intent =>
    simp only [hpc, Option.some.injEq] at hgo
    subst hgo
    exact standing rfl rfl (.same rfl) (.dropped (hintentOwner _ (by rw [hpc]; rfl)) rfl)
      (by simp [Pc.confirmed])
  | leased mode guard =>
    simp only [hpc, Option.some.injEq] at hgo
    subst hgo
    cases mode with
    | exclusive =>
      exact handing (d := guard) rfl (.same rfl) (.same rfl) (Holders.enter_file .exclusive)
        (by rw [hpc]; rfl)
    | shared =>
      exact settling rfl (.same rfl) (.same rfl) rfl (by simp [View.moved, View.settle, View.enter])
        (by simp [View.moved, View.settle, View.enter])
  | unleased =>
    simp only [hpc, Option.some.injEq] at hgo
    subst hgo
    exact settling rfl (.same rfl) (.same rfl) rfl (by simp [View.moved, View.settle])
      (by simp [View.moved, View.settle])
  | intended intent =>
    simp only [hpc] at hgo
    split at hgo
    · next shared hfile =>
      have hshared := hs.fileLease shared .shared (by rw [hfile]; rfl)
      obtain rfl := Option.some.inj hgo
      exact moved rfl (.dropped hshared.owner rfl) (.same rfl) (by simp [Pc.confirmed])
        (fun d h => absurd h (by simp [View.moved, View.settle, View.dropLease]))
        fun _ => Or.inr ⟨shared, hshared⟩
    · obtain rfl := Option.some.inj hgo
      exact standing rfl rfl (.same rfl) (.same rfl) (by simp [Pc.confirmed])
    · exact absurd hgo (by simp)
  | unintended =>
    simp only [hpc] at hgo
    split at hgo
    · obtain rfl := Option.some.inj hgo
      exact settling rfl (.same rfl) (.same rfl) rfl (by simp [View.moved, View.settle])
        (by simp [View.moved, View.settle])
    · obtain rfl := Option.some.inj hgo
      exact settling rfl (.same rfl) (.same rfl) rfl (by simp [View.moved, View.settle])
        (by simp [View.moved, View.settle])
    · exact absurd hgo (by simp)
  | raised intent guard =>
    simp only [hpc, Option.some.injEq] at hgo
    subst hgo
    exact handing (d := guard) rfl (.same rfl) (.dropped (hintentOwner _ (by rw [hpc]; rfl)) rfl)
      (Holders.enter_file .exclusive) (by rw [hpc]; rfl)
  | unraised intent =>
    simp only [hpc] at hgo
    split at hgo
    · obtain rfl := Option.some.inj hgo
      exact standing rfl rfl (.same rfl) (.same rfl) (by simp [Pc.confirmed])
    · obtain rfl := Option.some.inj hgo
      exact settling rfl (.same rfl) (.dropped (hintentOwner _ (by rw [hpc]; rfl)) rfl) rfl
        (by simp [View.moved, View.settle, View.dropIntent])
        (by simp [View.moved, View.settle, View.dropIntent])
  | restored intent guard =>
    simp only [hpc] at hgo
    split at hgo
    · obtain rfl := Option.some.inj hgo
      exact settling rfl (.same rfl) (.dropped (hintentOwner _ (by rw [hpc]; rfl)) rfl) rfl
        (by simp [View.moved, View.settle, View.dropIntent])
        (by simp [View.moved, View.settle, View.dropIntent])
    · obtain rfl := Option.some.inj hgo
      exact settling rfl (.dropped (hleaseOwner _ _ (by rw [hpc]; rfl)) rfl) (.same rfl) rfl
        (by simp [View.moved, View.settle])
        (by simp [View.moved, View.settle])
  | unrestored intent =>
    simp only [hpc, Option.some.injEq] at hgo
    subst hgo
    exact settling rfl (.same rfl) (.dropped (hintentOwner _ (by rw [hpc]; rfl)) rfl) rfl
      (by simp [View.moved, View.settle, View.dropIntent])
      (by simp [View.moved, View.settle, View.dropIntent])
  | leaving intent =>
    simp only [hpc, Option.some.injEq] at hgo
    subst hgo
    exact standing rfl rfl (.same rfl) (.dropped (hintentOwner _ (by rw [hpc]; rfl)) rfl)
      (by simp [Pc.confirmed])
  | _ => simp [hpc] at hgo

theorem granted (hs : Sound p v) {serial : Nat}
    (hgranted : v.granted t ⟨p, serial, false⟩ = some w) : Outward p v w := by
  unfold View.granted View.takeLease View.takeIntent at hgranted
  simp only [Option.map_map] at hgranted
  cases hpc : v.process.pc t with
  | leasing mode =>
    cases mode with
    | exclusive =>
      simp only [hpc] at hgranted
      obtain ⟨L, htake, rfl⟩ := Option.map_eq_some_iff.mp hgranted
      exact standing rfl rfl (.took htake) (.same rfl) (by simp [Pc.confirmed])
    | shared =>
      simp only [hpc] at hgranted
      obtain ⟨L, htake, rfl⟩ := Option.map_eq_some_iff.mp hgranted
      exact standing rfl rfl (.took htake) (.same rfl) (by simp [Pc.confirmed])
  | checking guard =>
    simp only [hpc] at hgranted
    obtain ⟨L, htake, rfl⟩ := Option.map_eq_some_iff.mp hgranted
    exact standing rfl rfl (.same rfl) (.took htake) fun _ => Or.inr ⟨_, Kept.taken htake⟩
  | queueing =>
    simp only [hpc] at hgranted
    obtain ⟨L, htake, rfl⟩ := Option.map_eq_some_iff.mp hgranted
    exact standing rfl rfl (.same rfl) (.took htake) (by simp [Pc.confirmed])
  | intending =>
    simp only [hpc] at hgranted
    obtain ⟨L, htake, rfl⟩ := Option.map_eq_some_iff.mp hgranted
    exact standing rfl rfl (.same rfl) (.took htake) (by simp [Pc.confirmed])
  | raising intent =>
    simp only [hpc] at hgranted
    obtain ⟨L, htake, rfl⟩ := Option.map_eq_some_iff.mp hgranted
    exact standing rfl rfl (.took htake) (.same rfl)
      fun _ => Or.inr ⟨intent, hs.threadIntent t intent (by rw [hpc]; rfl)⟩
  | restoring intent =>
    simp only [hpc] at hgranted
    obtain ⟨L, htake, rfl⟩ := Option.map_eq_some_iff.mp hgranted
    exact standing rfl rfl (.took htake) (.same rfl) (by simp [Pc.confirmed])
  | _ => simp [hpc] at hgranted

theorem busy (hbusy : v.busy t = some w) : Outward p v w := by
  unfold View.busy at hbusy
  split at hbusy
  · split at hbusy
    · exact absurd hbusy (by simp)
    · obtain rfl := Option.some.inj hbusy
      exact standing rfl rfl (.same rfl) (.same rfl) (by simp [Pc.confirmed])
  · exact absurd hbusy (by simp)

theorem refused (hs : Sound p v) (hrefused : v.refused t = some w) : Outward p v w := by
  unfold View.refused at hrefused
  split at hrefused
  case h_2 guard hpc =>
    obtain rfl := Option.some.inj hrefused
    have hguard := hs.threadLease t guard .exclusive (by rw [hpc]; rfl)
    exact standing rfl rfl (.dropped hguard.owner rfl) (.same rfl) (by simp [Pc.confirmed])
  case h_7 => exact absurd hrefused (by simp)
  all_goals
    obtain rfl := Option.some.inj hrefused
    exact standing rfl rfl (.same rfl) (.same rfl) (by simp [Pc.confirmed])

theorem letGo (hs : Sound p v) (hpc : v.process.pc t = .out) (mode : Mode) (shares : Bool) :
    Outward p v (v.letGo mode shares) := by
  have hself : v.process.pc = Function.update v.process.pc t .out := by
    rw [← hpc, Function.update_eq_self]
  have hnothing : Outward p v v :=
    standing hself rfl (.same rfl) (.same rfl) (by simp [Pc.confirmed])
  unfold View.letGo
  split
  · split
    · next m guard hfile =>
      have hguard := hs.fileLease guard m (by rw [hfile]; rfl)
      exact settling hself (.dropped hguard.owner rfl) (.same rfl) rfl
        (by simp [View.settle, View.dropLease]) (by simp [View.settle, View.dropLease])
    · next guard hfile =>
      have hguard := hs.fileLease guard .shared (by rw [hfile]; rfl)
      exact settling hself (.dropped hguard.owner rfl) (.same rfl) rfl
        (by simp [View.settle, View.dropLease]) (by simp [View.settle, View.dropLease])
    · exact hnothing
  · split
    · split
      · next guard hfile =>
        have hguard := hs.fileLease guard .exclusive (by rw [hfile]; rfl)
        split
        · exact settling hself (.shared hguard.owner rfl) (.same rfl) rfl
            (by simp [View.settle]) (by simp [View.settle])
        · exact hnothing
      · exact hnothing
    · exact hnothing

theorem drop (hs : Sound p v) {mode : Mode} {shares : Bool}
    (hdrop : v.drop t mode shares = some w) : Outward p v w := by
  have hafter : Sound p w := hs.drop hdrop
  unfold View.drop at hdrop
  split at hdrop
  · next hlive =>
    obtain rfl := Option.some.inj hdrop
    -- the counting half first: the file and the locks stand
    have hs' := hs.left hlive.1 hlive.2
    have hletGo := letGo hs' hlive.1 mode shares
    refine ⟨hletGo.lease, hletGo.intent, fun h => ?_, fun h => ?_⟩
    · rcases hletGo.confirmed h with (⟨d, hd⟩ | hthread) | hkept
      · exact Or.inl (Or.inl ⟨d, (Holders.leave_file mode).symm.trans hd⟩)
      · exact Or.inl (Or.inr hthread)
      · exact Or.inr hkept
    · rcases hletGo.intended h with hfile | hkept
      · exact Or.inl ((Holders.leave_file mode).symm.trans hfile)
      · exact Or.inr hkept
  · exact absurd hdrop (by simp)

theorem locks (hprocess : w.process = v.process) (hlease : Touches p v.lease w.lease)
    (hintent : Touches p v.intent w.intent) : Outward p v w where
  lease := hlease
  intent := hintent
  confirmed := by
    rw [hprocess]
    exact Or.inl
  intended := by
    rw [hprocess]
    exact Or.inl

theorem step (hs : Sound p v) {act : Act} (hstep : v.step p t act = some w) :
    Outward p v w := by
  cases act with
  | call mode =>
    simp only [View.step, Option.ite_none_right_eq_some, Option.some.injEq] at hstep
    obtain ⟨_, rfl⟩ := hstep
    exact standing rfl rfl (.same rfl) (.same rfl) (by simp [Pc.confirmed])
  | go => exact go hs hstep
  | granted serial => exact granted hs hstep
  | busy => exact busy hstep
  | refused => exact refused hs hstep
  | drop mode shares => exact drop hs hstep
  | strayGranted lock mode serial =>
    cases lock with
    | lease =>
      obtain ⟨L, htake, rfl⟩ := Option.map_eq_some_iff.mp hstep
      exact locks rfl (.took htake) (.same rfl)
    | intent =>
      obtain ⟨L, htake, rfl⟩ := Option.map_eq_some_iff.mp hstep
      exact locks rfl (.same rfl) (.took htake)
  | strayClosed lock serial =>
    cases lock with
    | lease =>
      obtain rfl := Option.some.inj hstep
      exact locks rfl (.dropped rfl rfl) (.same rfl)
    | intent =>
      obtain rfl := Option.some.inj hstep
      exact locks rfl (.same rfl) (.dropped rfl rfl)

end Outward

/-! ## The world's invariant -/

/-- Every process is sound, and beside a confirmed teardown no other process stands on
its intent alone. -/
structure WorldSound (w : World P T) : Prop where
  each : ∀ p, Sound p (w.view p)
  apart : ∀ p q, p ≠ q → Confirmed (w.process p) →
    (w.process q).holders.file ≠ .upgrading .intended

theorem Sound.lease_of_confirmed {p : P} {v : View P T} (hs : Sound p v)
    (hconfirmed : Confirmed v.process) : ∃ d, Kept v.lease p d .exclusive := by
  rcases hconfirmed with ⟨d, hfile⟩ | ⟨t, ht⟩
  · exact ⟨d, hs.fileLease d .exclusive (by rw [hfile]; rfl)⟩
  · obtain ⟨d, hd⟩ := Pc.leaseRef_of_confirmed ht
    exact ⟨d, hs.threadLease t d .exclusive hd⟩

theorem Sound.intent_of_intended {p : P} {v : View P T} (hs : Sound p v)
    (hintended : v.process.holders.file = .upgrading .intended) :
    ∃ d, Kept v.intent p d .exclusive := by
  obtain ⟨t, ht⟩ := hs.replaced hintended
  obtain ⟨d, hd⟩ := Pc.intentRef_of_raising ht
  exact ⟨d, hs.threadIntent t d hd⟩

theorem Kept.same_owner {L : Flock (Description P)} {p q : P} {d e : Description P} {mode : Mode}
    (hd : Kept L p d .exclusive) (he : Kept L q e mode) : p = q := by
  have hsame := (Flock.exclusive_alone hd.holds he.holds).1
  rw [← hd.owner, ← he.owner, hsame]

theorem worldSound_initial [DecidableEq T] : WorldSound (World.initial : World P T) where
  each p :=
    { fits := fun _ => trivial
      single := fun t u ht _ => absurd rfl ht
      fileLease := fun d mode h => absurd h (by simp [World.initial, World.view, File.leaseRef])
      threadLease := fun t d mode h => absurd h (by simp [World.initial, World.view, Pc.leaseRef])
      threadIntent := fun t d h => absurd h (by simp [World.initial, World.view, Pc.intentRef])
      oneIntent := fun t u d e h _ => absurd h (by simp [World.initial, World.view, Pc.intentRef])
      replaced := fun h => absurd h (by simp [World.initial, World.view])
      accounted := ⟨⟨rfl, rfl⟩, fun e h => absurd h (by simp [World.initial, World.view])⟩ }
  apart := fun p q _ _ => by simp [World.initial]

theorem worldSound_step [DecidableEq T] {w w' : World P T} {label : P × T × Act}
    (hw : WorldSound w) (hok : RestoringTakeSucceeds w label) (hstep : w.step label = some w') :
    WorldSound w' := by
  obtain ⟨p, t, act⟩ := label
  obtain ⟨v, hv, rfl⟩ := Option.map_eq_some_iff.mp hstep
  have hsound : Sound p v := (hw.each p).step hv hok
  have hout : Outward p (w.view p) v := .step (hw.each p) hv
  have hself : (w.adopt p v).process p = v.process := Function.update_self ..
  have hother : ∀ q, q ≠ p → (w.adopt p v).process q = w.process q :=
    fun q hne => Function.update_of_ne hne ..
  have heach : ∀ q, Sound q ((w.adopt p v).view q) := by
    intro q
    by_cases hne : q = p
    · subst hne
      exact hsound.frame hself (fun _ _ h => h) (fun _ _ h => h)
    · exact (hw.each q).frame (hother q hne) (fun _ _ h => hout.lease.frame hne h)
        (fun _ _ h => hout.intent.frame hne h)
  refine ⟨heach, fun a b hab hconfirmed hintended => ?_⟩
  by_cases ha : a = p
  · -- the process that stepped is the one confirmed: the other has stood on its intent
    subst ha
    have hb : b ≠ a := fun h => hab h.symm
    rw [hself] at hconfirmed
    rw [hother b hb] at hintended
    rcases hout.confirmed hconfirmed with hbefore | ⟨d, hd⟩
    · exact hw.apart a b hab hbefore hintended
    · obtain ⟨e, he⟩ := (heach b).intent_of_intended (by
        simpa only [World.view, hother b hb] using hintended)
      exact hab (hd.same_owner he)
  · rw [hother a ha] at hconfirmed
    by_cases hb : b = p
    · -- the process that stepped has given up its shared hold under the other's lease
      subst hb
      rw [hself] at hintended
      rcases hout.intended hintended with hbefore | ⟨e, he⟩
      · exact hw.apart a b hab hconfirmed hbefore
      · obtain ⟨d, hd⟩ := (hw.each a).lease_of_confirmed hconfirmed
        exact hab (hd.same_owner he)
    · rw [hother b hb] at hintended
      exact hw.apart a b hab hconfirmed hintended

theorem worldSound_of_reachable [DecidableEq T] {w : World P T}
    (hreach : (turns P T).ReachableBy RestoringTakeSucceeds w) : WorldSound w := by
  refine hreach.invariant ?_ ?_
  · rintro _ rfl
    exact worldSound_initial
  · exact fun _ _ _ hw hok hstep => worldSound_step hw hok hstep

/-- A file that covers a hold either owns a description of the lease, or stands on its
process's intent. -/
theorem lease_or_intent_of_covered {file : File P} {mode : Mode} (h : covered file mode = true) :
    (∃ d m, file.leaseRef = some (d, m)) ∨ file = .upgrading .intended := by
  cases file with
  | held m g => exact Or.inl ⟨g, m, rfl⟩
  | upgrading u =>
    cases u with
    | sharing s => exact Or.inl ⟨s, .shared, rfl⟩
    | intended => exact Or.inr rfl
    | lapsed => simp [covered] at h
  | free => simp [covered] at h
  | acquiring => simp [covered] at h

theorem held_exclusive_of_covered {file : File P} (h : covered file .exclusive = true) :
    ∃ d, file = .held .exclusive d := by
  cases file with
  | held m g =>
    cases m with
    | exclusive => exact ⟨g, rfl⟩
    | shared => simp [covered] at h
  | upgrading u => cases u <;> simp [covered] at h
  | free => simp [covered] at h
  | acquiring => simp [covered] at h

/-- In every interleaving whose restoring takes succeed, no process has a hold while
another has a teardown's. -/
theorem teardown_excludes_other_processes [DecidableEq T] {w : World P T}
    (hreach : (turns P T).ReachableBy RestoringTakeSucceeds w) {p q : P} (hne : p ≠ q)
    {t u : T} {mode : Mode} (hteardown : (t, .exclusive) ∈ (w.process p).holds) :
    (u, mode) ∉ (w.process q).holds := by
  intro hhold
  have hw := worldSound_of_reachable hreach
  have hconfirmed : Confirmed (w.process p) :=
    Or.inl (held_exclusive_of_covered ((hw.each p).accounted.covers _ hteardown))
  obtain ⟨d, hd⟩ := (hw.each p).lease_of_confirmed hconfirmed
  have hcovered := (hw.each q).accounted.covers _ hhold
  rcases lease_or_intent_of_covered hcovered with ⟨e, m, he⟩ | hintended
  · exact hne (hd.same_owner ((hw.each q).fileLease e m he))
  · exact hw.apart p q hne hconfirmed hintended

/-- A teardown taken by a process that holds nothing: its lease, the probe of the intent,
and the hold. -/
def firstTeardown : List (Bool × Unit × Act) :=
  [(true, (), .call .exclusive), (true, (), .go), (true, (), .granted 0), (true, (), .granted 1),
    (true, (), .go), (true, (), .go)]

theorem teardown_excludes_other_processes_firstTeardown :
    ∃ w : World Bool Unit, ((), Mode.exclusive) ∈ (w.process true).holds ∧
      ((), Mode.shared) ∉ (w.process false).holds := by
  have hsome : ((turns Bool Unit).run World.initial firstTeardown).isSome = true := by decide
  have hmeets : (turns Bool Unit).RunMeets RestoringTakeSucceeds World.initial firstTeardown := by
    decide
  have hteardown : ((), Mode.exclusive) ∈
      ((((turns Bool Unit).run World.initial firstTeardown).get hsome).process true).holds := by
    decide +revert
  have hreach := System.reachableBy_of_run (S := turns Bool Unit) rfl hmeets
    (Option.some_get hsome).symm
  exact ⟨_, hteardown, teardown_excludes_other_processes hreach (by decide) hteardown⟩

end Onevcs.CheckoutReads
