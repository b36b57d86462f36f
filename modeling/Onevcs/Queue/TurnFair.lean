import Onevcs.Queue.Turn

/-!
# The queue stays in order

What holds of the merge queue in every state: a call keeps the lease on its ticket exactly
while it is live, the tickets are in the order they were pushed, a call that waits has its
ticket in the queue, and one that has the turn has it at the head. A reap keeps every live
ticket, so none of this depends on which tickets a death leaves behind.
-/

set_option linter.unusedSectionVars false

namespace Onevcs.Queue

open Foundations (Fifo Flock Mode)

variable {τ π : Type} [DecidableEq τ] [DecidableEq π] {s s' : World τ} {t u : τ}
  {phase : Phase τ} {job : Job} {process : τ → π}

/-- What is known of a call by where it stands. -/
structure Stands (s : World τ) (t : τ) (phase : Phase τ) : Prop where
  locked : phase.mutating = true → s.lock = some t
  queued : phase.queued = true → t ∈ s.tickets
  head : phase.holds = true → s.tickets.head? = some t
  unpushed : phase.unpushed = true → t ∉ s.pushed
  ungranted : (phase.waits || phase.withdraws) = true → t ∉ s.granted
  reaped : ∀ job unprobed live, phase = .reaping job unprobed live →
    (live ++ unprobed).Sublist s.tickets ∧
      ∀ u ∈ s.tickets, (s.phase u).live = true → u ∈ live ++ unprobed

structure Orderly (s : World τ) : Prop where
  leases : ∀ t d mode, (s.leases t).Holds d mode ↔
    d = t ∧ mode = Mode.shared ∧ (s.phase t).live = true
  tickets : s.tickets.Sublist s.pushed
  fifo : Fifo s.granted (s.tickets.filter fun t => t ∉ s.granted) s.pushed
  stands : ∀ t, Stands s t (s.phase t)

namespace Phase

theorem live_of_queued (h : phase.queued = true) : phase.live = true := by
  cases phase <;> simp_all [queued, holds, waits, withdraws, live]

end Phase

/-- What is known of a call stands while the queue does, and the calls of its tickets come
to no new life. -/
theorem Stands.frame (h : Stands s t phase) (hlock : phase.mutating = true → s'.lock = some t)
    (htickets : s'.tickets = s.tickets) (hpushed : s'.pushed = s.pushed)
    (hgranted : s'.granted = s.granted)
    (hlive : ∀ u ∈ s.tickets, (s'.phase u).live = true → (s.phase u).live = true) :
    Stands s' t phase := by
  refine ⟨hlock, ?_, ?_, ?_, ?_, fun job unprobed live heq => ?_⟩
  · rw [htickets]
    exact h.queued
  · rw [htickets]
    exact h.head
  · rw [hpushed]
    exact h.unpushed
  · rw [hgranted]
    exact h.ungranted
  · obtain ⟨hsub, hkept⟩ := h.reaped job unprobed live heq
    rw [htickets]
    exact ⟨hsub, fun u hu hlives => hkept u hu (hlive u hu hlives)⟩

theorem Stands.reaping (h : Stands s t phase) (hlock : s.lock = some t)
    (hphase : phase = .reading job ∨ ∃ unprobed live, phase = .reaping job unprobed live)
    {unprobed live : List τ} (hreaped : (live ++ unprobed).Sublist s.tickets ∧
      ∀ u ∈ s.tickets, (s.phase u).live = true → u ∈ live ++ unprobed) :
    Stands s t (.reaping job unprobed live) := by
  refine ⟨fun _ => hlock, fun hqueued => h.queued ?_, fun hholds => h.head ?_,
    fun hunpushed => h.unpushed ?_, fun hwaits => h.ungranted ?_, ?_⟩
  · rcases hphase with rfl | ⟨_, _, rfl⟩ <;> cases job <;> exact hqueued
  · rcases hphase with rfl | ⟨_, _, rfl⟩ <;> cases job <;> exact hholds
  · rcases hphase with rfl | ⟨_, _, rfl⟩ <;> cases job <;> exact hunpushed
  · rcases hphase with rfl | ⟨_, _, rfl⟩ <;> cases job <;> exact hwaits
  · rintro _ _ _ ⟨⟩
    exact hreaped

theorem Stands.finished (s : World τ) (t : τ) : Stands s t .finished :=
  ⟨by rintro ⟨⟩, by rintro ⟨⟩, by rintro ⟨⟩, by rintro ⟨⟩, by rintro ⟨⟩, by rintro _ _ _ ⟨⟩⟩

theorem Stands.dead (s : World τ) (t : τ) : Stands s t .dead :=
  ⟨by rintro ⟨⟩, by rintro ⟨⟩, by rintro ⟨⟩, by rintro ⟨⟩, by rintro ⟨⟩, by rintro _ _ _ ⟨⟩⟩

theorem Stands.leaving (s : World τ) (t : τ) : Stands s t .leaving :=
  ⟨by rintro ⟨⟩, by rintro ⟨⟩, by rintro ⟨⟩, by rintro ⟨⟩, by rintro ⟨⟩, by rintro _ _ _ ⟨⟩⟩

namespace Orderly

theorem nodup (h : Orderly s) : s.tickets.Nodup := h.tickets.nodup h.fifo.nodup

theorem pushed_of_mem (h : Orderly s) (ht : t ∈ s.tickets) : t ∈ s.pushed := h.tickets.subset ht

theorem grants_iff (h : Orderly s) : (s.leases t).Grants .exclusive ↔ (s.phase t).live = false := by
  constructor
  · intro hfree
    by_contra hlive
    exact hfree.not_holds ((h.leases t t .shared).mpr ⟨rfl, rfl, by simpa using hlive⟩)
  · intro hgone
    apply List.eq_nil_iff_forall_not_mem.mpr
    rintro ⟨d, mode⟩ hmem
    have hlive := ((h.leases t d mode).mp hmem).2.2
    rw [hgone] at hlive
    cases hlive

theorem eq_of_mutating (h : Orderly s) (ht : (s.phase t).mutating = true)
    (hu : (s.phase u).mutating = true) : u = t :=
  Option.some.inj (((h.stands u).locked hu).symm.trans ((h.stands t).locked ht))

theorem moves (h : Orderly s) (lock : Option τ) (hlive : phase.live = (s.phase t).live)
    (hlock : ∀ u, u ≠ t → (s.phase u).mutating = true → lock = some u)
    (hstands : Stands { s with lock := lock } t phase) :
    Orderly { s.goto t phase with lock := lock } := by
  have hsame : ∀ u, ((s.goto t phase).phase u).live = (s.phase u).live := by
    intro u
    by_cases hu : u = t
    · subst hu
      simp [World.goto, hlive]
    · simp [World.goto, hu]
  refine ⟨fun u d mode => ?_, h.tickets, h.fifo, fun u => ?_⟩
  · rw [show ({ s.goto t phase with lock := lock } : World τ).phase u = (s.goto t phase).phase u
      from rfl, hsame u]
    exact h.leases u d mode
  · by_cases hu : u = t
    · subst hu
      have hself : ({ s.goto u phase with lock := lock } : World τ).phase u = phase :=
        Function.update_self ..
      rw [hself]
      exact hstands.frame hstands.locked rfl rfl rfl fun v _ hv => by rwa [hsame v] at hv
    · have hother : ({ s.goto t phase with lock := lock } : World τ).phase u = s.phase u :=
        Function.update_of_ne hu ..
      rw [hother]
      exact (h.stands u).frame (hlock u hu) rfl rfl rfl fun v _ hv => by rwa [hsame v] at hv

theorem goto (h : Orderly s) (hlive : phase.live = (s.phase t).live)
    (hstands : Stands s t phase) : Orderly (s.goto t phase) :=
  h.moves s.lock hlive (fun u _ hu => (h.stands u).locked hu) hstands

theorem unlocks (h : Orderly s) (ht : (s.phase t).mutating = true)
    (hlive : phase.live = (s.phase t).live) (hstands : Stands { s with lock := none } t phase) :
    Orderly { s.goto t phase with lock := none } :=
  h.moves none hlive (fun _ hne hu => absurd (h.eq_of_mutating ht hu) hne) hstands

theorem claims (h : Orderly s) (ht : s.phase t = .idle) {lease : Flock τ}
    (htake : (s.leases t).take t .shared = some lease) :
    Orderly { s.goto t (.waiting .push) with leases := Function.update s.leases t lease } := by
  have hnot : t ∉ s.pushed := (h.stands t).unpushed (by rw [ht]; rfl)
  have hlive : ∀ u ∈ s.tickets, ((s.goto t (.waiting .push)).phase u).live = true →
      (s.phase u).live = true := by
    intro u hu hlives
    have hne : u ≠ t := fun heq => hnot (heq ▸ h.pushed_of_mem hu)
    simpa [World.goto, hne] using hlives
  refine ⟨fun u d mode => ?_, h.tickets, h.fifo, fun u => ?_⟩
  · by_cases hu : u = t
    · subst hu
      have hnone : ¬ (s.leases u).Holds d mode := by
        rw [h.leases, ht]
        rintro ⟨-, -, hfalse⟩
        cases hfalse
      simp only [Function.update_self, World.goto, Flock.take_holds_iff htake, hnone, or_false]
      exact ⟨fun ⟨hd, hm⟩ => ⟨hd, hm, rfl⟩, fun ⟨hd, hm, _⟩ => ⟨hd, hm⟩⟩
    · simpa [World.goto, hu] using h.leases u d mode
  · by_cases hu : u = t
    · subst hu
      have hself : ({ s.goto u (.waiting .push) with
          leases := Function.update s.leases u lease } : World τ).phase u = .waiting .push :=
        Function.update_self ..
      rw [hself]
      exact ⟨by rintro ⟨⟩, by rintro ⟨⟩, by rintro ⟨⟩, fun _ => hnot, by rintro ⟨⟩,
        by rintro _ _ _ ⟨⟩⟩
    · have hother : ({ s.goto t (.waiting .push) with
          leases := Function.update s.leases t lease } : World τ).phase u = s.phase u :=
        Function.update_of_ne hu ..
      rw [hother]
      exact (h.stands u).frame (h.stands u).locked rfl rfl rfl hlive

theorem leaves (h : Orderly s) (ht : s.phase t = .leaving) :
    Orderly { s.goto t .finished with
      leases := Function.update s.leases t ((s.leases t).drop t) } := by
  have hlive : ∀ u, ((s.goto t .finished).phase u).live = true → (s.phase u).live = true := by
    intro u hlives
    by_cases hu : u = t
    · subst hu
      rw [ht]
      rfl
    · simpa [World.goto, hu] using hlives
  refine ⟨fun u d mode => ?_, h.tickets, h.fifo, fun u => ?_⟩
  · by_cases hu : u = t
    · subst hu
      simp only [Function.update_self, World.goto, Flock.drop_holds_iff, h.leases]
      constructor
      · rintro ⟨⟨hd, -⟩, hne⟩
        exact absurd hd hne
      · rintro ⟨-, -, hfalse⟩
        cases hfalse
    · simpa [World.goto, hu] using h.leases u d mode
  · by_cases hu : u = t
    · subst hu
      have hself : ({ s.goto u .finished with
          leases := Function.update s.leases u ((s.leases u).drop u) } : World τ).phase u =
            .finished := Function.update_self ..
      rw [hself]
      exact Stands.finished _ u
    · have hother : ({ s.goto t .finished with
          leases := Function.update s.leases t ((s.leases t).drop t) } : World τ).phase u =
            s.phase u := Function.update_of_ne hu ..
      rw [hother]
      exact (h.stands u).frame (h.stands u).locked rfl rfl rfl fun v _ hv => hlive v hv

theorem dies (h : Orderly s) (p : π) : Orderly (s.die process p) := by
  have hlive : ∀ u, ((s.die process p).phase u).live = true → (s.phase u).live = true := by
    intro u hlives
    simp only [World.die] at hlives
    split at hlives
    · cases hlives
    · exact hlives
  refine ⟨fun u d mode => ?_, h.tickets, h.fifo, fun u => ?_⟩
  · by_cases hu : process u = p
    · simp only [World.die, hu, if_true, Flock.drop_holds_iff, h.leases]
      constructor
      · rintro ⟨⟨hd, -⟩, hne⟩
        exact absurd hd hne
      · rintro ⟨-, -, hfalse⟩
        cases hfalse
    · simpa [World.die, hu] using h.leases u d mode
  · by_cases hu : process u = p
    · have hself : (s.die process p).phase u = .dead := if_pos hu
      rw [hself]
      exact Stands.dead _ u
    · have hother : (s.die process p).phase u = s.phase u := if_neg hu
      rw [hother]
      refine (h.stands u).frame (fun hmutating => ?_) rfl rfl rfl fun v _ hv => hlive v hv
      simp only [World.die, (h.stands u).locked hmutating, Option.filter_some, hu, ne_eq,
        not_false_iff, decide_true, if_true]

/-! ### The write of a mutation -/

variable {live : List τ}

theorem reaped (h : Orderly s) (ht : s.phase t = .reaping job [] live) :
    live.Sublist s.tickets ∧ ∀ u ∈ s.tickets, (s.phase u).live = true → u ∈ live := by
  have hreaped := (h.stands t).reaped job [] live ht
  rwa [List.append_nil] at hreaped

theorem mem_change (h : Orderly s) (ht : s.phase t = .reaping job [] live) (hne : u ≠ t)
    (hu : (s.phase u).queued = true) : u ∈ job.change t live := by
  have hlive := (h.reaped ht).2 u ((h.stands u).queued hu) (Phase.live_of_queued hu)
  cases job with
  | push => exact List.mem_append_left _ hlive
  | look => exact hlive
  | withdraw => exact List.mem_filter.mpr ⟨hlive, by simpa using hne⟩
  | dequeue => exact List.mem_filter.mpr ⟨hlive, by simpa using hne⟩

theorem head_change (h : Orderly s) (ht : s.phase t = .reaping job [] live) (hne : u ≠ t)
    (hu : (s.phase u).holds = true) : (job.change t live).head? = some u := by
  obtain ⟨hsub, hkept⟩ := h.reaped ht
  have hqueued : (s.phase u).queued = true := by simp [Phase.queued, hu]
  have hlive := hkept u ((h.stands u).queued hqueued) (Phase.live_of_queued hqueued)
  have hhead := Foundations.head?_eq_of_sublist h.nodup hsub ((h.stands u).head hu) hlive
  cases live with
  | nil => cases hhead
  | cons first rest =>
    obtain rfl : first = u := Option.some.inj hhead
    cases job with
    | push => rfl
    | look => rfl
    | withdraw => simp [Job.change, hne]
    | dequeue => simp [Job.change, hne]

theorem fifo_write (h : Orderly s) (ht : s.phase t = .reaping job [] live) :
    Fifo (s.write t job live).granted
      ((job.change t live).filter fun u => u ∉ (s.write t job live).granted)
      (s.write t job live).pushed := by
  obtain ⟨hsub, -⟩ := h.reaped ht
  have hleft : Fifo s.granted (live.filter fun u => u ∉ s.granted) s.pushed :=
    h.fifo.leave (hsub.filter _)
  cases job with
  | push =>
    have hnot : t ∉ s.pushed := (h.stands t).unpushed (by rw [ht]; rfl)
    have hgranted : t ∉ s.granted := fun hin => hnot (h.fifo.served_sublist.subset hin)
    simpa [World.write, Job.wins, Job.change, hgranted] using hleft.push hnot
  | look =>
    have hgranted : t ∉ s.granted := (h.stands t).ungranted (by rw [ht]; rfl)
    by_cases hwins : live.head? = some t
    · cases live with
      | nil => cases hwins
      | cons first rest =>
        obtain rfl : first = t := Option.some.inj hwins
        have hrest : first ∉ rest := (List.nodup_cons.mp (hsub.nodup h.nodup)).1
        have hserved := hleft
        rw [List.filter_cons_of_pos (by simpa using hgranted)] at hserved
        have hsame : (first :: rest).filter (fun u => u ∉ s.granted ++ [first]) =
            rest.filter fun u => u ∉ s.granted := by
          rw [List.filter_cons_of_neg (by simp)]
          apply List.filter_congr
          intro u hu
          have hne : u ≠ first := fun heq => hrest (heq ▸ hu)
          simp [hne]
        simpa only [World.write, Job.wins, Job.change, List.head?_cons, decide_true,
          Bool.and_self, if_true, hsame, reduceCtorEq, if_false] using hserved.serve
    · simpa [World.write, Job.wins, Job.change, hwins] using hleft
  | withdraw =>
    have hfewer := hleft.leave ((List.filter_sublist (p := fun id => decide (id ≠ t))
      (l := live)).filter fun u => u ∉ s.granted)
    simpa only [World.write, Job.wins, Job.change, reduceCtorEq, decide_false, Bool.false_and,
      if_false, Bool.false_eq_true] using hfewer
  | dequeue =>
    have hfewer := hleft.leave ((List.filter_sublist (p := fun id => decide (id ≠ t))
      (l := live)).filter fun u => u ∉ s.granted)
    simpa only [World.write, Job.wins, Job.change, reduceCtorEq, decide_false, Bool.false_and,
      if_false, Bool.false_eq_true] using hfewer

theorem tickets_write (h : Orderly s) (ht : s.phase t = .reaping job [] live) :
    (job.change t live).Sublist (s.write t job live).pushed := by
  have hsub := (h.reaped ht).1.trans h.tickets
  cases job with
  | push => exact hsub.append_right [t]
  | look => exact hsub
  | withdraw => exact List.filter_sublist.trans hsub
  | dequeue => exact List.filter_sublist.trans hsub

/-- A push goes to the back of the live tickets, and a withdrawal takes out the caller's own. -/
example : Job.change .push 3 [1, 2] = [1, 2, 3] ∧ Job.change .withdraw 1 [1, 2] = [2] := by
  decide +kernel

theorem mem_granted_write (hu : u ∈ (s.write t job live).granted) :
    u ∈ s.granted ∨ (u = t ∧ job.wins t live = true) := by
  simp only [World.write] at hu
  split at hu
  · next hwins =>
    rcases List.mem_append.mp hu with hu | hu
    · exact Or.inl hu
    · exact Or.inr ⟨List.mem_singleton.mp hu, hwins⟩
  · exact Or.inl hu

theorem mem_pushed_write (hu : u ∈ (s.write t job live).pushed) : u ∈ s.pushed ∨ u = t := by
  simp only [World.write] at hu
  split at hu
  · exact (List.mem_append.mp hu).imp id List.mem_singleton.mp
  · exact Or.inl hu

theorem stands_written (h : Orderly s) (ht : s.phase t = .reaping job [] live) :
    Stands (s.write t job live) t (.written job (job.wins t live)) := by
  have hstands := h.stands t
  rw [ht] at hstands
  have hmem : job = .look → t ∈ live := by
    rintro rfl
    exact (h.reaped ht).2 t (hstands.queued rfl) (by rw [ht]; rfl)
  refine ⟨fun _ => hstands.locked rfl, fun hqueued => ?_, fun hholds => ?_, by rintro ⟨⟩,
    fun hwaits hgranted => ?_, by rintro _ _ _ ⟨⟩⟩
  · cases job with
    | push => exact List.mem_append_right _ (List.mem_singleton_self t)
    | look => exact hmem rfl
    | withdraw => cases hqueued
    | dequeue => cases hqueued
  · cases job with
    | look =>
      have hwins : Job.wins .look t live = true := hholds
      have hhead : live.head? = some t := by simpa [Job.wins] using hwins
      exact hhead
    | push => cases hholds
    | withdraw => cases hholds
    | dequeue => cases hholds
  · rcases mem_granted_write hgranted with hbefore | ⟨-, hwins⟩
    · cases job with
      | push => exact hstands.unpushed rfl (h.fifo.served_sublist.subset hbefore)
      | look => exact hstands.ungranted rfl hbefore
      | withdraw => cases hwaits
      | dequeue => cases hwaits
    · cases job with
      | look => simp [Phase.waits, Phase.withdraws, hwins] at hwaits
      | push => simp [Job.wins] at hwins
      | withdraw => cases hwaits
      | dequeue => cases hwaits

theorem writes (h : Orderly s) (ht : s.phase t = .reaping job [] live) :
    Orderly (s.write t job live) := by
  have hlock : (s.phase t).mutating = true := by rw [ht]; rfl
  refine ⟨fun u d mode => ?_, h.tickets_write ht, h.fifo_write ht, fun u => ?_⟩
  · by_cases hu : u = t
    · subst hu
      have hlease := h.leases u d mode
      rw [ht] at hlease
      simpa [World.write, World.goto, Phase.live] using hlease
    · simpa [World.write, World.goto, hu] using h.leases u d mode
  · by_cases hu : u = t
    · subst hu
      have hself : (s.write u job live).phase u = .written job (job.wins u live) :=
        Function.update_self ..
      rw [hself]
      exact h.stands_written ht
    · have hother : (s.write t job live).phase u = s.phase u := Function.update_of_ne hu ..
      rw [hother]
      have hstands := h.stands u
      have hidle : (s.phase u).mutating = true → False := fun hmutating =>
        hu (h.eq_of_mutating hlock hmutating)
      refine ⟨fun hmutating => (hidle hmutating).elim, fun hqueued => h.mem_change ht hu hqueued,
        fun hholds => h.head_change ht hu hholds, fun hunpushed hpushed => ?_,
        fun hwaits hgranted => ?_, fun job' unprobed live' heq => ?_⟩
      · exact (mem_pushed_write hpushed).elim (hstands.unpushed hunpushed) hu
      · exact (mem_granted_write hgranted).elim (hstands.ungranted hwaits) fun heq => hu heq.1
      · rw [heq] at hidle
        exact (hidle rfl).elim

theorem probes (h : Orderly s) {ticket : τ} {unprobed : List τ}
    (ht : s.phase t = .reaping job (ticket :: unprobed) live)
    (hs : s.act t .probe = some s') : Orderly s' := by
  have hstands := h.stands t
  rw [ht] at hstands
  obtain ⟨hsub, hkept⟩ := hstands.reaped job (ticket :: unprobed) live rfl
  simp only [World.act, ht] at hs
  split at hs
  · next hgrants =>
    have hgone := h.grants_iff.mp hgrants
    obtain rfl := Option.some.inj hs
    refine h.goto (by rw [ht]; rfl) (hstands.reaping (hstands.locked rfl)
      (Or.inr ⟨_, _, rfl⟩) ⟨?_, fun u hu hlives => ?_⟩)
    · exact ((List.sublist_cons_self ticket unprobed).append_left live).trans hsub
    · rcases List.mem_append.mp (hkept u hu hlives) with hin | hin
      · exact List.mem_append_left _ hin
      · rcases List.mem_cons.mp hin with rfl | hin
        · rw [hgone] at hlives
          cases hlives
        · exact List.mem_append_right _ hin
  · obtain rfl := Option.some.inj hs
    refine h.goto (by rw [ht]; rfl) (hstands.reaping (hstands.locked rfl)
      (Or.inr ⟨_, _, rfl⟩) ?_)
    rw [List.append_assoc, List.singleton_append]
    exact ⟨hsub, hkept⟩

theorem releases (h : Orderly s) {atHead : Bool} (ht : s.phase t = .written job atHead) :
    Orderly { s.goto t (job.next atHead) with lock := none } := by
  have hstands := h.stands t
  rw [ht] at hstands
  have hlock : (s.phase t).mutating = true := by rw [ht]; rfl
  cases job with
  | push =>
    exact h.unlocks hlock (by rw [ht]; rfl) ⟨by rintro ⟨⟩, hstands.queued, by rintro ⟨⟩,
      by rintro ⟨⟩, hstands.ungranted, by rintro _ _ _ ⟨⟩⟩
  | look =>
    cases atHead with
    | true =>
      exact h.unlocks hlock (by rw [ht]; rfl) ⟨by rintro ⟨⟩, hstands.queued, hstands.head,
        by rintro ⟨⟩, by rintro ⟨⟩, by rintro _ _ _ ⟨⟩⟩
    | false =>
      exact h.unlocks hlock (by rw [ht]; rfl) ⟨by rintro ⟨⟩, hstands.queued, by rintro ⟨⟩,
        by rintro ⟨⟩, hstands.ungranted, by rintro _ _ _ ⟨⟩⟩
  | withdraw => exact h.unlocks hlock (by rw [ht]; rfl) (Stands.leaving _ t)
  | dequeue => exact h.unlocks hlock (by rw [ht]; rfl) (Stands.leaving _ t)

theorem act (h : Orderly s) {act : Act} (hs : s.act t act = some s') : Orderly s' := by
  have hstands := h.stands t
  cases hphase : s.phase t with
  | idle =>
    cases act with
    | claim =>
      simp only [World.act, hphase] at hs
      cases htake : (s.leases t).take t .shared with
      | some lease =>
        rw [htake] at hs
        obtain rfl := Option.some.inj hs
        exact h.claims hphase htake
      | none =>
        rw [htake] at hs
        obtain rfl := Option.some.inj hs
        exact h.goto (by rw [hphase]; rfl) (Stands.finished s t)
    | _ => simp [World.act, hphase] at hs
  | waiting job =>
    rw [hphase] at hstands
    cases act with
    | take =>
      simp only [World.act, hphase] at hs
      split at hs
      · next hfree =>
        obtain rfl := Option.some.inj hs
        refine h.moves (some t) (by rw [hphase]; rfl) (fun u _ hu => ?_) ?_
        · have hheld := (h.stands u).locked hu
          rw [hfree] at hheld
          cases hheld
        · cases job <;> exact ⟨fun _ => rfl, hstands.queued, hstands.head,
            hstands.unpushed, hstands.ungranted, by rintro _ _ _ ⟨⟩⟩
      · cases hs
    | fail =>
      simp only [World.act, hphase] at hs
      obtain rfl := Option.some.inj hs
      exact h.goto (by rw [hphase]; rfl) (Stands.leaving s t)
    | _ => simp [World.act, hphase] at hs
  | reading job =>
    rw [hphase] at hstands
    have hlock : (s.phase t).mutating = true := by rw [hphase]; rfl
    cases act with
    | read =>
      simp only [World.act, hphase] at hs
      cases hread : s.file.read with
      | some tickets =>
        have htickets : s.tickets = tickets := by simp [World.tickets, hread]
        rw [hread] at hs
        obtain rfl := Option.some.inj hs
        refine h.goto (by rw [hphase]; rfl)
          (hstands.reaping (hstands.locked rfl) (Or.inl rfl) ?_)
        rw [List.nil_append, htickets]
        exact ⟨List.Sublist.refl _, fun u hu _ => hu⟩
      | none =>
        rw [hread] at hs
        obtain rfl := Option.some.inj hs
        exact h.unlocks hlock (by rw [hphase]; rfl) (Stands.leaving _ t)
    | fail =>
      simp only [World.act, hphase] at hs
      obtain rfl := Option.some.inj hs
      exact h.unlocks hlock (by rw [hphase]; rfl) (Stands.leaving _ t)
    | _ => simp [World.act, hphase] at hs
  | reaping job unprobed live =>
    have hlock : (s.phase t).mutating = true := by rw [hphase]; rfl
    cases act with
    | probe =>
      cases unprobed with
      | nil => simp [World.act, hphase] at hs
      | cons ticket unprobed => exact h.probes hphase hs
    | write =>
      cases unprobed with
      | nil =>
        simp only [World.act, hphase] at hs
        obtain rfl := Option.some.inj hs
        exact h.writes hphase
      | cons ticket unprobed => simp [World.act, hphase] at hs
    | fail =>
      simp only [World.act, hphase] at hs
      obtain rfl := Option.some.inj hs
      exact h.unlocks hlock (by rw [hphase]; rfl) (Stands.leaving _ t)
    | _ => simp [World.act, hphase] at hs
  | written job atHead =>
    cases act with
    | release =>
      simp only [World.act, hphase] at hs
      obtain rfl := Option.some.inj hs
      exact h.releases hphase
    | _ => simp [World.act, hphase] at hs
  | looked =>
    rw [hphase] at hstands
    cases act with
    | again =>
      simp only [World.act, hphase] at hs
      obtain rfl := Option.some.inj hs
      exact h.goto (by rw [hphase]; rfl) ⟨by rintro ⟨⟩, hstands.queued, by rintro ⟨⟩,
        by rintro ⟨⟩, hstands.ungranted, by rintro _ _ _ ⟨⟩⟩
    | cancel =>
      simp only [World.act, hphase] at hs
      obtain rfl := Option.some.inj hs
      exact h.goto (by rw [hphase]; rfl) ⟨by rintro ⟨⟩, hstands.queued, by rintro ⟨⟩,
        by rintro ⟨⟩, hstands.ungranted, by rintro _ _ _ ⟨⟩⟩
    | _ => simp [World.act, hphase] at hs
  | holding =>
    rw [hphase] at hstands
    cases act with
    | drop =>
      simp only [World.act, hphase] at hs
      obtain rfl := Option.some.inj hs
      exact h.goto (by rw [hphase]; rfl) ⟨by rintro ⟨⟩, hstands.queued, hstands.head,
        by rintro ⟨⟩, by rintro ⟨⟩, by rintro _ _ _ ⟨⟩⟩
    | _ => simp [World.act, hphase] at hs
  | leaving =>
    cases act with
    | leave =>
      simp only [World.act, hphase] at hs
      obtain rfl := Option.some.inj hs
      exact h.leaves hphase
    | _ => simp [World.act, hphase] at hs
  | finished => simp [World.act, hphase] at hs
  | dead => simp [World.act, hphase] at hs

theorem step (h : Orderly s) {label : Label τ π} (hs : s.step process label = some s') :
    Orderly s' := by
  cases label with
  | act t act => exact h.act hs
  | die p =>
    obtain rfl := Option.some.inj hs
    exact h.dies p

theorem of_initial (h : (queueing process).Initial s) : Orderly s := by
  obtain ⟨hlock, hleases, hphase, hnodup, hdead, hpushed, hgranted⟩ := h
  have hgone : ∀ t, (s.phase t).live = false := by
    intro t
    rcases hphase t with heq | heq <;> rw [heq] <;> rfl
  refine ⟨fun t d mode => ?_, ?_, ?_, fun t => ?_⟩
  · simp [Flock.Holds, hleases t, hgone t]
  · rw [hpushed]
  · rw [hpushed, hgranted]
    exact Fifo.start hnodup (by simp)
  · rcases hphase t with heq | heq
    · rw [heq]
      refine ⟨by rintro ⟨⟩, by rintro ⟨⟩, by rintro ⟨⟩, fun _ hin => ?_, by rintro ⟨⟩,
        by rintro _ _ _ ⟨⟩⟩
      rw [hpushed] at hin
      have hboth := (hdead t hin).symm.trans heq
      cases hboth
    · rw [heq]
      exact Stands.dead s t

theorem of_reachable (h : (queueing process).Reachable s) : Orderly s :=
  h.invariant (fun _ => of_initial) fun _ _ _ hi _ hs => hi.step hs

end Orderly

end Onevcs.Queue
