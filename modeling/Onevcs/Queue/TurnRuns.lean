import Onevcs.Queue.TurnFair

/-!
# Runs of the merge queue

One call at a time has the turn, calls get it in the order of their pushes, and what dead
processes left in the queue is in nobody's way: once every ticket ahead of a call's own is
of a call that is gone, the call's next look that runs to its end gives it the turn,
whatever the others do meanwhile, and where the state lock is free it can run to its end.
-/

set_option linter.unusedSectionVars false

namespace Onevcs.Queue

open Foundations (Flock System ahead mem_of_mem_ahead ne_of_mem_ahead)

variable {τ π : Type} [DecidableEq τ] [DecidableEq π] {s s' : World τ} {t u v : τ}
  {process : τ → π}

/-- The call waits and is not in the middle of a reap. -/
def Phase.betweenLooks : Phase τ → Bool
  | .reaping _ _ _ => false
  | phase => phase.waits

/-- The step ends the wait of a call: it fails, is cancelled or times out, or its process
dies. -/
def Label.ends (process : τ → π) (t : τ) : Label τ π → Bool
  | .act u .fail | .act u .cancel => u = t
  | .act _ _ => false
  | .die p => process t = p

/-- A step of a call moves it, beside the lock and the leases, or is the write of a
mutation. -/
theorem act_cases {act : Act} (hs : s.act v act = some s') :
    (∃ phase lock leases, s' = { s.goto v phase with lock := lock, leases := leases }) ∨
      ∃ job live, s.phase v = .reaping job [] live ∧ s' = s.write v job live := by
  unfold World.act at hs
  split at hs
  case h_1 =>
    split at hs
    · exact Or.inl ⟨_, _, _, (Option.some.inj hs).symm⟩
    · exact Or.inl ⟨_, _, _, (Option.some.inj hs).symm⟩
  case h_2 =>
    split at hs
    · exact Or.inl ⟨_, _, _, (Option.some.inj hs).symm⟩
    · cases hs
  case h_3 =>
    split at hs
    · exact Or.inl ⟨_, _, _, (Option.some.inj hs).symm⟩
    · exact Or.inl ⟨_, _, _, (Option.some.inj hs).symm⟩
  case h_4 =>
    split at hs
    · exact Or.inl ⟨_, _, _, (Option.some.inj hs).symm⟩
    · exact Or.inl ⟨_, _, _, (Option.some.inj hs).symm⟩
  case h_5 hphase => exact Or.inr ⟨_, _, hphase, (Option.some.inj hs).symm⟩
  case h_14 => cases hs
  all_goals exact Or.inl ⟨_, _, _, (Option.some.inj hs).symm⟩

theorem act_phase_other {act : Act} (hs : s.act v act = some s') (hne : u ≠ v) :
    s'.phase u = s.phase u := by
  rcases act_cases hs with ⟨phase, lock, leases, rfl⟩ | ⟨job, live, -, rfl⟩
  · exact Function.update_of_ne hne ..
  · exact Function.update_of_ne hne ..

theorem granted_step {label : Label τ π} (hs : s.step process label = some s')
    (ht : t ∈ s.granted) : t ∈ s'.granted := by
  cases label with
  | act v act =>
    rcases act_cases hs with ⟨phase, lock, leases, rfl⟩ | ⟨job, live, -, rfl⟩
    · exact ht
    · simp only [World.write]
      split
      · exact List.mem_append_left _ ht
      · exact ht
  | die p =>
    obtain rfl := Option.some.inj hs
    exact ht

theorem gone_step (h : Orderly s) {label : Label τ π} (hs : s.step process label = some s')
    (hu : u ∈ s.tickets) (hgone : (s.phase u).live = false) : (s'.phase u).live = false := by
  cases label with
  | act v act =>
    by_cases huv : u = v
    · subst huv
      have hpushed := h.pushed_of_mem hu
      have hstands := h.stands u
      cases hphase : s.phase u with
      | idle =>
        rw [hphase] at hstands
        exact absurd hpushed (hstands.unpushed rfl)
      | finished => simp [World.step, World.act, hphase] at hs
      | dead => simp [World.step, World.act, hphase] at hs
      | _ =>
        rw [hphase] at hgone
        cases hgone
    · rw [act_phase_other hs huv]
      exact hgone
  | die p =>
    obtain rfl := Option.some.inj hs
    simp only [World.die]
    split
    · rfl
    · exact hgone

/-! ## Nobody who is gone is in the way -/

/-- Nothing live is ahead of a call that waits; in the middle of its look, nothing it may
still meet or has kept. -/
def World.Clear (s : World τ) (t : τ) : Prop :=
  ((s.phase t).betweenLooks = true ∧ ∀ u ∈ ahead t s.tickets, (s.phase u).live = false) ∨
    ∃ unprobed live, s.phase t = .reaping .look unprobed live ∧
      (live.head? = some t ∨
        (live = [] ∧ t ∈ unprobed ∧ ∀ u ∈ ahead t unprobed, (s.phase u).live = false))

theorem Phase.queued_of_betweenLooks {phase : Phase τ} (h : phase.betweenLooks = true) :
    phase.queued = true := by
  cases phase <;> simp_all [betweenLooks, queued]

theorem ahead_write (h : Orderly s) {job : Job} {live : List τ}
    (hv : s.phase v = .reaping job [] live) (hne : t ≠ v) (ht : (s.phase t).queued = true) :
    ∀ u ∈ ahead t (s.write v job live).tickets, u ∈ ahead t s.tickets := by
  obtain ⟨hsub, hkept⟩ := h.reaped hv
  have hmem : t ∈ job.change v live := h.mem_change hv hne ht
  have hlive : t ∈ live := hkept t ((h.stands t).queued ht) (Phase.live_of_queued ht)
  intro u hu
  have hu : u ∈ ahead t (job.change v live) := hu
  cases job with
  | push =>
    rw [Job.change, Foundations.ahead_append hlive] at hu
    exact Foundations.ahead_subset h.nodup hsub hlive hu
  | look => exact Foundations.ahead_subset h.nodup hsub hlive hu
  | withdraw =>
    exact Foundations.ahead_subset h.nodup (List.filter_sublist.trans hsub) hmem hu
  | dequeue =>
    exact Foundations.ahead_subset h.nodup (List.filter_sublist.trans hsub) hmem hu

/-- What was pushed earlier is ahead. -/
example : ahead 3 [1, 2, 3, 4] = [1, 2] := by decide +kernel

theorem World.Clear.other (h : Orderly s) (hclear : s.Clear t) {label : Label τ π}
    (hs : s.step process label = some s') (hother : s'.phase t = s.phase t)
    (hlabel : ∀ act, label ≠ .act t act) : s'.Clear t := by
  have hgone : ∀ u ∈ s.tickets, (s.phase u).live = false → (s'.phase u).live = false :=
    fun u => gone_step h hs
  rcases hclear with ⟨hbetween, hahead⟩ | ⟨unprobed, live, hphase, hreap⟩
  · refine Or.inl ⟨by rwa [hother], fun u hu => ?_⟩
    have hbefore : u ∈ ahead t s.tickets := by
      cases label with
      | act v act =>
        rcases act_cases hs with ⟨phase, lock, leases, rfl⟩ | ⟨job, live, hv, rfl⟩
        · exact hu
        · have hne : t ≠ v := fun heq => hlabel act (heq ▸ rfl)
          exact ahead_write h hv hne (Phase.queued_of_betweenLooks hbetween) u hu
      | die p =>
        obtain rfl := Option.some.inj hs
        exact hu
    exact hgone u (mem_of_mem_ahead hbefore) (hahead u hbefore)
  · refine Or.inr ⟨unprobed, live, by rw [hother, hphase], ?_⟩
    rcases hreap with hhead | ⟨hnil, hmem, hahead⟩
    · exact Or.inl hhead
    · refine Or.inr ⟨hnil, hmem, fun u hu => hgone u ?_ (hahead u hu)⟩
      have hsub := ((h.stands t).reaped _ unprobed live hphase).1
      exact hsub.subset (List.mem_append_right _ (mem_of_mem_ahead hu))

theorem World.Clear.goes (hahead : ∀ u ∈ ahead t s.tickets, (s.phase u).live = false)
    (hother : ∀ u, u ≠ t → s'.phase u = s.phase u) (htickets : s'.tickets = s.tickets)
    (hbetween : (s'.phase t).betweenLooks = true) : s'.Clear t := by
  refine Or.inl ⟨hbetween, fun u hu => ?_⟩
  rw [htickets] at hu
  rw [hother u (ne_of_mem_ahead hu)]
  exact hahead u hu

/-- A probe of the call's look drops what is ahead of it, and keeps its own ticket. -/
theorem World.Clear.probes (h : Orderly s) {ticket : τ} {unprobed live : List τ}
    (hphase : s.phase t = .reaping .look (ticket :: unprobed) live)
    (hreap : live.head? = some t ∨ (live = [] ∧ t ∈ ticket :: unprobed ∧
      ∀ u ∈ ahead t (ticket :: unprobed), (s.phase u).live = false))
    (hs : s.act t .probe = some s') : s'.Clear t := by
  have hself : ∀ phase, (s.goto t phase).phase t = phase := fun phase => Function.update_self ..
  simp only [World.act, hphase] at hs
  rcases hreap with hhead | ⟨rfl, hmem, hahead⟩
  · -- Its own ticket is kept already, and stays the first.
    obtain ⟨live, rfl⟩ : ∃ rest, live = t :: rest := by
      cases live with
      | nil => cases hhead
      | cons first rest => exact ⟨rest, by rw [Option.some.inj hhead]⟩
    split at hs
    · obtain rfl := Option.some.inj hs
      exact Or.inr ⟨_, _, hself _, Or.inl rfl⟩
    · obtain rfl := Option.some.inj hs
      exact Or.inr ⟨_, _, hself _, Or.inl rfl⟩
  · by_cases hticket : ticket = t
    · subst hticket
      have hlive : (s.phase ticket).live = true := by rw [hphase]; rfl
      rw [if_neg (by rw [h.grants_iff, hlive]; exact Bool.noConfusion)] at hs
      obtain rfl := Option.some.inj hs
      exact Or.inr ⟨_, _, hself _, Or.inl rfl⟩
    · rw [Foundations.ahead_cons_of_ne hticket] at hahead
      rw [if_pos (h.grants_iff.mpr (hahead ticket List.mem_cons_self))] at hs
      obtain rfl := Option.some.inj hs
      refine Or.inr ⟨_, _, hself _, Or.inr ⟨rfl,
        (List.mem_cons.mp hmem).resolve_left (Ne.symm hticket), fun u hu => ?_⟩⟩
      have hother : (s.goto t (.reaping .look unprobed [])).phase u = s.phase u :=
        Function.update_of_ne (ne_of_mem_ahead hu) ..
      rw [hother]
      exact hahead u (List.mem_cons_of_mem _ hu)

/-- A step of the call itself leaves the way clear, or is the write that gives it the turn. -/
theorem World.Clear.own (h : Orderly s) (hclear : s.Clear t) {act : Act}
    (hs : s.act t act = some s') (hgoes : (Label.act t act : Label τ π).ends process t = false) :
    (act ≠ .write ∧ s'.Clear t) ∨ t ∈ s'.granted := by
  have hother : ∀ u, u ≠ t → s'.phase u = s.phase u := fun u hu => act_phase_other hs hu
  have hself : ∀ phase, (s.goto t phase).phase t = phase := fun phase => Function.update_self ..
  rcases hclear with ⟨hbetween, hahead⟩ | ⟨unprobed, live, hphase, hreap⟩
  · have hqueued := (h.stands t).queued (Phase.queued_of_betweenLooks hbetween)
    cases hphase : s.phase t with
    | written job atHead =>
      rw [hphase] at hbetween
      cases act with
      | release =>
        simp only [World.act, hphase] at hs
        obtain rfl := Option.some.inj hs
        refine Or.inl ⟨by rintro ⟨⟩, World.Clear.goes hahead hother rfl ?_⟩
        simp only [hself]
        cases job with
        | push => rfl
        | look =>
          cases atHead with
          | true => cases hbetween
          | false => rfl
        | withdraw => cases hbetween
        | dequeue => cases hbetween
      | _ => simp [World.act, hphase] at hs
    | looked =>
      cases act with
      | again =>
        simp only [World.act, hphase] at hs
        obtain rfl := Option.some.inj hs
        exact Or.inl ⟨by rintro ⟨⟩, World.Clear.goes hahead hother rfl (by rw [hself]; rfl)⟩
      | cancel => simp [Label.ends] at hgoes
      | _ => simp [World.act, hphase] at hs
    | waiting job =>
      rw [hphase] at hbetween
      cases act with
      | take =>
        simp only [World.act, hphase] at hs
        split at hs
        · obtain rfl := Option.some.inj hs
          refine Or.inl ⟨by rintro ⟨⟩, World.Clear.goes hahead hother rfl ?_⟩
          simp only [hself]
          cases job <;> exact hbetween
        · cases hs
      | fail => simp [Label.ends] at hgoes
      | _ => simp [World.act, hphase] at hs
    | reading job =>
      rw [hphase] at hbetween
      cases act with
      | read =>
        obtain rfl : job = .look := by cases job <;> first | rfl | cases hbetween
        simp only [World.act, hphase] at hs
        cases hread : s.file.read with
        | none => simp [World.tickets, hread] at hqueued
        | some tickets =>
          have htickets : s.tickets = tickets := by simp [World.tickets, hread]
          rw [htickets] at hqueued hahead
          rw [hread] at hs
          obtain rfl := Option.some.inj hs
          refine Or.inl ⟨by rintro ⟨⟩, Or.inr ⟨tickets, [], hself _,
            Or.inr ⟨rfl, hqueued, fun u hu => ?_⟩⟩⟩
          rw [hother u (ne_of_mem_ahead hu)]
          exact hahead u hu
      | fail => simp [Label.ends] at hgoes
      | _ => simp [World.act, hphase] at hs
    | _ =>
      rw [hphase] at hbetween
      cases hbetween
  · cases act with
    | probe =>
      cases unprobed with
      | nil => simp [World.act, hphase] at hs
      | cons ticket unprobed =>
        exact Or.inl ⟨by rintro ⟨⟩, World.Clear.probes h hphase hreap hs⟩
    | write =>
      cases unprobed with
      | nil =>
        simp only [World.act, hphase] at hs
        obtain rfl := Option.some.inj hs
        have hhead : live.head? = some t := by
          rcases hreap with hhead | ⟨-, hmem, -⟩
          · exact hhead
          · cases hmem
        right
        simp [World.write, Job.wins, hhead]
      | cons ticket unprobed => simp [World.act, hphase] at hs
    | fail => simp [Label.ends] at hgoes
    | _ => simp [World.act, hphase] at hs

theorem World.Clear.step (h : Orderly s) (hclear : s.Clear t) {label : Label τ π}
    (hs : s.step process label = some s') (hgoes : label.ends process t = false) :
    (label ≠ .act t .write ∧ s'.Clear t) ∨ t ∈ s'.granted := by
  cases label with
  | act v act =>
    by_cases hv : v = t
    · subst hv
      rcases hclear.own h hs hgoes with ⟨hne, hclear'⟩ | hgranted
      · exact Or.inl ⟨fun heq => hne (Label.act.inj heq).2, hclear'⟩
      · exact Or.inr hgranted
    · have hother := act_phase_other hs (Ne.symm hv)
      exact Or.inl ⟨fun heq => hv (Label.act.inj heq).1,
        hclear.other h hs hother fun _ heq => hv (Label.act.inj heq).1⟩
  | die p =>
    have hne : process t ≠ p := by simpa [Label.ends] using hgoes
    have hother : s'.phase t = s.phase t := by
      obtain rfl := Option.some.inj hs
      exact if_neg hne
    exact Or.inl ⟨by rintro ⟨⟩, hclear.other h hs hother (by rintro _ ⟨⟩)⟩

theorem granted_run {labels : List (Label τ π)} (hrun : (queueing process).run s labels = some s')
    (ht : t ∈ s.granted) : t ∈ s'.granted := by
  induction labels generalizing s with
  | nil =>
    obtain rfl := Option.some.inj hrun
    exact ht
  | cons label rest ih =>
    obtain ⟨next, hnext, hrest⟩ := Option.bind_eq_some_iff.mp hrun
    exact ih hrest (granted_step hnext ht)

/-- Where the way is clear, a look that runs to its end gives the turn, whatever the others
do meanwhile. -/
theorem World.Clear.granted_of_run (h : Orderly s) (hclear : s.Clear t)
    {labels : List (Label τ π)} (hrun : (queueing process).run s labels = some s')
    (hgoes : ∀ label ∈ labels, label.ends process t = false)
    (hlooks : Label.act t .write ∈ labels) : t ∈ s'.granted := by
  induction labels generalizing s with
  | nil => cases hlooks
  | cons label rest ih =>
    obtain ⟨next, hnext, hrest⟩ := Option.bind_eq_some_iff.mp hrun
    rcases hclear.step h hnext (hgoes label List.mem_cons_self) with ⟨hne, hclear'⟩ | hgranted
    · refine ih (h.step hnext) hclear' hrest
        (fun label hin => hgoes label (List.mem_cons_of_mem _ hin)) ?_
      exact (List.mem_cons.mp hlooks).resolve_left (Ne.symm hne)
    · exact granted_run hrest hgranted

/-- The labels are steps of one call, none of which ends its wait. -/
def GoesOn (process : τ → π) (t : τ) (labels : List (Label τ π)) : Prop :=
  ∀ label ∈ labels, label.ends process t = false ∧ ∃ act, label = .act t act

theorem reap_run (process : τ → π) (unprobed live : List τ) (hphase : s.phase t = .reaping .look unprobed live) :
    ∃ labels s', GoesOn process t labels ∧ .act t .write ∈ labels ∧
      (queueing process).run s labels = some s' := by
  induction unprobed generalizing s live with
  | nil =>
    refine ⟨[.act t .write], s.write t .look live, ?_, List.mem_singleton_self _, ?_⟩
    · intro label hin
      obtain rfl := List.mem_singleton.mp hin
      exact ⟨rfl, .write, rfl⟩
    · simp [queueing, World.step, World.act, hphase]
  | cons ticket unprobed ih =>
    obtain ⟨live', next, hnext, hphase'⟩ : ∃ live' next, s.act t .probe = some next ∧
        next.phase t = .reaping .look unprobed live' := by
      simp only [World.act, hphase]
      split
      · exact ⟨_, _, rfl, Function.update_self ..⟩
      · exact ⟨_, _, rfl, Function.update_self ..⟩
    obtain ⟨labels, s', hgoes, hlooks, hrun⟩ := ih live' hphase'
    refine ⟨.act t .probe :: labels, s', fun label hin => ?_, List.mem_cons_of_mem _ hlooks, ?_⟩
    · rcases List.mem_cons.mp hin with rfl | hin
      · exact ⟨rfl, .probe, rfl⟩
      · exact hgoes label hin
    · rw [System.run_cons]
      exact Option.bind_eq_some_iff.mpr ⟨next, hnext, hrun⟩

/-- Where the lock is free, a look of a call that waits can run to its end. -/
theorem look_run (process : τ → π) (h : Orderly s) (hlock : s.lock = none)
    (ht : (s.phase t).betweenLooks = true) :
    ∃ labels s', GoesOn process t labels ∧ .act t .write ∈ labels ∧
      (queueing process).run s labels = some s' := by
  have hqueued := (h.stands t).queued (Phase.queued_of_betweenLooks ht)
  have hunlocked : (s.phase t).mutating = false := by
    by_contra hmutating
    have hheld := (h.stands t).locked (by simpa using hmutating)
    rw [hlock] at hheld
    cases hheld
  -- From the wait for the lock: the lock, the read, and the reap.
  have hwaiting : ∀ s₀ : World τ, s₀.lock = none → t ∈ s₀.tickets →
      s₀.phase t = .waiting .look → ∃ labels s', GoesOn process t labels ∧
        .act t .write ∈ labels ∧ (queueing process).run s₀ labels = some s' := by
    intro s₀ hlock₀ hmem hphase
    cases hread : s₀.file.read with
    | none => simp [World.tickets, hread] at hmem
    | some tickets =>
      let locked : World τ := { s₀.goto t (.reading .look) with lock := some t }
      have hreaping : (locked.goto t (.reaping .look tickets [])).phase t =
        .reaping .look tickets [] := Function.update_self ..
      obtain ⟨labels, s', hgoes, hlooks, hrun⟩ := reap_run process tickets [] hreaping
      refine ⟨.act t .take :: .act t .read :: labels, s', fun label hin => ?_,
        List.mem_cons_of_mem _ (List.mem_cons_of_mem _ hlooks), ?_⟩
      · rcases List.mem_cons.mp hin with rfl | hin
        · exact ⟨rfl, .take, rfl⟩
        · rcases List.mem_cons.mp hin with rfl | hin
          · exact ⟨rfl, .read, rfl⟩
          · exact hgoes label hin
      · rw [System.run_cons]
        refine Option.bind_eq_some_iff.mpr ⟨locked, ?_, ?_⟩
        · simp [queueing, World.step, World.act, hphase, hlock₀, locked]
        · refine Option.bind_eq_some_iff.mpr ⟨_, ?_, hrun⟩
          simp [queueing, World.step, World.act, World.goto, hread, locked]
  cases hphase : s.phase t with
  | waiting job =>
    rw [hphase] at ht
    obtain rfl : job = .look := by cases job <;> first | rfl | cases ht
    exact hwaiting s hlock hqueued hphase
  | looked =>
    obtain ⟨labels, s', hgoes, hlooks, hrun⟩ :=
      hwaiting (s.goto t (.waiting .look)) hlock hqueued (Function.update_self ..)
    refine ⟨.act t .again :: labels, s', fun label hin => ?_,
      List.mem_cons_of_mem _ hlooks, ?_⟩
    · rcases List.mem_cons.mp hin with rfl | hin
      · exact ⟨rfl, .again, rfl⟩
      · exact hgoes label hin
    · rw [System.run_cons]
      refine Option.bind_eq_some_iff.mpr ⟨_, ?_, hrun⟩
      simp [queueing, World.step, World.act, hphase]
  | reading job =>
    rw [hphase] at hunlocked
    cases hunlocked
  | written job atHead =>
    rw [hphase] at hunlocked
    cases hunlocked
  | _ =>
    rw [hphase] at ht
    cases ht

/-- In every state of every run: one call has the turn at a time; the turns were granted in
the order of the pushes, and nobody who waits was pushed before one who was granted the
turn; and where everybody ahead of a call that waits is gone, its next look that runs to its
end gives it the turn whatever the others do, and does so where the state lock is free. -/
theorem turn_exclusive_fifo (process : τ → π) {s : World τ}
    (h : (queueing process).Reachable s) :
    (∀ t u, (s.phase t).holds = true → (s.phase u).holds = true → t = u) ∧
      (s.pushed.Nodup ∧ s.granted.Sublist s.pushed ∧
        ∀ t ∈ s.granted, ∀ u, (s.phase u).waits = true → ¬ [u, t].Sublist s.pushed) ∧
      ∀ t, (s.phase t).betweenLooks = true →
        (∀ u ∈ ahead t s.tickets, (s.phase u).live = false) →
          (∀ labels s', (queueing process).run s labels = some s' →
            (∀ label ∈ labels, label.ends process t = false) → .act t .write ∈ labels →
              t ∈ s'.granted) ∧
          (s.lock = none → ∃ labels s', GoesOn process t labels ∧
            (queueing process).run s labels = some s' ∧ t ∈ s'.granted) := by
  have horder := Orderly.of_reachable h
  refine ⟨fun t u ht hu => ?_, ⟨horder.fifo.nodup, horder.fifo.served_sublist,
    fun t ht u hu => ?_⟩, fun t ht hahead => ?_⟩
  · have hhead := (horder.stands t).head ht
    rw [(horder.stands u).head hu] at hhead
    exact (Option.some.inj hhead).symm
  · apply horder.fifo.not_overtaken ht
    have hungranted := (horder.stands u).ungranted (by rw [hu]; rfl)
    have hqueued := (horder.stands u).queued (by simp [Phase.queued, hu])
    exact List.mem_filter.mpr ⟨hqueued, by simpa using hungranted⟩
  · have hclear : s.Clear t := Or.inl ⟨ht, hahead⟩
    refine ⟨fun labels s' hrun hgoes hlooks => hclear.granted_of_run horder hrun hgoes hlooks,
      fun hlock => ?_⟩
    obtain ⟨labels, s', hgoes, hlooks, hrun⟩ := look_run process horder hlock ht
    exact ⟨labels, s', hgoes, hrun,
      hclear.granted_of_run horder hrun (fun label hin => (hgoes label hin).1) hlooks⟩

/-- No queue yet, and two calls to come. -/
def noQueue : World Bool where
  file := .absent
  lock := none
  leases := fun _ => Flock.free
  phase := fun _ => .idle
  pushed := []
  granted := []

theorem noQueue_initial : (queueing (id : Bool → Bool)).Initial noQueue :=
  ⟨rfl, fun _ => rfl, fun _ => Or.inl rfl, List.nodup_nil, fun _ h => (nomatch h), rfl, rfl⟩

/-- The lock, the read, so many probes, the write, and the lock let go. -/
def mutates (t : Bool) (probes : Nat) : List (Label Bool Bool) :=
  (.act t .take :: .act t .read :: List.replicate probes (.act t .probe)) ++
    [.act t .write, .act t .release]

/-- The first call gets the turn, the second queues behind it, and the first one's process
dies. -/
def outlived : List (Label Bool Bool) :=
  .act false .claim :: mutates false 0 ++ mutates false 1 ++ .act true .claim :: mutates true 1 ++
    [.die false]

theorem outlived_runs :
    ((queueing (id : Bool → Bool)).run noQueue outlived).isSome := by decide

/-- The queue with the dead call's ticket at its head. -/
def stranded : World Bool := ((queueing (id : Bool → Bool)).run noQueue outlived).get outlived_runs

example : stranded.tickets = [false, true] ∧ stranded.granted = [false] ∧
    (stranded.phase true).betweenLooks = true := by decide

theorem turn_exclusive_fifo_stranded :
    (∀ t u, (stranded.phase t).holds = true → (stranded.phase u).holds = true → t = u) ∧
      (stranded.pushed.Nodup ∧ stranded.granted.Sublist stranded.pushed ∧
        ∀ t ∈ stranded.granted, ∀ u, (stranded.phase u).waits = true →
          ¬ [u, t].Sublist stranded.pushed) ∧
      ∀ t, (stranded.phase t).betweenLooks = true →
        (∀ u ∈ ahead t stranded.tickets, (stranded.phase u).live = false) →
          (∀ labels s', (queueing (id : Bool → Bool)).run stranded labels = some s' →
            (∀ label ∈ labels, label.ends id t = false) → .act t .write ∈ labels →
              t ∈ s'.granted) ∧
          (stranded.lock = none → ∃ labels s', GoesOn (id : Bool → Bool) t labels ∧
            (queueing (id : Bool → Bool)).run stranded labels = some s' ∧ t ∈ s'.granted) :=
  turn_exclusive_fifo id (System.reachable_of_run noQueue_initial
    (Option.some_get outlived_runs).symm)

end Onevcs.Queue
