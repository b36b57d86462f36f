import Mathlib.Logic.Relation
import Onevcs.Queue.TurnRuns

/-!
# The queue serves whoever waits

Whatever deaths and failures the queue has been through, a call that waits can still be given
the turn, and nobody has to die, to fail or to give up its wait for it. The call that has the
state lock lets it go; and as long as the first live ticket of the queue is another's, its call
goes on until it is gone, which leaves one live ticket less.
-/

set_option linter.unusedSectionVars false

namespace Onevcs.Queue

open Foundations (System)
open Relation (ReflTransGen)

variable {τ π : Type} [DecidableEq τ] [DecidableEq π] {s s' : World τ} {t u v : τ}
  {phase : Phase τ} {job : Job} {unprobed live : List τ} {process : τ → π}

/-- Neither a mutation that fails nor a wait that is given up. -/
def Act.onward : Act → Bool
  | .fail | .cancel => false
  | _ => true

/-- Neither a death, nor a mutation that fails, nor a wait that is given up. -/
def Label.onward : Label τ π → Bool
  | .act _ taken => taken.onward
  | .die _ => false

/-- A call goes on by a step. -/
def Goes (u : τ) (s s' : World τ) : Prop :=
  ∃ act : Act, act.onward = true ∧ s.act u act = some s'

/-- The tickets whose calls are live, in the order of the queue. -/
def World.liveTickets (s : World τ) : List τ := s.tickets.filter fun v => (s.phase v).live

theorem Goes.orderly (hgoes : ReflTransGen (Goes u) s s') (h : Orderly s) : Orderly s' := by
  induction hgoes with
  | refl => exact h
  | tail _ hlast ih =>
    obtain ⟨act, -, hs⟩ := hlast
    exact ih.act hs

theorem Goes.phase_other (hgoes : ReflTransGen (Goes u) s s') (hne : v ≠ u) :
    s'.phase v = s.phase v := by
  induction hgoes with
  | refl => rfl
  | tail _ hlast ih =>
    obtain ⟨act, -, hs⟩ := hlast
    rw [act_phase_other hs hne, ih]

/-- A call that goes on and stays live leaves every call as live as it was. -/
theorem live_goto (hlive : phase.live = (s.phase u).live) (w : τ) :
    ((s.goto u phase).phase w).live = (s.phase w).live := by
  by_cases hw : w = u
  · subst hw
    simp [World.goto, hlive]
  · simp [World.goto, hw]

/-! ## A mutation runs to its end -/

/-- A reap keeps the tickets whose calls are live. -/
theorem reaps (h : Orderly s) (hphase : s.phase u = .reaping job unprobed live) :
    ReflTransGen (Goes u) s
      (s.goto u (.reaping job [] (live ++ unprobed.filter fun v => (s.phase v).live))) := by
  induction unprobed generalizing s live with
  | nil =>
    have hself : s.goto u (.reaping job [] live) = s := by
      rw [World.goto, ← hphase, Function.update_eq_self]
    rw [List.filter_nil, List.append_nil, hself]
  | cons v unprobed ih =>
    let kept := live ++ if (s.phase v).live then [v] else []
    have hprobe : s.act u .probe = some (s.goto u (.reaping job unprobed kept)) := by
      simp only [World.act, hphase, h.grants_iff]
      cases hlive : (s.phase v).live <;> simp [kept, hlive]
    have hrest := ih (h.act hprobe) (Function.update_self u _ s.phase)
    -- The probes say of the others what they said before the call went on.
    have hsame : ∀ w, ((s.goto u (.reaping job unprobed kept)).phase w).live
        = (s.phase w).live := live_goto (by rw [hphase]; rfl)
    have hkept : kept ++ unprobed.filter (fun w => (s.phase w).live)
        = live ++ (v :: unprobed).filter fun w => (s.phase w).live := by
      cases hlive : (s.phase v).live <;> simp [kept, hlive]
    simp only [hsame, hkept] at hrest
    apply ReflTransGen.head ⟨.probe, rfl, hprobe⟩
    simpa [World.goto] using hrest

/-- A reap goes on to the write, and to the lock let go. -/
theorem writes (h : Orderly s) (hphase : s.phase u = .reaping job unprobed live) :
    ∃ kept, kept = live ++ unprobed.filter (fun v => (s.phase v).live) ∧
      ReflTransGen (Goes u) s
        { (s.write u job kept).goto u (job.next (job.wins u kept)) with lock := none } := by
  let kept := live ++ unprobed.filter fun v => (s.phase v).live
  have hwrite : (s.goto u (.reaping job [] kept)).act u .write = some (s.write u job kept) := by
    simp [World.act, World.goto, World.write]
  have hrelease : (s.write u job kept).act u .release =
      some { (s.write u job kept).goto u (job.next (job.wins u kept)) with lock := none } := by
    simp [World.act, World.goto, World.write]
  have hreaped := (reaps h hphase).tail ⟨.write, rfl, hwrite⟩
  exact ⟨kept, rfl, hreaped.tail ⟨.release, rfl, hrelease⟩⟩

/-- A call that waits for the free lock of a queue it is in goes through its mutation. -/
theorem mutation (h : Orderly s) (hlock : s.lock = none) (hphase : s.phase u = .waiting job)
    (hu : u ∈ s.tickets) :
    ∃ s', ReflTransGen (Goes u) s s' ∧ s'.lock = none ∧
      s'.phase u = job.next (job.wins u s.liveTickets) ∧
      s'.tickets = job.change u s.liveTickets ∧
      (job.wins u s.liveTickets = true → u ∈ s'.granted) := by
  obtain ⟨tickets, hread⟩ : ∃ tickets, s.file.read = some tickets := by
    cases hread : s.file.read with
    | none => simp [World.tickets, hread] at hu
    | some tickets => exact ⟨tickets, rfl⟩
  have htickets : s.tickets = tickets := by simp [World.tickets, hread]
  let locked : World τ := { s.goto u (.reading job) with lock := some u }
  have htake : s.act u .take = some locked := by simp [World.act, hphase, hlock, locked]
  have hlooked : locked.act u .read = some (locked.goto u (.reaping job tickets [])) := by
    simp [World.act, World.goto, locked, hread]
  have horder := (h.act htake).act hlooked
  obtain ⟨kept, hkept, hgoes⟩ := writes horder (Function.update_self u _ locked.phase)
  have hlive : kept = s.liveTickets := by
    rw [hkept, List.nil_append, World.liveTickets, htickets]
    apply List.filter_congr
    intro w _
    have hreading : (locked.phase w).live = (s.phase w).live :=
      live_goto (by rw [hphase]; rfl) w
    rw [live_goto (by simp [locked, World.goto, Phase.live]), hreading]
  refine ⟨_, (hgoes.head ⟨.read, rfl, hlooked⟩).head ⟨.take, rfl, htake⟩, rfl, ?_, ?_, ?_⟩
  · rw [hlive]
    exact Function.update_self ..
  · rw [hlive]
    rfl
  · rw [hlive]
    intro hwins
    simp [World.write, World.goto, hwins]

/-- Whoever has the state lock lets it go. -/
theorem frees (h : Orderly s) (hv : (s.phase v).mutating = true) :
    ∃ s', ReflTransGen (Goes v) s s' ∧ s'.lock = none := by
  have hreaping : ∀ s₁ : World τ, Orderly s₁ → ∀ job unprobed live,
      s₁.phase v = .reaping job unprobed live →
        ∃ s', ReflTransGen (Goes v) s₁ s' ∧ s'.lock = none := by
    intro s₁ h₁ job unprobed live hphase
    obtain ⟨kept, -, hgoes⟩ := writes h₁ hphase
    exact ⟨_, hgoes, rfl⟩
  cases hphase : s.phase v with
  | reading job =>
    cases hread : s.file.read with
    | none =>
      have hs : s.act v .read = some { s.goto v .leaving with lock := none } := by
        simp [World.act, hphase, hread]
      exact ⟨_, .single ⟨.read, rfl, hs⟩, rfl⟩
    | some tickets =>
      have hs : s.act v .read = some (s.goto v (.reaping job tickets [])) := by
        simp [World.act, hphase, hread]
      obtain ⟨s', hgoes, hlock⟩ :=
        hreaping _ (h.act hs) _ _ _ (Function.update_self v _ s.phase)
      exact ⟨s', hgoes.head ⟨.read, rfl, hs⟩, hlock⟩
  | reaping job unprobed live => exact hreaping s h job unprobed live hphase
  | written job atHead =>
    have hs : s.act v .release = some { s.goto v (job.next atHead) with lock := none } := by
      simp [World.act, hphase]
    exact ⟨_, .single ⟨.release, rfl, hs⟩, rfl⟩
  | _ =>
    rw [hphase] at hv
    cases hv

/-! ## The first live ticket's call is done -/

/-- A call has gone on until it is gone, and nothing new is queued. -/
structure Finishes (u : τ) (s s' : World τ) : Prop where
  goes : ReflTransGen (Goes u) s s'
  unlocked : s'.lock = none
  gone : (s'.phase u).live = false
  tickets : s'.tickets.Sublist s.tickets

theorem Finishes.head {s₁ : World τ} (h : Finishes u s₁ s') (hgoes : ReflTransGen (Goes u) s s₁)
    (hsub : s₁.tickets.Sublist s.tickets) : Finishes u s s' :=
  ⟨hgoes.trans h.goes, h.unlocked, h.gone, h.tickets.trans hsub⟩

theorem leaves (hlock : s.lock = none) (hphase : s.phase u = .leaving) :
    ∃ s', Finishes u s s' := by
  have hs : s.act u .leave = some { s.goto u .finished with
      leases := Function.update s.leases u ((s.leases u).drop u) } := by
    simp [World.act, hphase]
  refine ⟨_, .single ⟨.leave, rfl, hs⟩, hlock, ?_, .refl _⟩
  simp [World.goto, Phase.live]

/-- A ticket is taken back, by a call that gave up its wait or that had its turn. -/
theorem takesBack (h : Orderly s) (hlock : s.lock = none) (hphase : s.phase u = .waiting job)
    (hjob : job = .withdraw ∨ job = .dequeue) : ∃ s', Finishes u s s' := by
  have hu : u ∈ s.tickets := by
    apply (h.stands u).queued
    rcases hjob with rfl | rfl <;> rw [hphase] <;> rfl
  obtain ⟨s₁, hgoes, hunlocked, hnext, htickets, -⟩ := mutation h hlock hphase hu
  have hleaving : s₁.phase u = .leaving := by
    rcases hjob with rfl | rfl <;> exact hnext
  have hsub : s₁.tickets.Sublist s.tickets := by
    rw [htickets]
    rcases hjob with rfl | rfl <;> exact List.filter_sublist.trans List.filter_sublist
  obtain ⟨s', hfinishes⟩ := leaves hunlocked hleaving
  exact ⟨s', hfinishes.head hgoes hsub⟩

/-- The first call that is live gets the turn by its next look. -/
theorem looks (h : Orderly s) (hlock : s.lock = none)
    (hphase : s.phase u = .waiting .look ∨ s.phase u = .looked)
    (hfirst : s.liveTickets.head? = some u) :
    ∃ s', ReflTransGen (Goes u) s s' ∧ s'.lock = none ∧ s'.phase u = .holding ∧
      s'.tickets.Sublist s.tickets ∧ u ∈ s'.granted := by
  have hu : u ∈ s.tickets := List.mem_of_mem_filter (List.mem_of_mem_head? hfirst)
  have hwaiting : ∀ s₁ : World τ, Orderly s₁ → s₁.lock = none → s₁.phase u = .waiting .look →
      s₁.tickets = s.tickets → s₁.liveTickets = s.liveTickets →
        ∃ s', ReflTransGen (Goes u) s₁ s' ∧ s'.lock = none ∧ s'.phase u = .holding ∧
          s'.tickets.Sublist s.tickets ∧ u ∈ s'.granted := by
    intro s₁ h₁ hlock₁ hphase₁ htickets₁ hlive₁
    have hwins : Job.look.wins u s₁.liveTickets = true := by simp [Job.wins, hlive₁, hfirst]
    obtain ⟨s', hgoes, hunlocked, hnext, htickets, hgranted⟩ :=
      mutation h₁ hlock₁ hphase₁ (htickets₁ ▸ hu)
    refine ⟨s', hgoes, hunlocked, ?_, ?_, hgranted hwins⟩
    · rw [hnext, hwins]
      rfl
    · rw [htickets, hlive₁]
      exact List.filter_sublist
  rcases hphase with hphase | hphase
  · exact hwaiting s h hlock hphase rfl rfl
  · have hs : s.act u .again = some (s.goto u (.waiting .look)) := by
      simp [World.act, hphase]
    have hlive : (s.goto u (.waiting .look)).liveTickets = s.liveTickets := by
      apply List.filter_congr
      exact fun w _ => live_goto (by rw [hphase]; rfl) w
    obtain ⟨s', hgoes, hrest⟩ :=
      hwaiting _ (h.act hs) hlock (Function.update_self u _ s.phase) rfl hlive
    exact ⟨s', hgoes.head ⟨.again, rfl, hs⟩, hrest⟩

/-- Where the lock is free, no call is in the middle of a mutation. -/
theorem not_mutating (h : Orderly s) (hlock : s.lock = none) : (s.phase u).mutating = false := by
  by_contra hmutating
  have hheld := (h.stands u).locked (by simpa using hmutating)
  rw [hlock] at hheld
  cases hheld

/-- The call of the first live ticket has its turn, or takes its ticket back, and is gone. -/
theorem finishes (h : Orderly s) (hlock : s.lock = none)
    (hfirst : s.liveTickets.head? = some u) : ∃ s', Finishes u s s' := by
  obtain ⟨hu, hlive⟩ := List.mem_filter.mp (List.mem_of_mem_head? hfirst)
  have hunlocked := not_mutating (u := u) h hlock
  have hdrops : ∀ s₁ : World τ, Orderly s₁ → s₁.lock = none → s₁.phase u = .holding →
      ∃ s', Finishes u s₁ s' := by
    intro s₁ h₁ hlock₁ hphase
    have hs : s₁.act u .drop = some (s₁.goto u (.waiting .dequeue)) := by
      simp [World.act, hphase]
    obtain ⟨s', hfinishes⟩ := takesBack (h₁.act hs) hlock₁
      (Function.update_self u _ s₁.phase) (.inr rfl)
    exact ⟨s', hfinishes.head (.single ⟨.drop, rfl, hs⟩) (.refl _)⟩
  have hlooks : s.phase u = .waiting .look ∨ s.phase u = .looked → ∃ s', Finishes u s s' := by
    intro hphase
    obtain ⟨s₁, hgoes, hlock₁, hphase₁, hsub, -⟩ := looks h hlock hphase hfirst
    obtain ⟨s', hfinishes⟩ := hdrops s₁ (Goes.orderly hgoes h) hlock₁ hphase₁
    exact ⟨s', hfinishes.head hgoes hsub⟩
  cases hphase : s.phase u with
  | waiting job =>
    cases job with
    | push =>
      -- The ticket would not be queued yet.
      have hunpushed := (h.stands u).unpushed (by rw [hphase]; rfl)
      exact absurd (h.pushed_of_mem hu) hunpushed
    | look => exact hlooks (.inl hphase)
    | withdraw => exact takesBack h hlock hphase (.inl rfl)
    | dequeue => exact takesBack h hlock hphase (.inr rfl)
  | looked => exact hlooks (.inr hphase)
  | holding => exact hdrops s h hlock hphase
  | leaving => exact leaves hlock hphase
  | _ => simp [hphase, Phase.live, Phase.mutating] at hlive hunlocked

/-! ## Everybody who waits is served -/

/-- A step lets the lock go, takes it, or leaves it with whoever has it. -/
theorem lock_cases {act : Act} (hs : s.act u act = some s') :
    s'.lock = none ∨ (s'.lock = some u ∧ (s'.phase u).mutating = true) ∨
      (s'.lock = s.lock ∧ (s'.phase u).mutating = (s.phase u).mutating) := by
  unfold World.act at hs
  split at hs
  case h_14 => cases hs
  all_goals
    try split at hs
  all_goals
    first
    | obtain rfl := Option.some.inj hs
      simp [World.goto, World.write, Phase.mutating, *]
    | cases hs

/-- Whoever has the state lock is in the middle of a mutation. -/
theorem mutating_of_lock (h : (queueing process).Reachable s) :
    ∀ v, s.lock = some v → (s.phase v).mutating = true := by
  induction h with
  | start h =>
    intro v hv
    rw [h.1] at hv
    cases hv
  | @step s s' label _ _ hs ih =>
    intro v hv
    cases label with
    | act u act =>
      by_cases hvu : v = u
      · subst hvu
        rcases lock_cases hs with hfree | ⟨-, hmutating⟩ | ⟨hlock, hmutating⟩
        · rw [hfree] at hv
          cases hv
        · exact hmutating
        · rw [hmutating]
          exact ih v (hlock ▸ hv)
      · rw [act_phase_other hs hvu]
        rcases lock_cases hs with hfree | ⟨htaken, -⟩ | ⟨hlock, -⟩
        · rw [hfree] at hv
          cases hv
        · exact absurd (Option.some.inj (hv.symm.trans htaken)) hvu
        · exact ih v (hlock ▸ hv)
    | die p =>
      obtain rfl := Option.some.inj hs
      obtain ⟨hheld, hprocess⟩ := Option.filter_eq_some_iff.mp hv
      have hne : process v ≠ p := by simpa using hprocess
      simp only [World.die, if_neg hne]
      exact ih v hheld

theorem granted_act {act : Act} (hs : s.act u act = some s') (ht : t ∈ s.granted) :
    t ∈ s'.granted := by
  have hstep : s.step id (.act u act : Label τ τ) = some s' := hs
  exact granted_step hstep ht

/-- A call that waits and goes on waits for the turn still, or has been given it. -/
theorem waits_or_granted (h : Orderly s) (ht : (s.phase t).waits = true) (hgoes : Goes u s s') :
    (s'.phase t).waits = true ∨ t ∈ s'.granted := by
  obtain ⟨act, honward, hs⟩ := hgoes
  by_cases htu : t = u
  · subst htu
    have hmem := (h.stands t).queued (by simp [Phase.queued, ht])
    unfold World.act at hs
    split at hs
    case h_14 => cases hs
    case h_2 job hphase =>
      obtain rfl : job = .look := by cases job <;> simp_all [Phase.waits]
      split at hs
      · obtain rfl := Option.some.inj hs
        simp [World.goto, Phase.waits]
      · cases hs
    case h_3 job hphase =>
      obtain rfl : job = .look := by cases job <;> simp_all [Phase.waits]
      split at hs
      · obtain rfl := Option.some.inj hs
        simp [World.goto, Phase.waits]
      · -- The file reads, as the call's own ticket is in it.
        simp_all [World.tickets]
    case h_4 job _ _ _ hphase =>
      obtain rfl : job = .look := by cases job <;> simp_all [Phase.waits]
      split at hs
      all_goals
        obtain rfl := Option.some.inj hs
        simp [World.goto, Phase.waits]
    case h_5 job live hphase =>
      obtain rfl := Option.some.inj hs
      obtain rfl : job = .look := by cases job <;> simp_all [Phase.waits]
      cases hwins : Job.look.wins t live with
      | true => simp [World.write, hwins]
      | false => simp [World.write, World.goto, Phase.waits, hwins]
    case h_6 job atHead hphase =>
      obtain rfl := Option.some.inj hs
      rw [hphase] at ht
      cases job with
      | push => simp [World.goto, Job.next, Phase.waits]
      | look =>
        obtain rfl : atHead = false := by simpa [Phase.waits] using ht
        simp [World.goto, Job.next, Phase.waits]
      | withdraw => cases ht
      | dequeue => cases ht
    case h_10 =>
      obtain rfl := Option.some.inj hs
      simp [World.goto, Phase.waits]
    -- The other steps are not those of a call that waits, or not steps on.
    all_goals simp_all [Phase.waits, Act.onward]
  · rw [act_phase_other hs htu]
    exact .inl ht

theorem waits_or_granted_of_goes (h : Orderly s) (ht : (s.phase t).waits = true)
    (hgoes : ReflTransGen (Goes u) s s') : (s'.phase t).waits = true ∨ t ∈ s'.granted := by
  induction hgoes with
  | refl => exact .inl ht
  | tail hgoes hlast ih =>
    rcases ih with hwaits | hgranted
    · exact waits_or_granted (Goes.orderly hgoes h) hwaits hlast
    · obtain ⟨act, -, hs⟩ := hlast
      exact .inr (granted_act hs hgranted)

/-- Some call goes on by a step. -/
def Onward (s s' : World τ) : Prop := ∃ u, Goes u s s'

theorem onward_of_goes (hgoes : ReflTransGen (Goes u) s s') : ReflTransGen Onward s s' :=
  ReflTransGen.mono (fun _ _ hstep => ⟨u, hstep⟩) _ _ hgoes

/-- Where the lock is free, the calls go on one after the other, in the order of their tickets,
until the one that waits is served. -/
theorem served_of_unlocked (n : ℕ) (hn : s.liveTickets.length = n) (h : Orderly s)
    (hlock : s.lock = none) (ht : (s.phase t).waits = true) :
    ∃ s', ReflTransGen Onward s s' ∧ t ∈ s'.granted := by
  induction n using Nat.strong_induction_on generalizing s with
  | _ n ih =>
    have hqueued : (s.phase t).queued = true := by simp [Phase.queued, ht]
    have hmem : t ∈ s.liveTickets :=
      List.mem_filter.mpr ⟨(h.stands t).queued hqueued, Phase.live_of_queued hqueued⟩
    obtain ⟨u, hfirst⟩ : ∃ u, s.liveTickets.head? = some u := by
      cases hlive : s.liveTickets with
      | nil => simp [hlive] at hmem
      | cons u _ => exact ⟨u, rfl⟩
    by_cases hut : u = t
    · -- Its own ticket is the first: its next look gives it the turn.
      subst hut
      have hunlocked := not_mutating (u := u) h hlock
      have hphase : s.phase u = .waiting .look ∨ s.phase u = .looked := by
        cases hphase : s.phase u with
        | waiting job => cases job <;> simp_all [Phase.waits]
        | looked => exact .inr rfl
        | _ => simp_all [Phase.waits, Phase.mutating]
      obtain ⟨s', hgoes, -, -, -, hgranted⟩ := looks h hlock hphase hfirst
      exact ⟨s', onward_of_goes hgoes, hgranted⟩
    · obtain ⟨s₁, hfinishes⟩ := finishes h hlock hfirst
      have hother : ∀ w, w ≠ u → s₁.phase w = s.phase w :=
        fun w hw => Goes.phase_other hfinishes.goes hw
      have hfewer : s₁.liveTickets.Sublist (s.liveTickets.filter fun w => w ≠ u) := by
        have hsame : (s.tickets.filter fun w => (s₁.phase w).live)
            = s.liveTickets.filter fun w => w ≠ u := by
          rw [World.liveTickets, List.filter_filter]
          apply List.filter_congr
          intro w _
          by_cases hw : w = u
          · simp [hw, hfinishes.gone]
          · simp [hw, hother w hw]
        rw [← hsame]
        exact hfinishes.tickets.filter _
      have hlt : s₁.liveTickets.length < n := by
        apply hfewer.length_le.trans_lt
        rw [← hn, List.length_filter_lt_length_iff_exists]
        exact ⟨u, List.mem_of_mem_head? hfirst, by simp⟩
      obtain ⟨s', hgoes, hgranted⟩ := ih _ hlt rfl (Goes.orderly hfinishes.goes h)
        hfinishes.unlocked (by rwa [hother t (Ne.symm hut)])
      exact ⟨s', (onward_of_goes hfinishes.goes).trans hgoes, hgranted⟩

theorem run_of_onward (process : τ → π) (hgoes : ReflTransGen Onward s s') :
    ∃ labels, (∀ label ∈ labels, label.onward = true) ∧
      (queueing process).run s labels = some s' := by
  induction hgoes using ReflTransGen.head_induction_on with
  | refl => exact ⟨[], by simp, rfl⟩
  | head hstep _ ih =>
    obtain ⟨u, act, honward, hs⟩ := hstep
    obtain ⟨labels, hlabels, hrun⟩ := ih
    refine ⟨.act u act :: labels, List.forall_mem_cons.mpr ⟨honward, hlabels⟩, ?_⟩
    rw [System.run_cons]
    exact Option.bind_eq_some_iff.mpr ⟨_, hs, hrun⟩

/-- From every state the queue can come to, whoever died or failed on the way there, a call
that waits can be given the turn by a run in which nobody dies, no mutation fails and no wait
is given up. -/
theorem waiting_served (process : τ → π) (h : (queueing process).Reachable s)
    (ht : (s.phase t).waits = true) :
    ∃ labels s', (∀ label ∈ labels, label.onward = true) ∧
      (queueing process).run s labels = some s' ∧ t ∈ s'.granted := by
  have horder := Orderly.of_reachable h
  have hserved : ∃ s', ReflTransGen Onward s s' ∧ t ∈ s'.granted := by
    cases hlock : s.lock with
    | none => exact served_of_unlocked _ rfl horder hlock ht
    | some v =>
      obtain ⟨s₁, hgoes, hunlocked⟩ := frees horder (mutating_of_lock h v hlock)
      rcases waits_or_granted_of_goes horder ht hgoes with hwaits | hgranted
      · obtain ⟨s', hrest, hgranted⟩ :=
          served_of_unlocked _ rfl (Goes.orderly hgoes horder) hunlocked hwaits
        exact ⟨s', (onward_of_goes hgoes).trans hrest, hgranted⟩
      · exact ⟨s₁, onward_of_goes hgoes, hgranted⟩
  obtain ⟨s', hgoes, hgranted⟩ := hserved
  obtain ⟨labels, hlabels, hrun⟩ := run_of_onward process hgoes
  exact ⟨labels, s', hlabels, hrun, hgranted⟩

theorem waiting_served_stranded : ∃ labels s', (∀ label ∈ labels, label.onward = true) ∧
    (queueing (id : Bool → Bool)).run stranded labels = some s' ∧ true ∈ s'.granted :=
  waiting_served id
    (System.reachable_of_run noQueue_initial (Option.some_get outlived_runs).symm) (by decide)

end Onevcs.Queue
