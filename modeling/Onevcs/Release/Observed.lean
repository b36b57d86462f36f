import Onevcs.Foundations.Flock
import Onevcs.Foundations.Transition
import Onevcs.Release.Records

/-!
# Observing a release

`observe` of `release.rs`, as any number of processes of one host run it for one identity, beside
every other change of the release record. A process reads the record under the record's lock,
replaces the document, lets the lock go, and then emits the event of what it inserted. It may be
refused the lock or the replacement, and may die at any point.

What a process read before, and what its probe answered, is outside the lock and decides nothing
here: it may set out to observe any version of any target at any landing.
-/

namespace Onevcs.Release.Records

open Foundations (Text System Flock)

/-- A release of a target at a landing, as a status found it. -/
structure Observation where
  target : Text
  style : Text
  commit : Text
  version : Text
  deriving DecidableEq

def Observation.key (observation : Observation) : Text × Text :=
  (observation.target, observation.commit)

inductive Change
  | observe (observation : Observation)
  | writeBaseline (target commit : Text) (baseline : BaselineRecord)
  | establish (target commit : Text) (baseline : Baseline)
  | acknowledge (asked : Recording)

variable {υ π : Type}

/-- What a change makes of a record, and the release to emit the event of. -/
def Change.apply (record : Record υ) : Change → Except Error (Option Observation × Record υ)
  | .observe observation =>
    let made := record.observe observation.target observation.commit observation.version
    .ok (if made.1 then some observation else none, made.2)
  | .writeBaseline target commit baseline =>
    .ok (none, record.writeBaseline target commit baseline)
  | .establish target commit baseline => .ok (none, record.establish target commit baseline)
  | .acknowledge asked =>
    (record.writeAcknowledgement asked).map fun made => (none, made.2)

def Document.observed (key : Text × Text) : Document υ → Option Text
  | .missing | .unreadable => none
  | .held record => record.observed.find key.1 key.2

/-- Where a process stands in a change. -/
inductive Phase (υ : Type)
  | idle
  | waiting (change : Change)
  -- the lock is held, and nothing is read
  | locked (change : Change)
  -- the change is made over what was read
  | changed (record : Record υ) (event : Option Observation)
  -- the update is over, and the lock is about to be let go
  | leaving (event : Option Observation)
  | emitting (event : Observation)

def Phase.holds : Phase υ → Bool
  | .locked _ | .changed .. | .leaving _ => true
  | .idle | .waiting _ | .emitting _ => false

/-- The event of a release that is recorded and is not emitted yet. -/
def Phase.pending : Phase υ → Option Observation
  | .leaving event => event
  | .emitting event => some event
  | .idle | .waiting _ | .locked _ | .changed .. => none

/-- The document, its lock, the processes, and the events that were emitted. -/
structure Observers (υ π : Type) where
  document : Document υ
  lock : Flock π
  phase : π → Phase υ
  emitted : List Observation

/-- What a process does next. -/
inductive Act
  | start (change : Change)
  -- the wait for the lock is over
  | lock (granted : Bool)
  | read
  | replace (done : Bool)
  | release
  | emit
  -- the process dies, and the kernel lets its lock go
  | die

section Steps

variable [Inhabited υ] [DecidableEq π] (semver : Text → Bool) (identity : Text)

namespace Observers

variable (s : Observers υ π) (p : π)

/-- The process stands elsewhere. -/
def goto (phase : Phase υ) : Observers υ π :=
  { s with phase := Function.update s.phase p phase }

/-- What is read under the lock, and the change over it. -/
def readChanged (change : Change) : Phase υ :=
  match readAt semver identity s.document with
  | .error _ => .leaving none
  | .ok record =>
    match change.apply record with
    | .error _ => .leaving none
    | .ok (event, changed) => .changed changed event

def act : Act → Option (Observers υ π)
  | .start change =>
    match s.phase p with
    | .idle => some (s.goto p (.waiting change))
    | _ => none
  | .lock granted =>
    match s.phase p with
    | .waiting change =>
      if granted then
        (s.lock.take p .exclusive).map fun lock =>
          { s.goto p (.locked change) with lock := lock }
      else some (s.goto p .idle)
    | _ => none
  | .read =>
    match s.phase p with
    | .locked change => some (s.goto p (s.readChanged semver identity change))
    | _ => none
  | .replace done =>
    match s.phase p with
    | .changed record event =>
      if done then some { s.goto p (.leaving event) with document := .held record }
      else some (s.goto p (.leaving none))
    | _ => none
  | .release =>
    match s.phase p with
    | .leaving event =>
      some { s.goto p ((event.map Phase.emitting).getD .idle) with lock := s.lock.drop p }
    | _ => none
  | .emit =>
    match s.phase p with
    | .emitting event => some { s.goto p .idle with emitted := s.emitted ++ [event] }
    | _ => none
  | .die => some { s.goto p .idle with lock := s.lock.drop p }

end Observers

/-- The processes of one host that change the record of one identity: at the start none does. -/
def observers : System (Observers υ π) (π × Act) where
  Initial s := s.lock = Flock.free ∧ (∀ p, s.phase p = .idle) ∧ s.emitted = []
  step s label := s.act semver identity label.1 label.2

end Steps

section Acts

variable [Inhabited υ] [DecidableEq π] {semver : Text → Bool} {identity : Text}
variable {s s' : Observers υ π} {p q : π} {act : Act}

variable (semver identity s p) in
/-- What a step of a process comes to. -/
inductive Acts : Observers υ π → Prop
  | moves {phase : Phase υ} : phase.holds = false → phase.pending = none →
      (s.phase p).holds = false → Acts (s.goto p phase)
  | locks {change : Change} {lock : Flock π} : s.lock.take p .exclusive = some lock →
      Acts { s.goto p (.locked change) with lock := lock }
  | reads {change : Change} {record changed : Record υ} {event : Option Observation} :
      (s.phase p).holds = true → readAt semver identity s.document = .ok record →
      change.apply record = .ok (event, changed) → Acts (s.goto p (.changed changed event))
  | fails : (s.phase p).holds = true → Acts (s.goto p (.leaving none))
  | replaces {record : Record υ} {event : Option Observation} :
      s.phase p = .changed record event →
      Acts { s.goto p (.leaving event) with document := .held record }
  | releases {phase : Phase υ} : phase.holds = false →
      (∀ event, phase.pending = some event → (s.phase p).pending = some event) →
      Acts { s.goto p phase with lock := s.lock.drop p }
  | emits {event : Observation} : s.phase p = .emitting event →
      Acts { s.goto p .idle with emitted := s.emitted ++ [event] }

theorem acts_of_act (h : s.act semver identity p act = some s') :
    Acts semver identity s p s' := by
  cases act with
  | start change =>
    rw [Observers.act] at h
    split at h
    · next hphase =>
      obtain rfl := Option.some.inj h
      exact .moves rfl rfl (by rw [hphase]; rfl)
    · cases h
  | lock granted =>
    rw [Observers.act] at h
    split at h
    · next change hphase =>
      cases granted with
      | true =>
        obtain ⟨lock, htake, rfl⟩ := Option.map_eq_some_iff.mp h
        exact .locks htake
      | false =>
        obtain rfl := Option.some.inj h
        exact .moves rfl rfl (by rw [hphase]; rfl)
    · cases h
  | read =>
    rw [Observers.act] at h
    split at h
    · next change hphase =>
      obtain rfl := Option.some.inj h
      have hholds : (s.phase p).holds = true := by rw [hphase]; rfl
      rw [Observers.readChanged]
      cases hread : readAt semver identity s.document with
      | error error => exact .fails hholds
      | ok record =>
        cases hchange : change.apply record with
        | error error => simpa only [hchange] using .fails hholds
        | ok made =>
          obtain ⟨event, changed⟩ := made
          simpa only [hchange] using .reads hholds hread hchange
    · cases h
  | replace done =>
    rw [Observers.act] at h
    split at h
    · next record event hphase =>
      cases done with
      | true =>
        obtain rfl := Option.some.inj h
        exact .replaces hphase
      | false =>
        obtain rfl := Option.some.inj h
        exact .fails (by rw [hphase]; rfl)
    · cases h
  | release =>
    rw [Observers.act] at h
    split at h
    · next event hphase =>
      obtain rfl := Option.some.inj h
      cases event with
      | none => exact .releases rfl nofun
      | some event => exact .releases rfl fun other hother => by rw [hphase]; exact hother
    · cases h
  | emit =>
    rw [Observers.act] at h
    split at h
    · next event hphase =>
      obtain rfl := Option.some.inj h
      exact .emits hphase
    · cases h
  | die =>
    obtain rfl := Option.some.inj h
    exact .releases rfl nofun

end Acts

section Changes

variable {record changed : Record υ} {change : Change} {event : Option Observation}
variable {observation : Observation} {key : Text × Text} {version : Text}

/-- What a record says was observed. -/
def Record.observedAt (record : Record υ) (key : Text × Text) : Option Text :=
  record.observed.find key.1 key.2

theorem observed_of_readAt [Inhabited υ] {semver : Text → Bool} {identity : Text}
    {document : Document υ} (h : readAt semver identity document = .ok record) :
    document.observed key = record.observedAt key := by
  rcases readAt_held h with rfl | ⟨rfl, rfl⟩
  · rfl
  · rfl

theorem observedAt_observe (h : record.observedAt key = some version) :
    (record.observe observation.target observation.commit observation.version).2.observedAt key =
      some version := by
  unfold Record.observe
  cases hfind : record.observed.find observation.target observation.commit with
  | some found => exact h
  | none =>
    have hne : key ≠ observation.key := by
      rintro rfl
      exact absurd (hfind.symm.trans h) nofun
    exact (Landings.find_record_of_ne hne).trans h

theorem observedAt_apply (h : change.apply record = .ok (event, changed))
    (hobserved : record.observedAt key = some version) :
    changed.observedAt key = some version := by
  cases change with
  | observe observation =>
    obtain ⟨-, rfl⟩ := Prod.mk.inj (Except.ok.inj h)
    exact observedAt_observe hobserved
  | writeBaseline target commit baseline =>
    obtain ⟨-, rfl⟩ := Prod.mk.inj (Except.ok.inj h)
    rw [Record.writeBaseline]
    split
    · exact hobserved
    · exact hobserved
  | establish target commit baseline =>
    obtain ⟨-, rfl⟩ := Prod.mk.inj (Except.ok.inj h)
    exact hobserved
  | acknowledge asked =>
    rw [Change.apply, Record.writeAcknowledgement] at h
    split at h
    · split at h
      · obtain ⟨-, rfl⟩ := Prod.mk.inj (Except.ok.inj h)
        exact hobserved
      · split at h
        · obtain ⟨-, rfl⟩ := Prod.mk.inj (Except.ok.inj h)
          exact hobserved
        · cases h
    · obtain ⟨-, rfl⟩ := Prod.mk.inj (Except.ok.inj h)
      exact hobserved

theorem event_of_apply (h : change.apply record = .ok (some observation, changed)) :
    record.observedAt observation.key = none ∧
      changed.observedAt observation.key = some observation.version := by
  cases change with
  | observe found =>
    rw [Change.apply, Record.observe] at h
    cases hfind : record.observed.find found.target found.commit with
    | some version => simp [hfind] at h
    | none =>
      simp only [hfind] at h
      obtain ⟨hevent, rfl⟩ := Prod.mk.inj (Except.ok.inj h)
      obtain rfl := Option.some.inj hevent
      exact ⟨hfind, Landings.find_record_self⟩
  | writeBaseline target commit baseline => cases h
  | establish target commit baseline => cases h
  | acknowledge asked =>
    rw [Change.apply] at h
    cases hmade : record.writeAcknowledgement asked with
    | error error => simp [hmade, Except.map] at h
    | ok made => simp [hmade, Except.map] at h

end Changes

section Invariant

variable [Inhabited υ] [DecidableEq π] {semver : Text → Bool} {identity : Text}
variable {s s' : Observers υ π} {p q : π}

variable (semver identity s) in
/-- A process in an update has the lock to itself, and what it has read under the lock is what is
on disk; what is emitted, or about to be, is recorded, and no two of them are one release. -/
structure Sound : Prop where
  held : ∀ p, (s.phase p).holds = true → s.lock.Holds p .exclusive
  current : ∀ p record event, s.phase p = .changed record event →
    ∃ change read, readAt semver identity s.document = .ok read ∧
      Change.apply read change = .ok (event, record)
  pending : ∀ p event, (s.phase p).pending = some event →
    s.document.observed event.key = some event.version ∧
      event.key ∉ s.emitted.map Observation.key
  apart : ∀ p q event event', p ≠ q → (s.phase p).pending = some event →
    (s.phase q).pending = some event' → event.key ≠ event'.key
  emitted : ∀ event ∈ s.emitted, s.document.observed event.key = some event.version
  nodup : (s.emitted.map Observation.key).Nodup

theorem sound_of_initial (h : (observers semver identity).Initial s) :
    Sound semver identity s := by
  obtain ⟨-, hidle, hemitted⟩ := h
  refine ⟨?_, ?_, ?_, ?_, ?_, ?_⟩
  · intro p hholds
    rw [hidle p] at hholds
    cases hholds
  · intro p record event hphase
    rw [hidle p] at hphase
    cases hphase
  · intro p event hpending
    rw [hidle p] at hpending
    cases hpending
  · intro p q event event' _ hpending
    rw [hidle p] at hpending
    cases hpending
  · simp [hemitted]
  · simp [hemitted]

/-- A process goes on without a new release to emit, and the lock is as the others left it. -/
theorem Sound.goto {phase : Phase υ} {lock : Flock π} (h : Sound semver identity s)
    (hself : phase.holds = true → lock.Holds p .exclusive)
    (hothers : ∀ q, q ≠ p → s.lock.Holds q .exclusive → lock.Holds q .exclusive)
    (hpending : ∀ event, phase.pending = some event → (s.phase p).pending = some event)
    (hchanged : ∀ record event, phase = .changed record event →
      ∃ change read, readAt semver identity s.document = .ok read ∧
        Change.apply read change = .ok (event, record)) :
    Sound semver identity { s.goto p phase with lock := lock } := by
  have hphases : ∀ q event, (Function.update s.phase p phase q).pending = some event →
      (s.phase q).pending = some event := by
    intro q event hq
    by_cases hqp : q = p
    · subst hqp
      rw [Function.update_self] at hq
      exact hpending event hq
    · rwa [Function.update_of_ne hqp] at hq
  refine ⟨?_, ?_, ?_, ?_, h.emitted, h.nodup⟩
  · intro q hq
    change (Function.update s.phase p phase q).holds = true at hq
    by_cases hqp : q = p
    · subst hqp
      rw [Function.update_self] at hq
      exact hself hq
    · rw [Function.update_of_ne hqp] at hq
      exact hothers q hqp (h.held q hq)
  · intro q record event hq
    change Function.update s.phase p phase q = _ at hq
    by_cases hqp : q = p
    · subst hqp
      rw [Function.update_self] at hq
      exact hchanged record event hq
    · rw [Function.update_of_ne hqp] at hq
      exact h.current q record event hq
  · exact fun q event hq => h.pending q event (hphases q event hq)
  · exact fun q r event event' hne hq hr =>
      h.apart q r event event' hne (hphases q event hq) (hphases r event' hr)

omit [DecidableEq π] in
theorem Sound.alone (h : Sound semver identity s) (hp : (s.phase p).holds = true)
    (hq : (s.phase q).holds = true) : q = p :=
  (Flock.exclusive_alone (h.held p hp) (h.held q hq)).1

omit [DecidableEq π] in
theorem Sound.observed_replaced {record : Record υ} {event : Option Observation}
    (h : Sound semver identity s) (hphase : s.phase p = .changed record event)
    {key : Text × Text} {version : Text} (hobserved : s.document.observed key = some version) :
    (Document.held record).observed key = some version := by
  obtain ⟨change, read, hread, happly⟩ := h.current p record event hphase
  rw [observed_of_readAt hread] at hobserved
  exact observedAt_apply happly hobserved

omit [DecidableEq π] in
theorem Sound.fresh {record : Record υ} {observation : Observation}
    (h : Sound semver identity s) (hphase : s.phase p = .changed record (some observation)) :
    s.document.observed observation.key = none ∧
      (Document.held record).observed observation.key = some observation.version := by
  obtain ⟨change, read, hread, happly⟩ := h.current p record _ hphase
  rw [observed_of_readAt hread]
  exact event_of_apply happly

theorem Sound.replace {record : Record υ} {event : Option Observation}
    (h : Sound semver identity s) (hphase : s.phase p = .changed record event) :
    Sound semver identity { s.goto p (.leaving event) with document := .held record } := by
  have hholds : (s.phase p).holds = true := by rw [hphase]; rfl
  -- A release about to be emitted is the one that is recorded, or was recorded before.
  have hphases : ∀ q observation,
      (Function.update s.phase p (.leaving event) q).pending = some observation →
      (q = p ∧ event = some observation) ∨ (q ≠ p ∧ (s.phase q).pending = some observation) := by
    intro q observation hq
    by_cases hqp : q = p
    · subst hqp
      rw [Function.update_self] at hq
      exact .inl ⟨rfl, hq⟩
    · rw [Function.update_of_ne hqp] at hq
      exact .inr ⟨hqp, hq⟩
  have hapart : ∀ q observation other, event = some observation →
      (s.phase q).pending = some other → observation.key ≠ other.key := by
    rintro q observation other rfl hq heq
    have hnone := (h.fresh hphase).1
    rw [heq, (h.pending q other hq).1] at hnone
    cases hnone
  refine ⟨?_, ?_, ?_, ?_, ?_, h.nodup⟩
  · intro q hq
    change (Function.update s.phase p _ q).holds = true at hq
    by_cases hqp : q = p
    · subst hqp
      exact h.held q hholds
    · rw [Function.update_of_ne hqp] at hq
      exact h.held q hq
  · intro q other event' hq
    change Function.update s.phase p _ q = _ at hq
    by_cases hqp : q = p
    · subst hqp
      rw [Function.update_self] at hq
      cases hq
    · rw [Function.update_of_ne hqp] at hq
      exact absurd (h.alone hholds (by rw [hq]; rfl)) hqp
  · intro q observation hq
    rcases hphases q observation hq with ⟨-, rfl⟩ | ⟨-, hq⟩
    · obtain ⟨hnone, hrecorded⟩ := h.fresh hphase
      refine ⟨hrecorded, fun hmem => ?_⟩
      obtain ⟨other, hother, heq⟩ := List.mem_map.mp hmem
      rw [← heq, h.emitted other hother] at hnone
      cases hnone
    · obtain ⟨hobserved, hnot⟩ := h.pending q observation hq
      exact ⟨h.observed_replaced hphase hobserved, hnot⟩
  · intro q r observation other hne hq hr
    rcases hphases q observation hq with ⟨rfl, hevent⟩ | ⟨-, hbefore⟩
    · rcases hphases r other hr with ⟨rfl, -⟩ | ⟨-, hafter⟩
      · exact absurd rfl hne
      · exact hapart r observation other hevent hafter
    · rcases hphases r other hr with ⟨-, hevent⟩ | ⟨-, hafter⟩
      · exact (hapart q other observation hevent hbefore).symm
      · exact h.apart q r observation other hne hbefore hafter
  · exact fun observation hmem => h.observed_replaced hphase (h.emitted observation hmem)

theorem Sound.emit {event : Observation} (h : Sound semver identity s)
    (hphase : s.phase p = .emitting event) :
    Sound semver identity { s.goto p .idle with emitted := s.emitted ++ [event] } := by
  have hpending : (s.phase p).pending = some event := by rw [hphase]; rfl
  obtain ⟨hobserved, hnot⟩ := h.pending p event hpending
  have hgone : Sound semver identity (s.goto p .idle) :=
    h.goto nofun (fun _ _ hq => hq) nofun nofun
  refine ⟨hgone.held, hgone.current, ?_, hgone.apart, ?_, ?_⟩
  · intro q other hq
    refine ⟨(hgone.pending q other hq).1, fun hmem => ?_⟩
    change (Function.update s.phase p .idle q).pending = _ at hq
    by_cases hqp : q = p
    · subst hqp
      rw [Function.update_self] at hq
      cases hq
    · rw [Function.update_of_ne hqp] at hq
      rw [List.map_append, List.mem_append] at hmem
      rcases hmem with hmem | hmem
      · exact (h.pending q other hq).2 hmem
      · exact h.apart q p other event hqp hq hpending (List.mem_singleton.mp hmem)
  · intro other hother
    rcases List.mem_append.mp hother with hother | hother
    · exact h.emitted other hother
    · obtain rfl := List.mem_singleton.mp hother
      exact hobserved
  · rw [List.map_append, List.nodup_append]
    refine ⟨h.nodup, List.nodup_singleton _, ?_⟩
    rintro key hkey _ hself rfl
    obtain rfl := List.mem_singleton.mp hself
    exact hnot hkey

theorem Sound.act {act : Act} (h : Sound semver identity s)
    (hact : s.act semver identity p act = some s') : Sound semver identity s' := by
  cases acts_of_act hact with
  | moves hholds hpending _ =>
    refine h.goto (fun hself => ?_) (fun _ _ hq => hq) (fun event hevent => ?_) ?_
    · rw [hholds] at hself
      cases hself
    · rw [hpending] at hevent
      cases hevent
    · rintro record event rfl
      cases hholds
  | locks htake =>
    refine h.goto (fun _ => Flock.take_holds htake) (fun q _ hq => ?_) nofun nofun
    exact (Flock.take_holds_iff htake).mpr (.inr hq)
  | reads hholds hread happly =>
    refine h.goto (fun _ => h.held p hholds) (fun _ _ hq => hq) nofun ?_
    rintro _ _ ⟨⟩
    exact ⟨_, _, hread, happly⟩
  | fails hholds =>
    exact h.goto (fun _ => h.held p hholds) (fun _ _ hq => hq) nofun nofun
  | replaces hphase => exact h.replace hphase
  | releases hholds hpending =>
    refine h.goto (fun hself => ?_) (fun q hqp hq => ?_) hpending ?_
    · rw [hholds] at hself
      cases hself
    · exact Flock.drop_holds_iff.mpr ⟨hq, hqp⟩
    · rintro record event rfl
      cases hholds
  | emits hphase => exact h.emit hphase

theorem Sound.observed_act {act : Act} (h : Sound semver identity s)
    (hact : s.act semver identity p act = some s') {key : Text × Text} {version : Text}
    (hobserved : s.document.observed key = some version) :
    s'.document.observed key = some version := by
  cases acts_of_act hact with
  | moves => exact hobserved
  | locks => exact hobserved
  | reads => exact hobserved
  | fails => exact hobserved
  | replaces hphase => exact h.observed_replaced hphase hobserved
  | releases => exact hobserved
  | emits => exact hobserved

theorem sound_of_reachable (h : (observers semver identity).Reachable s) :
    Sound semver identity s :=
  h.invariant (fun _ hinitial => sound_of_initial hinitial)
    fun _ _ _ hsound _ hstep => hsound.act hstep

theorem Sound.observed_run (h : Sound semver identity s) {labels : List (π × Act)}
    (hrun : (observers semver identity).run s labels = some s') {key : Text × Text}
    {version : Text} (hobserved : s.document.observed key = some version) :
    s'.document.observed key = some version := by
  induction labels generalizing s with
  | nil =>
    obtain rfl := Option.some.inj hrun
    exact hobserved
  | cons label rest ih =>
    obtain ⟨next, hstep, hrest⟩ := Option.bind_eq_some_iff.mp hrun
    exact ih (h.act hstep) hrest (h.observed_act hstep hobserved)

/-- In every order of the steps of any number of processes: no release of a target at a landing is
emitted twice, each that was emitted was recorded at its version, and a version that is recorded
is recorded still after every further step. -/
theorem observed_once (h : (observers semver identity).Reachable s) :
    (s.emitted.map Observation.key).Nodup ∧
      (∀ event ∈ s.emitted, s.document.observed event.key = some event.version) ∧
      ∀ labels s', (observers semver identity).run s labels = some s' →
        ∀ key version, s.document.observed key = some version →
          s'.document.observed key = some version :=
  have hsound := sound_of_reachable h
  ⟨hsound.nodup, hsound.emitted, fun _ _ hrun _ _ hobserved =>
    hsound.observed_run hrun hobserved⟩

end Invariant

/-- A release, as one process finds it. -/
def found : Observation := ⟨"crate".toList, "automated".toList, "c".toList, "1.0.0".toList⟩

/-- The same landing, as another process finds it later. -/
def foundLater : Observation := { found with version := "1.1.0".toList }

def unobserved : Observers Unit Bool := ⟨.missing, Flock.free, fun _ => .idle, []⟩

/-- Both set out before either has the lock, and the first emits its event last of all. -/
def race : List (Bool × Act) :=
  [(false, .start (.observe found)), (true, .start (.observe foundLater)), (false, .lock true),
    (false, .read), (false, .replace true), (false, .release), (true, .lock true), (true, .read),
    (true, .replace true), (true, .release), (false, .emit)]

/-- The processes of one identity, where any text is a version. -/
def racing : System (Observers Unit Bool) (Bool × Act) := observers (fun _ => true) ['i']

def raced : Observers Unit Bool := (racing.run unobserved race).getD unobserved

theorem run_race : racing.run unobserved race = some raced := by
  have hruns : (racing.run unobserved race).isSome = true := by decide +kernel
  obtain ⟨s, hs⟩ := Option.isSome_iff_exists.mp hruns
  rw [raced, hs, Option.getD_some]

/-- Of two processes that found one release, one records and emits it. -/
theorem raced_once :
    raced.emitted = [found] ∧ raced.document.observed found.key = some found.version ∧
      (raced.emitted.map Observation.key).Nodup :=
  ⟨by decide +kernel, by decide +kernel,
    (observed_once (Foundations.System.reachable_of_run ⟨rfl, fun _ => rfl, rfl⟩ run_race)).1⟩

end Onevcs.Release.Records
