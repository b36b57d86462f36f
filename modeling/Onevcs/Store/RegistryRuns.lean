import Onevcs.Foundations.Transition
import Onevcs.Store.Registry

/-!
# Processes on the registry document

`load` and `update` of `store.rs`, for any number of calls on one document. A read, a lock
taken or given up on, a write and a lock let go are steps of their own; a read or a write
can fail, and a process can die anywhere, which lets go of its lock.

`update` reads under the lock. `load` reads before it, and where what it read must be
migrated it takes the lock to write what that read came to: an update between the two is
lost. `update` also takes a document it cannot read for none.

Where neither happens, the document is what the locked sections that wrote come to, one
after the other.
-/

set_option linter.unusedSectionVars false

namespace Onevcs.Store

/-- What a process was started to do. -/
inductive Call
  | load
  | update (change : Registry → Option Registry)

/-- Where a call stands. -/
inductive Phase (υ : Type)
  | idle
  -- `load`: what was read has to be migrated
  | migrating (read : Read υ)
  -- `load`: with the lock, about to write
  | rewriting (read : Read υ)
  -- `update`: with the lock
  | locked
  -- `update`: about to write
  | writing (next : Document υ)
  | unlocking (ok : Bool)
  | done (ok : Bool)
  | dead
  deriving DecidableEq

/-- What a process does next. -/
inductive Act
  | read (fails : Bool)
  | take
  | giveUp
  | write (fails : Bool)
  | release
  | die

/-- The document, the lock and the calls; and what the document was at first, which calls
took the lock, and which of them wrote. -/
structure World (υ π : Type) where
  file : File υ
  lock : Option π
  phase : π → Phase υ
  start : File υ
  turns : List π
  log : List π

def Phase.holding {υ : Type} : Phase υ → Bool
  | .rewriting _ | .locked | .writing _ | .unlocking _ => true
  | _ => false

/-- The call holds the lock and has not written. -/
def Phase.unwritten {υ : Type} : Phase υ → Bool
  | .rewriting _ | .locked | .writing _ => true
  | _ => false

/-- The call has not had the lock. -/
def Phase.before {υ : Type} : Phase υ → Bool
  | .idle | .migrating _ => true
  | _ => false

/-- The call migrates what it read. -/
def Phase.loading {υ : Type} : Phase υ → Bool
  | .migrating _ | .rewriting _ => true
  | _ => false

def Phase.succeeded {υ : Type} : Phase υ → Bool
  | .unlocking ok => ok
  | .done ok => ok
  | _ => false

section Steps

variable {υ π : Type} [DecidableEq υ] [DecidableEq π]

/-- What an update writes of what it read. -/
def written (change : Registry → Option Registry) (read : Read υ) : Option (Document υ) :=
  (change read.registry).map fun changed =>
    serialize { changed with version := max changed.version version } read.carried

/-- What a call leaves of a document when nothing else runs. -/
def effect (call : Call) (file : File υ) : File υ :=
  match readFile file with
  | .error _ => file
  | .ok read =>
    match call with
    | .load => if read.migrated then .document (serialize read.registry read.carried) else file
    | .update change =>
      match written change read with
      | some document => .document document
      | none => file

namespace World

def goto (s : World υ π) (p : π) (phase : Phase υ) : World υ π :=
  { s with phase := Function.update s.phase p phase }

/-- A call takes the lock where it is free. -/
def takeLock (s : World υ π) (p : π) (phase : Phase υ) : Option (World υ π) :=
  match s.lock with
  | some _ => none
  | none => some { s.goto p phase with lock := some p, turns := s.turns ++ [p] }

/-- A call replaces the document, or fails to. -/
def writeFile (s : World υ π) (p : π) (document : Document υ) (fails : Bool) : World υ π :=
  if fails then s.goto p (.unlocking false)
  else { s.goto p (.unlocking true) with file := .document document, log := s.log ++ [p] }

/-- What `load` comes to without the lock. -/
def loaded (file : File υ) (fails : Bool) : Phase υ :=
  if fails then .done true
  else
    match readFile file with
    | .error _ => .done false
    | .ok read => if read.migrated then .migrating read else .done true

/-- What `update` comes to by its read. -/
def changed (change : Registry → Option Registry) (file : File υ) (fails : Bool) : Phase υ :=
  match readFile (if fails then .missing else file) with
  | .error _ => .unlocking false
  | .ok read =>
    match written change read with
    | some document => .writing document
    | none => .unlocking false

def step (call : π → Call) (s : World υ π) : π × Act → Option (World υ π)
  | (p, act) =>
    match s.phase p, act with
    | .idle, .read fails =>
      match call p with
      | .load => some (s.goto p (loaded s.file fails))
      | .update _ => none
    | .idle, .take =>
      match call p with
      | .load => none
      | .update _ => s.takeLock p .locked
    | .idle, .giveUp =>
      match call p with
      | .load => none
      | .update _ => some (s.goto p (.done false))
    | .migrating read, .take => s.takeLock p (.rewriting read)
    | .migrating _, .giveUp => some (s.goto p (.done false))
    | .rewriting read, .write fails =>
      some (s.writeFile p (serialize read.registry read.carried) fails)
    | .locked, .read fails =>
      match call p with
      | .load => none
      | .update change => some (s.goto p (changed change s.file fails))
    | .writing document, .write fails => some (s.writeFile p document fails)
    | .unlocking ok, .release => some { s.goto p (.done ok) with lock := none }
    | .done _, _ | .dead, _ => none
    | _, .die =>
      some { s.goto p .dead with lock := if s.lock = some p then none else s.lock }
    | _, _ => none

/-- A migrating write leaves what loading the document that is there would leave, and an
update reads a document that is there. -/
def keeps (s : World υ π) : π × Act → Bool
  | (p, .write false) =>
    match s.phase p with
    | .rewriting read =>
      decide (.document (serialize read.registry read.carried) = effect .load s.file)
    | _ => true
  | (p, .read true) =>
    match s.phase p with
    | .locked => decide (s.file = .missing)
    | _ => true
  | _ => true

end World

/-- Every run of some calls on one document. -/
def registryRuns (υ : Type) {π : Type} [DecidableEq υ] [DecidableEq π] (call : π → Call) :
    Foundations.System (World υ π) (π × Act) where
  Initial s := s.file = s.start ∧ s.lock = none ∧ (∀ p, s.phase p = .idle) ∧ s.turns = [] ∧
    s.log = []
  step := World.step call

end Steps

namespace World

variable {υ π : Type} [DecidableEq υ] [DecidableEq π] {call : π → Call} {s : World υ π}

/-- What a call has where it stands. -/
structure Stands (call : π → Call) (s : World υ π) (p : π) (phase : Phase υ) : Prop where
  held : phase.holding = true → s.lock = some p
  writing : ∀ document, phase = .writing document → .document document = effect (call p) s.file
  logged : ∀ change, call p = .update change → phase.succeeded = true → p ∈ s.log
  waiting : phase.before = true → p ∉ s.turns
  turn : phase.unwritten = true → ∃ earlier, s.turns = earlier ++ [p] ∧ s.log.Sublist earlier
  loads : phase.loading = true → call p = .load

/-- The document is what the calls that wrote come to, in the order they had the lock. -/
structure Kept (call : π → Call) (s : World υ π) : Prop where
  folded : s.file = s.log.foldl (fun file p => effect (call p) file) s.start
  turns : s.turns.Nodup
  ordered : s.log.Sublist s.turns
  stands : ∀ p, Stands call s p (s.phase p)

theorem holding_of_unwritten {phase : Phase υ} (h : phase.unwritten = true) :
    phase.holding = true := by
  cases phase <;> first | rfl | cases h

theorem not_succeeded_of_unwritten {phase : Phase υ} (h : phase.unwritten = true) :
    phase.succeeded = false := by
  cases phase <;> first | rfl | cases h

theorem not_before_of_unwritten {phase : Phase υ} (h : phase.unwritten = true) :
    phase.before = false := by
  cases phase <;> first | rfl | cases h

theorem Stands.aside {s' : World υ π} {p : π} {phase : Phase υ} (h : Stands call s p phase)
    (hfree : phase.holding = false) (hlog : ∀ q ∈ s.log, q ∈ s'.log)
    (hturns : p ∉ s.turns → p ∉ s'.turns) : Stands call s' p phase where
  held hholding := by
    rw [hfree] at hholding
    cases hholding
  writing document hwriting := by
    rw [hwriting] at hfree
    cases hfree
  logged change hcall hsucceeded := hlog p (h.logged change hcall hsucceeded)
  waiting hbefore := hturns (h.waiting hbefore)
  turn hunwritten := by
    rw [holding_of_unwritten hunwritten] at hfree
    cases hfree
  loads := h.loads

theorem Kept.not_holding (h : Kept call s) {p q : π} (hlock : ∀ r, s.lock = some r → r = p)
    (hne : q ≠ p) : (s.phase q).holding = false := by
  cases hholding : (s.phase q).holding with
  | false => rfl
  | true => exact absurd (hlock q ((h.stands q).held hholding)) hne

theorem Kept.goto (h : Kept call s) {p : π} {phase : Phase υ} (hstands : Stands call s p phase) :
    Kept call (s.goto p phase) where
  folded := h.folded
  turns := h.turns
  ordered := h.ordered
  stands q := by
    by_cases hq : q = p
    · subst hq
      have hself : (s.goto q phase).phase q = phase := Function.update_self ..
      rw [hself]
      exact ⟨hstands.held, hstands.writing, hstands.logged, hstands.waiting, hstands.turn,
        hstands.loads⟩
    · have hother : (s.goto p phase).phase q = s.phase q := Function.update_of_ne hq ..
      rw [hother]
      have hq := h.stands q
      exact ⟨hq.held, hq.writing, hq.logged, hq.waiting, hq.turn, hq.loads⟩

/-- A call takes the lock: it has the turn, and has not had one before. -/
theorem Kept.takeLock (h : Kept call s) {s' : World υ π} {p : π} {phase : Phase υ}
    (hbefore : (s.phase p).before = true) (hunwritten : phase.unwritten = true)
    (hwriting : ∀ document, phase ≠ .writing document)
    (hloads : phase.loading = true → call p = .load) (hs : s.takeLock p phase = some s') : Kept call s' := by
  unfold World.takeLock at hs
  split at hs
  · cases hs
  · rename_i hlock
    obtain rfl := Option.some.inj hs
    have hnew : p ∉ s.turns := (h.stands p).waiting hbefore
    refine ⟨h.folded, ?_, h.ordered.trans (List.sublist_append_left ..), fun q => ?_⟩
    · exact List.nodup_append.mpr ⟨h.turns, List.pairwise_singleton _ p, by
        rintro a ha b hb rfl
        exact hnew (List.mem_singleton.mp hb ▸ ha)⟩
    · by_cases hq : q = p
      · subst hq
        have hself : (s.goto q phase).phase q = phase := Function.update_self ..
        simp only [hself]
        refine ⟨fun _ => rfl, fun document heq => absurd heq (hwriting document), ?_, ?_, ?_,
          hloads⟩
        · intro change _ hsucceeded
          rw [not_succeeded_of_unwritten hunwritten] at hsucceeded
          cases hsucceeded
        · intro hwaiting
          rw [not_before_of_unwritten hunwritten] at hwaiting
          cases hwaiting
        · exact fun _ => ⟨s.turns, rfl, h.ordered⟩
      · have hother : (s.goto p phase).phase q = s.phase q := Function.update_of_ne hq ..
        simp only [hother]
        have hfree : (s.phase q).holding = false := by
          cases hholding : (s.phase q).holding with
          | false => rfl
          | true => cases hlock.symm.trans ((h.stands q).held hholding)
        refine (h.stands q).aside hfree (fun _ => id) fun hnot => ?_
        simpa [World.goto] using ⟨hnot, hq⟩

/-- A call that holds the lock replaces the document by its effect, or fails to. -/
theorem Kept.writeFile (h : Kept call s) {p : π} {document : Document υ} {fails : Bool}
    (hunwritten : (s.phase p).unwritten = true)
    (heffect : fails = false → .document document = effect (call p) s.file) :
    Kept call (s.writeFile p document fails) := by
  have hlock := (h.stands p).held (holding_of_unwritten hunwritten)
  obtain ⟨earlier, hturns, hearlier⟩ := (h.stands p).turn hunwritten
  cases fails with
  | true =>
    apply h.goto
    exact ⟨fun _ => hlock, fun _ heq => (nomatch heq), fun _ _ hfalse => (nomatch hfalse),
      fun hfalse => (nomatch hfalse), fun hfalse => (nomatch hfalse),
      fun hfalse => (nomatch hfalse)⟩
  | false =>
    have hordered : (s.log ++ [p]).Sublist s.turns := by
      rw [hturns]
      exact hearlier.append_right [p]
    refine ⟨?_, h.turns, hordered, fun q => ?_⟩
    · simp only [World.writeFile, Bool.false_eq_true, if_false, List.foldl_append,
        List.foldl_cons, List.foldl_nil, World.goto]
      rw [← h.folded, heffect rfl]
    · by_cases hq : q = p
      · subst hq
        have hself : (s.writeFile q document false).phase q = .unlocking true :=
          Function.update_self ..
        rw [hself]
        refine ⟨fun _ => hlock, fun _ heq => (nomatch heq), fun _ _ _ => ?_,
          fun hfalse => (nomatch hfalse), fun hfalse => (nomatch hfalse),
          fun hfalse => (nomatch hfalse)⟩
        exact List.mem_append_right _ (List.mem_singleton_self q)
      · have hother : (s.writeFile p document false).phase q = s.phase q :=
          Function.update_of_ne hq ..
        rw [hother]
        have hfree : (s.phase q).holding = false :=
          h.not_holding (fun r hr => Option.some.inj (hr.symm.trans hlock)) hq
        exact (h.stands q).aside hfree (fun r hr => List.mem_append_left _ hr) id

theorem Kept.unlock (h : Kept call s) {p : π} {phase : Phase υ} {lock : Option π}
    (hfree : phase.holding = false) (hstands : Stands call s p phase)
    (hlock : ∀ r, s.lock = some r → r ≠ p → lock = some r) :
    Kept call { s.goto p phase with lock := lock } := by
  refine ⟨h.folded, h.turns, h.ordered, fun q => ?_⟩
  by_cases hq : q = p
  · subst hq
    have hself : (s.goto q phase).phase q = phase := Function.update_self ..
    simp only [hself]
    exact hstands.aside hfree (fun _ => id) id
  · have hother : (s.goto p phase).phase q = s.phase q := Function.update_of_ne hq ..
    simp only [hother]
    have hq' := h.stands q
    exact ⟨fun hholding => hlock q (hq'.held hholding) hq, hq'.writing, hq'.logged, hq'.waiting,
      hq'.turn, hq'.loads⟩

theorem loaded_stands {p : π} {file : File υ} {fails : Bool} (hcall : call p = .load)
    (hnew : p ∉ s.turns) : Stands call s p (loaded file fails) := by
  have hanswers : ∀ ok, Stands call s p (.done ok) := fun ok =>
    ⟨fun hfalse => (nomatch hfalse), fun _ heq => (nomatch heq),
      fun change hupdate _ => (nomatch hcall.symm.trans hupdate),
      fun hfalse => (nomatch hfalse), fun hfalse => (nomatch hfalse), fun _ => hcall⟩
  unfold loaded
  split
  · exact hanswers true
  · split
    · exact hanswers false
    · split
      · exact ⟨fun hfalse => (nomatch hfalse), fun _ heq => (nomatch heq),
          fun _ _ hfalse => (nomatch hfalse), fun _ => hnew, fun hfalse => (nomatch hfalse),
          fun _ => hcall⟩
      · exact hanswers true

/-- What an update comes to by a read of the document that is there. -/
theorem Kept.changed (h : Kept call s) {p : π} {change : Registry → Option Registry} {fails : Bool}
    (hcall : call p = .update change) (hp : s.phase p = .locked)
    (hread : fails = true → s.file = .missing) :
    Kept call (s.goto p (World.changed change s.file fails)) := by
  have hstands := h.stands p
  rw [hp] at hstands
  have hlock := hstands.held rfl
  have hfile : (if fails then .missing else s.file) = s.file := by
    cases fails with
    | true => exact (hread rfl).symm
    | false => rfl
  have hrefused : Stands call s p (.unlocking false) :=
    ⟨fun _ => hlock, fun _ heq => (nomatch heq), fun _ _ hfalse => (nomatch hfalse),
      fun hfalse => (nomatch hfalse), fun hfalse => (nomatch hfalse),
      fun hfalse => (nomatch hfalse)⟩
  apply h.goto
  unfold World.changed
  rw [hfile]
  cases hfound : readFile s.file with
  | error refused => exact hrefused
  | ok read =>
    cases hwritten : written change read with
    | none => simpa only [hwritten] using hrefused
    | some document =>
      simp only [hwritten]
      refine ⟨fun _ => hlock, fun document' heq => ?_, fun _ _ hfalse => (nomatch hfalse),
        fun hfalse => (nomatch hfalse), fun _ => hstands.turn rfl,
        fun hfalse => (nomatch hfalse)⟩
      obtain rfl : document = document' := by
        injection heq
      rw [hcall, effect, hfound]
      simp only [hwritten]

theorem Stands.ends {p : π} {ok : Bool} (hlogged : ∀ change, call p = .update change → ok = true →
    p ∈ s.log) : Stands call s p (.done ok) :=
  ⟨fun hfalse => (nomatch hfalse), fun _ heq => (nomatch heq), hlogged,
    fun hfalse => (nomatch hfalse), fun hfalse => (nomatch hfalse), fun hfalse => (nomatch hfalse)⟩

theorem Stands.dies {p : π} : Stands call s p .dead :=
  ⟨fun hfalse => (nomatch hfalse), fun _ heq => (nomatch heq), fun _ _ hfalse => (nomatch hfalse),
    fun hfalse => (nomatch hfalse), fun hfalse => (nomatch hfalse), fun hfalse => (nomatch hfalse)⟩

theorem Kept.step (h : Kept call s) {s' : World υ π} {label : π × Act} (hok : s.keeps label = true)
    (hs : s.step call label = some s') : Kept call s' := by
  obtain ⟨p, act⟩ := label
  have hstands := h.stands p
  have hdies : Kept call { s.goto p .dead with lock := if s.lock = some p then none else s.lock } := by
    refine h.unlock rfl Stands.dies fun r hr hne => ?_
    rw [if_neg]
    · exact hr
    · exact fun heq => hne (Option.some.inj (hr.symm.trans heq))
  cases hphase : s.phase p with
  | idle =>
    rw [hphase] at hstands
    cases hcall : call p with
    | load =>
      cases act with
      | read fails =>
        simp only [World.step, hphase, hcall] at hs
        obtain rfl := Option.some.inj hs
        exact h.goto (loaded_stands hcall (hstands.waiting rfl))
      | die =>
        simp only [World.step, hphase] at hs
        obtain rfl := Option.some.inj hs
        exact hdies
      | _ => simp [World.step, hphase, hcall] at hs
    | update change =>
      cases act with
      | take =>
        simp only [World.step, hphase, hcall] at hs
        exact h.takeLock (by rw [hphase]; rfl) rfl (by rintro _ ⟨⟩) (by rintro ⟨⟩) hs
      | giveUp =>
        simp only [World.step, hphase, hcall] at hs
        obtain rfl := Option.some.inj hs
        exact h.goto (Stands.ends (by rintro _ _ ⟨⟩))
      | die =>
        simp only [World.step, hphase] at hs
        obtain rfl := Option.some.inj hs
        exact hdies
      | _ => simp [World.step, hphase, hcall] at hs
  | migrating read =>
    cases act with
    | take =>
      simp only [World.step, hphase] at hs
      rw [hphase] at hstands
      exact h.takeLock (by rw [hphase]; rfl) rfl (by rintro _ ⟨⟩)
        (fun _ => hstands.loads rfl) hs
    | giveUp =>
      simp only [World.step, hphase] at hs
      obtain rfl := Option.some.inj hs
      exact h.goto (Stands.ends (by rintro _ _ ⟨⟩))
    | die =>
      simp only [World.step, hphase] at hs
      obtain rfl := Option.some.inj hs
      exact hdies
    | _ => simp [World.step, hphase] at hs
  | rewriting read =>
    cases act with
    | write fails =>
      simp only [World.step, hphase] at hs
      obtain rfl := Option.some.inj hs
      refine h.writeFile (by rw [hphase]; rfl) ?_
      rintro rfl
      rw [hphase] at hstands
      rw [hstands.loads rfl]
      simpa [keeps, hphase] using hok
    | die =>
      simp only [World.step, hphase] at hs
      obtain rfl := Option.some.inj hs
      exact hdies
    | _ => simp [World.step, hphase] at hs
  | locked =>
    cases act with
    | read fails =>
      cases hcall : call p with
      | load => simp [World.step, hphase, hcall] at hs
      | update change =>
        simp only [World.step, hphase, hcall] at hs
        obtain rfl := Option.some.inj hs
        refine h.changed hcall hphase ?_
        rintro rfl
        simpa [keeps, hphase] using hok
    | die =>
      simp only [World.step, hphase] at hs
      obtain rfl := Option.some.inj hs
      exact hdies
    | _ => simp [World.step, hphase] at hs
  | writing document =>
    cases act with
    | write fails =>
      simp only [World.step, hphase] at hs
      obtain rfl := Option.some.inj hs
      exact h.writeFile (by rw [hphase]; rfl) fun _ => hstands.writing document hphase
    | die =>
      simp only [World.step, hphase] at hs
      obtain rfl := Option.some.inj hs
      exact hdies
    | _ => simp [World.step, hphase] at hs
  | unlocking ok =>
    rw [hphase] at hstands
    cases act with
    | release =>
      simp only [World.step, hphase] at hs
      obtain rfl := Option.some.inj hs
      refine h.unlock rfl (Stands.ends fun change hcall hsucceeded => ?_) fun r hr hne => ?_
      · exact hstands.logged change hcall hsucceeded
      · exact absurd (Option.some.inj (hr.symm.trans (hstands.held rfl))) hne
    | die =>
      simp only [World.step, hphase] at hs
      obtain rfl := Option.some.inj hs
      exact hdies
    | _ => simp [World.step, hphase] at hs
  | done ok => simp [World.step, hphase] at hs
  | dead => simp [World.step, hphase] at hs

theorem kept_of_reachable
    (h : (registryRuns υ call).ReachableBy (fun s label => s.keeps label = true) s) :
    Kept call s := by
  refine h.invariant ?_ fun _ _ _ hi hok hs => hi.step hok hs
  rintro s ⟨hfile, -, hphase, hturns, hlog⟩
  refine ⟨by rw [hlog]; exact hfile, by rw [hturns]; exact List.nodup_nil, by simp [hlog], ?_⟩
  intro p
  rw [hphase p]
  exact ⟨fun hfalse => (nomatch hfalse), fun _ heq => (nomatch heq),
    fun _ _ hfalse => (nomatch hfalse), fun _ => by simp [hturns],
    fun hfalse => (nomatch hfalse), fun hfalse => (nomatch hfalse)⟩

end World

section Results

variable {υ π : Type} [DecidableEq υ] [DecidableEq π]

/-- In every run whose migrating writes leave what loading the document would, and whose
updates read the document that is there, the document is what the calls that wrote come to
in the order they had the lock, each once, and every update that succeeded is among them. -/
theorem updates_kept (call : π → Call) {s : World υ π}
    (h : (registryRuns υ call).ReachableBy (fun s label => s.keeps label = true) s) :
    s.file = s.log.foldl (fun file p => effect (call p) file) s.start ∧
      s.log.Sublist s.turns ∧ s.turns.Nodup ∧
      ∀ p change, call p = .update change → s.phase p = .done true → p ∈ s.log := by
  have hkept := World.kept_of_reachable h
  refine ⟨hkept.folded, hkept.ordered, hkept.turns, fun p change hcall hdone => ?_⟩
  apply (hkept.stands p).logged change hcall
  rw [hdone]
  rfl

end Results

/-! ## A load that migrates -/

/-- A process loads the registry, and another registers a repository. -/
def registering : Bool → Call
  | false => .load
  | true => .update fun registry =>
    some { registry with
      identities := ("host.org/owner/name", Identity.new "origin" noopGate) ::
        registry.identities }

/-- A document of version 5 that holds nothing. -/
def versionFive : World Unit Bool where
  file := .document ⟨some 5, some [], some [], none, []⟩
  lock := none
  phase := fun _ => .idle
  start := .document ⟨some 5, some [], some [], none, []⟩
  turns := []
  log := []

theorem versionFive_initial : (registryRuns Unit registering).Initial versionFive :=
  ⟨rfl, rfl, fun _ => rfl, rfl, rfl⟩

/-- The repository is registered under the lock. -/
def registers : List (Bool × Act) :=
  [(true, .take), (true, .read false), (true, .write false), (true, .release)]

/-- The document that was read is migrated under the lock. -/
def migrates : List (Bool × Act) := [(false, .take), (false, .write false)]

theorem loadedFirst_runs : ((registryRuns Unit registering).run versionFive
    ((false, .read false) :: migrates ++ (false, .release) :: registers)).isSome := by decide

/-- The load migrates, and then the repository is registered. -/
def loadedFirst : World Unit Bool :=
  ((registryRuns Unit registering).run versionFive
    ((false, .read false) :: migrates ++ (false, .release) :: registers)).get loadedFirst_runs

theorem updates_kept_loadedFirst :
    loadedFirst.file = loadedFirst.log.foldl (fun file p => effect (registering p) file)
      loadedFirst.start ∧ loadedFirst.log.Sublist loadedFirst.turns ∧ loadedFirst.turns.Nodup ∧
      ∀ p change, registering p = .update change → loadedFirst.phase p = .done true →
        p ∈ loadedFirst.log :=
  updates_kept registering (Foundations.System.reachableBy_of_run versionFive_initial (by decide)
    (Option.some_get loadedFirst_runs).symm)

theorem overtaken_runs : ((registryRuns Unit registering).run versionFive
    ((false, .read false) :: registers ++ migrates)).isSome := by decide

/-- The repository is registered after the load read the document, and before it writes. -/
def overtaken : World Unit Bool :=
  ((registryRuns Unit registering).run versionFive
    ((false, .read false) :: registers ++ migrates)).get overtaken_runs

/-- The registration succeeded, and the document is as if only the load had run. -/
theorem overtaken_loses : (registryRuns Unit registering).Reachable overtaken ∧
    overtaken.phase true = .done true ∧ overtaken.file = effect .load overtaken.start ∧
    overtaken.file ≠ overtaken.log.foldl (fun file p => effect (registering p) file)
      overtaken.start :=
  ⟨Foundations.System.reachable_of_run versionFive_initial (Option.some_get overtaken_runs).symm,
    by decide, by decide, by decide⟩

end Onevcs.Store
