import Onevcs.Sweep.Records

/-!
# A session record is forgotten while it is spent

What the sweep found out about a record it lists stays so until it is removed, unless a writer
or a worker comes in between: the owner it was listed with is dead and stays dead, and each
other question stands until a step turns it. The sweep takes no lock between its last look at
a record's file and the removal of it, so nothing keeps such a step out.
-/

set_option linter.unusedSectionVars false

namespace Onevcs.Sweep.Records

open Foundations (System)

section Runs

variable {τ ρ β π : Type} [LinearOrder τ] [DecidableEq ρ] [DecidableEq β] [DecidableEq π]
variable {placed : τ → Placement ρ β} {s s' : World τ ρ β π} {label : Label τ ρ β π}
variable {token : τ} {record : Record τ π} {question : Question} {p : π} {write : Write τ}

/-- Where a write holds a record's lock. -/
def Call.held : Call τ π → Option τ
  | .idle => none
  | .locked token _ => some token
  | .ready token _ _ => some token
  | .settled token => some token

/-- The questions that are asked before a question. -/
def Question.earlier : Question → List Question
  | .owner => []
  | .inside => [.owner]
  | .work => [.owner, .inside]
  | .dirty => [.owner, .inside, .work]

namespace World

/-- The tree of the record in hand is its own, as the question of it has it. -/
def treeAsked (placed : τ → Placement ρ β) (s : World τ ρ β π) (view : View τ ρ) (token : τ)
    (record : Record τ π) : Bool :=
  treeIsItsOwn (placed token) view token record (s.worktree (placed token).runRoot)

/-- Nothing comes between what the sweep looked at and what it does.

A tree that is the record's own is not taken for another session's; a record whose age is read
though its session was adopted since the listing is under the floor; and a record is removed
before its session is adopted after that and before a question turns. -/
def undisturbed (placed : τ → Placement ρ β) (s : World τ ρ β π) : Label τ ρ β π → Bool
  | .sweep (.ask reads) =>
    match s.sweep with
    | .judging listed ((token, record) :: _) question _ _ =>
      !(question = .inside || question = .dirty) ||
        (s.record token).all fun current =>
          !s.treeAsked placed (s.view placed token) token current ||
            s.treeAsked placed ⟨openRoots placed listed, reads, false⟩ token record
    | _ => true
  | .sweep (.age stated) =>
    match s.sweep with
    | .forgetting ((token, _) :: _) (.timed now) =>
      !s.adopted .listed token || s.age now stated token < s.request.minAge
    | _ => true
  | .sweep (.remove _) =>
    match s.sweep with
    | .forgetting ((token, _) :: _) .old =>
      !s.adopted .aged token && !s.turned token .inside && !s.turned token .work &&
        !s.turned token .dirty
    | _ => true
  | _ => true

/-! ## What a step does -/

@[simp] theorem spent_marked : (s.marked placed s').spent placed = s'.spent placed := rfl
@[simp] theorem record_marked : (s.marked placed s').record = s'.record := rfl

theorem step_eq_some : s.step placed label = some s' ↔
    ∃ after, s.move placed label = some after ∧ s.marked placed after = s' :=
  Option.map_eq_some_iff

/-- The questions of a token that still stand, or have turned. -/
def Settled (placed : τ → Placement ρ β) (s : World τ ρ β π) (token : τ)
    (question : Question) : Prop :=
  s.turned token question = true ∨ s.spent placed token question = true

theorem turned_asked (other : τ) (about : Question) :
    (s.asked placed token question).turned other about = s.turned other about ∨
      s.spent placed other about = true := by
  by_cases h : other = token ∧ about = question ∧ s.spent placed token question = true
  · obtain ⟨rfl, rfl, hstands⟩ := h
    exact .inr hstands
  · exact .inl (if_neg h)

theorem sweepStep_turned {act : SweepAct τ} (hstep : s.sweepStep placed act = some s')
    (token : τ) (question : Question) :
    s'.turned token question = s.turned token question ∨
      s'.spent placed token question = true := by
  cases act with
  | gather about =>
    simp only [sweepStep] at hstep
    split at hstep
    · split at hstep
      · obtain rfl := Option.some.inj hstep
        exact turned_asked token question
      · cases hstep
    · cases hstep
  | ask reads =>
    simp only [sweepStep] at hstep
    split at hstep
    · obtain rfl := Option.some.inj hstep
      exact .inl rfl
    · split at hstep
      · cases hstep
      · obtain rfl := Option.some.inj hstep
        exact .inl rfl
      · obtain rfl := Option.some.inj hstep
        exact turned_asked token question
    · cases hstep
  | _ =>
    left
    simp only [sweepStep] at hstep
    repeat' split at hstep
    all_goals first
      | (obtain rfl := Option.some.inj hstep; rfl)
      | cases hstep

theorem writerStep_turned {act : Act τ} (hstep : s.writerStep p act = some s') :
    s'.turned = s.turned := by
  cases act with
  | _ =>
    simp only [writerStep] at hstep
    repeat' split at hstep
    all_goals first
      | (obtain rfl := Option.some.inj hstep; rfl)
      | cases hstep

theorem move_turned (hmove : s.move placed label = some s') (token : τ)
    (question : Question) :
    s'.turned token question = s.turned token question ∨
      s'.spent placed token question = true := by
  cases label with
  | sweep act => exact sweepStep_turned hmove token question
  | act p act =>
    simp only [move] at hmove
    split at hmove
    · exact .inl (congrFun (congrFun (writerStep_turned hmove) token) question)
    · cases hmove
  | _ =>
    obtain rfl := Option.some.inj hmove
    exact .inl rfl

theorem Settled.step (h : s.Settled placed token question)
    (hstep : s.step placed label = some s') : s'.Settled placed token question := by
  obtain ⟨after, hmove, rfl⟩ := step_eq_some.mp hstep
  rcases move_turned hmove token question with hturned | hstands
  · by_cases hafter : after.spent placed token question = true
    · exact .inr hafter
    · left
      show (after.turned token question || _) = true
      rcases h with hmark | hbefore
      · rw [hturned, hmark, Bool.true_or]
      · rw [hbefore, Bool.eq_false_iff.mpr hafter]
        simp
  · exact .inr hstands

/-- What a step of the sweep leaves alone. -/
structure Spares (s s' : World τ ρ β π) : Prop where
  lock : s'.lock = s.lock
  call : s'.call = s.call
  running : s'.running = s.running
  record : ∀ token record, s'.record token = some record → s.record token = some record

theorem spares_erase : s.Spares { s with records := s.records.erase token } where
  lock := rfl
  call := rfl
  running := rfl
  record other record hrecord := by
    by_cases hother : other = token
    · subst hother
      simp [World.record, AList.lookup_erase] at hrecord
    · simpa only [World.record, AList.lookup_erase_ne hother] using hrecord

theorem sweepStep_spares {act : SweepAct τ} (hstep : s.sweepStep placed act = some s') :
    s.Spares s' := by
  cases act with
  | remove removed =>
    simp only [sweepStep] at hstep
    split at hstep
    · split at hstep
      · obtain rfl := Option.some.inj hstep
        exact ⟨rfl, rfl, rfl, spares_erase.record⟩
      · obtain rfl := Option.some.inj hstep
        exact ⟨rfl, rfl, rfl, fun _ _ => id⟩
    · cases hstep
  | _ =>
    simp only [sweepStep] at hstep
    repeat' split at hstep
    all_goals first
      | (obtain rfl := Option.some.inj hstep; exact ⟨rfl, rfl, rfl, fun _ _ => id⟩)
      | cases hstep

/-- A record that is there after a step was there before it, or was saved by it. -/
theorem step_record (hstep : s.step placed label = some s')
    (hrecord : s'.record token = some record) :
    s.record token = some record ∨
      ∃ p write, s.call p = .ready token write record ∧ s'.call p = .settled token ∧
        s'.adopted .listed token = (s.adopted .listed token || write.adopts) := by
  obtain ⟨after, hmove, rfl⟩ := step_eq_some.mp hstep
  rw [record_marked] at hrecord
  cases label with
  | sweep act => exact .inl ((sweepStep_spares hmove).record token record hrecord)
  | act p act =>
    simp only [move] at hmove
    split at hmove
    · cases act with
      | save written =>
        simp only [writerStep] at hmove
        split at hmove
        · next about write saved hready =>
          split at hmove
          · obtain rfl := Option.some.inj hmove
            by_cases hother : token = about
            · subst hother
              have hsaved : saved = record := by
                simpa [World.record, AList.lookup_insert] using hrecord
              subst hsaved
              refine .inr ⟨p, write, hready, Function.update_self .., ?_⟩
              simp [marked]
            · left
              simpa only [World.record, AList.lookup_insert_ne hother] using hrecord
          · obtain rfl := Option.some.inj hmove
            exact .inl hrecord
        · cases hmove
      | _ =>
        left
        simp only [writerStep] at hmove
        repeat' split at hmove
        all_goals first
          | (obtain rfl := Option.some.inj hmove; exact hrecord)
          | cases hmove
    · cases hmove
  | _ =>
    obtain rfl := Option.some.inj hmove
    exact .inl hrecord

theorem apply_owner {change : Change τ} (h : (Write.update change).adopts = false) :
    (change.apply p record).owner = record.owner := by
  cases change with
  | adopt identified => cases h
  | _ => rfl

theorem writerStep_call {act : Act τ} (hstep : s.writerStep p act = some s') {q : π}
    (hother : q ≠ p) : s'.call q = s.call q := by
  cases act with
  | _ =>
    simp only [writerStep] at hstep
    repeat' split at hstep
    all_goals first
      | (obtain rfl := Option.some.inj hstep; exact Function.update_of_ne hother ..)
      | cases hstep

theorem writerStep_ready {act : Act τ} (hstep : s.writerStep p act = some s')
    (hready : s'.call p = .ready token write record) :
    s.call p = .locked token write ∧ s'.record = s.record ∧
      (write.adopts = false → ∃ current, s.record token = some current ∧
        record.owner = current.owner) := by
  cases act with
  | load =>
    simp only [writerStep] at hstep
    split at hstep
    · next about identified hlocked =>
      obtain rfl := Option.some.inj hstep
      simp only [Function.update_self] at hready
      split at hready
      · cases hready
      · cases hready
        exact ⟨hlocked, rfl, fun hadopts => nomatch hadopts⟩
    · next about change hlocked =>
      obtain rfl := Option.some.inj hstep
      simp only [Function.update_self] at hready
      cases hcurrent : s.record about with
      | none => simp [hcurrent] at hready
      | some current =>
        rw [hcurrent] at hready
        cases hready
        exact ⟨hlocked, rfl, fun hadopts => ⟨current, hcurrent, apply_owner hadopts⟩⟩
    · cases hstep
  | _ =>
    simp only [writerStep] at hstep
    repeat' split at hstep
    all_goals first
      | (obtain rfl := Option.some.inj hstep; simp at hready)
      | cases hstep

theorem step_ready (hstep : s.step placed label = some s')
    (hready : s'.call p = .ready token write record) :
    s.call p = .ready token write record ∨
      s.call p = .locked token write ∧ s'.record = s.record ∧
        (write.adopts = false → ∃ current, s.record token = some current ∧
          record.owner = current.owner) := by
  obtain ⟨after, hmove, rfl⟩ := step_eq_some.mp hstep
  cases label with
  | sweep act =>
    left
    rw [← hready]
    exact (congrFun (sweepStep_spares hmove).call p).symm
  | act q act =>
    simp only [move] at hmove
    split at hmove
    · by_cases hother : p = q
      · subst hother
        have hafter : after.call p = .ready token write record := hready
        have hloaded := writerStep_ready hmove hafter
        exact .inr hloaded
      · exact .inl ((writerStep_call hmove hother).symm.trans hready)
    · cases hmove
  | die q =>
    obtain rfl := Option.some.inj hmove
    by_cases hother : p = q
    · subst hother
      simp [marked] at hready
    · left
      simpa [marked, hother] using hready
  | _ =>
    obtain rfl := Option.some.inj hmove
    exact .inl hready

/-- A write in flight holds its record's lock, and one that opens or adopts no session has
loaded the owner that the record has. -/
structure Writers (s : World τ ρ β π) : Prop where
  locked : ∀ p token, (s.call p).held = some token → s.lock token = some p
  ready : ∀ p token write loaded, s.call p = .ready token write loaded →
    write.adopts = false → ∀ current, s.record token = some current →
      current.owner = loaded.owner

theorem load_held (hstep : s.writerStep p .load = some s') :
    s'.lock = s.lock ∧ (s'.call p).held = (s.call p).held := by
  simp only [writerStep] at hstep
  split at hstep
  · next about identified hlocked =>
    obtain rfl := Option.some.inj hstep
    refine ⟨rfl, ?_⟩
    simp only [Function.update_self, hlocked]
    split
    · rfl
    · rfl
  · next about change hlocked =>
    obtain rfl := Option.some.inj hstep
    refine ⟨rfl, ?_⟩
    simp only [Function.update_self, hlocked]
    cases s.record about with
    | none => rfl
    | some current => rfl
  · cases hstep

theorem save_held {written : Bool} (hstep : s.writerStep p (.save written) = some s') :
    s'.lock = s.lock ∧ (s'.call p).held = (s.call p).held := by
  simp only [writerStep] at hstep
  split at hstep
  · next about write loaded hready =>
    split at hstep
    all_goals
      obtain rfl := Option.some.inj hstep
      refine ⟨rfl, ?_⟩
      simp only [Function.update_self, hready]
      rfl
  · cases hstep

theorem Writers.locked_act (h : s.Writers) {act : Act τ}
    (hstep : s.writerStep p act = some s') (q : π) (token : τ)
    (hheld : (s'.call q).held = some token) : s'.lock token = some q := by
  cases act with
  | take about write =>
    simp only [writerStep] at hstep
    split at hstep
    · next hfree =>
      obtain rfl := Option.some.inj hstep
      by_cases hother : q = p
      · subst hother
        obtain rfl : about = token := by simpa [Call.held] using hheld
        exact Function.update_self ..
      · have hlock := h.locked q token (by simpa [hother] using hheld)
        have habout : token ≠ about := by
          rintro rfl
          rw [hfree.2] at hlock
          cases hlock
        exact (Function.update_of_ne habout ..).trans hlock
    · cases hstep
  | load =>
    obtain ⟨hlock, hsame⟩ := load_held hstep
    by_cases hother : q = p
    · subst hother
      rw [hlock]
      exact h.locked q token (hsame ▸ hheld)
    · rw [hlock]
      exact h.locked q token (writerStep_call hstep hother ▸ hheld)
  | save written =>
    obtain ⟨hlock, hsame⟩ := save_held hstep
    by_cases hother : q = p
    · subst hother
      rw [hlock]
      exact h.locked q token (hsame ▸ hheld)
    · rw [hlock]
      exact h.locked q token (writerStep_call hstep hother ▸ hheld)
  | release =>
    simp only [writerStep] at hstep
    split at hstep
    · next about hsettled =>
      obtain rfl := Option.some.inj hstep
      have hother : q ≠ p := by
        rintro rfl
        simp [Call.held] at hheld
      have hlock := h.locked q token (by simpa [hother] using hheld)
      have habout : token ≠ about := by
        rintro rfl
        have hmine := h.locked p token (by rw [hsettled]; rfl)
        exact hother (Option.some.inj (hlock.symm.trans hmine))
      exact (Function.update_of_ne habout ..).trans hlock
    · cases hstep

theorem Writers.locked_move (h : s.Writers) (hmove : s.move placed label = some s') (p : π)
    (token : τ) (hheld : (s'.call p).held = some token) : s'.lock token = some p := by
  cases label with
  | sweep act =>
    have hspares := sweepStep_spares hmove
    rw [hspares.call] at hheld
    rw [hspares.lock]
    exact h.locked p token hheld
  | act q act =>
    simp only [move] at hmove
    split at hmove
    · exact h.locked_act hmove p token hheld
    · cases hmove
  | die q =>
    obtain rfl := Option.some.inj hmove
    by_cases hother : p = q
    · subst hother
      simp [Call.held] at hheld
    · have hlock := h.locked p token (by simpa [hother] using hheld)
      simpa [hlock] using hother
  | _ =>
    obtain rfl := Option.some.inj hmove
    exact h.locked p token hheld

theorem Writers.step (h : s.Writers) (hstep : s.step placed label = some s') : s'.Writers where
  locked p token hheld := by
    obtain ⟨after, hmove, rfl⟩ := step_eq_some.mp hstep
    exact h.locked_move hmove p token hheld
  ready p token write loaded hready hadopts current hcurrent := by
    rcases step_record hstep hcurrent with hsame | ⟨q, other, hsaved, hsettled, -⟩
    · rcases step_ready hstep hready with hbefore | ⟨-, -, howner⟩
      · exact h.ready p token write loaded hbefore hadopts current hsame
      · obtain ⟨found, hfound, howner⟩ := howner hadopts
        rw [howner, Option.some.inj (hsame.symm.trans hfound)]
    · -- the process that saved holds the lock alone, and is no longer about to save
      have hq : s.lock token = some q := h.locked q token (by rw [hsaved]; rfl)
      have hp : s.lock token = some p := by
        rcases step_ready hstep hready with hbefore | ⟨hbefore, -, -⟩
        all_goals exact h.locked p token (by rw [hbefore]; rfl)
      obtain rfl : q = p := Option.some.inj (hq.symm.trans hp)
      cases hsettled.symm.trans hready

/-- The record still names the owner that it was listed with, unless the session has been
adopted since. -/
structure Owned (s : World τ ρ β π) (token : τ) (record : Record τ π) : Prop where
  current : s.adopted .listed token = false → ∀ current, s.record token = some current →
    current.owner = record.owner
  ready : s.adopted .listed token = false → ∀ p write loaded,
    s.call p = .ready token write loaded → write.adopts = false → loaded.owner = record.owner

theorem Owned.step (h : s.Owned token record) (hstep : s.step placed label = some s')
    (hadopted : s'.adopted .listed token = false → s.adopted .listed token = false) :
    s'.Owned token record where
  current hnone current hcurrent := by
    have hbefore := hadopted hnone
    rcases step_record hstep hcurrent with hsame | ⟨p, write, hready, -, hmarked⟩
    · exact h.current hbefore current hsame
    · refine h.ready hbefore p write current hready ?_
      rw [hnone, hbefore, Bool.false_or] at hmarked
      exact hmarked.symm
  ready hnone p write loaded hready hadopts := by
    have hbefore := hadopted hnone
    rcases step_ready hstep hready with hsame | ⟨-, -, howner⟩
    · exact h.ready hbefore p write loaded hsame hadopts
    · obtain ⟨current, hcurrent, howner⟩ := howner hadopts
      rw [howner]
      exact h.current hbefore current hcurrent

/-! ## What the sweep has found out -/

theorem sweepStep_adopted {act : SweepAct τ} (hstep : s.sweepStep placed act = some s')
    (hread : act ≠ .read) {since : Since} (hage : since = .listed ∨ ∀ stated, act ≠ .age stated)
    (token : τ) : s'.adopted since token = s.adopted since token := by
  cases act with
  | read => exact absurd rfl hread
  | age stated =>
    obtain rfl : since = .listed := hage.resolve_right fun h => h stated rfl
    simp only [sweepStep] at hstep
    repeat' split at hstep
    all_goals first
      | (obtain rfl := Option.some.inj hstep; simp [reported])
      | cases hstep
  | _ =>
    simp only [sweepStep] at hstep
    repeat' split at hstep
    all_goals first
      | (obtain rfl := Option.some.inj hstep; rfl)
      | cases hstep

/-- A step that is none of the sweep's leaves the sweep where it is; one that adopts a session
does so for whoever asks. -/
theorem move_outside (hmove : s.move placed label = some s')
    (hlabel : ∀ act, label ≠ .sweep act) :
    s'.sweep = s.sweep ∧ s'.forgotten = s.forgotten ∧
      ∀ token, ∃ adopts, ∀ since,
        s'.adopted since token = (s.adopted since token || adopts) := by
  cases label with
  | sweep act => exact absurd rfl (hlabel act)
  | act p act =>
    simp only [move] at hmove
    split at hmove
    · cases act with
      | save written =>
        simp only [writerStep] at hmove
        split at hmove
        · split at hmove
          · obtain rfl := Option.some.inj hmove
            exact ⟨rfl, rfl, fun _ => ⟨_, fun _ => rfl⟩⟩
          · obtain rfl := Option.some.inj hmove
            exact ⟨rfl, rfl, fun _ => ⟨false, by simp⟩⟩
        · cases hmove
      | _ =>
        simp only [writerStep] at hmove
        repeat' split at hmove
        all_goals first
          | (obtain rfl := Option.some.inj hmove; exact ⟨rfl, rfl, fun _ => ⟨false, by simp⟩⟩)
          | cases hmove
    · cases hmove
  | _ =>
    obtain rfl := Option.some.inj hmove
    exact ⟨rfl, rfl, fun _ => ⟨false, by simp⟩⟩

theorem step_running (hstep : s.step placed label = some s') (p : π)
    (hrunning : s'.running p = true) : s.running p = true := by
  obtain ⟨after, hmove, rfl⟩ := step_eq_some.mp hstep
  cases label with
  | sweep act => exact congrFun (sweepStep_spares hmove).running p ▸ hrunning
  | act q act =>
    simp only [move] at hmove
    split at hmove
    · cases act with
      | _ =>
        simp only [writerStep] at hmove
        repeat' split at hmove
        all_goals first
          | (obtain rfl := Option.some.inj hmove; exact hrunning)
          | cases hmove
    · cases hmove
  | die q =>
    obtain rfl := Option.some.inj hmove
    by_cases hother : p = q
    · subst hother
      simp [marked] at hrunning
    · simpa [marked, hother] using hrunning
  | _ =>
    obtain rfl := Option.some.inj hmove
    exact hrunning

/-- A question was answered, and still is so or has turned. -/
def Stands (placed : τ → Placement ρ β) (s : World τ ρ β π) (token : τ)
    (record : Record τ π) : Question → Prop
  | .owner => record.owner.any s.running = false
  | question => s.Settled placed token question

theorem Stands.step (h : s.Stands placed token record question)
    (hstep : s.step placed label = some s') : s'.Stands placed token record question := by
  cases question with
  | owner =>
    unfold Stands at h ⊢
    cases howner : record.owner with
    | none => rfl
    | some p =>
      rw [howner] at h
      refine Bool.eq_false_iff.mpr fun hrunning => ?_
      exact Bool.eq_false_iff.mp h (step_running hstep p hrunning)
  | inside => exact Settled.step h hstep
  | work => exact Settled.step h hstep
  | dirty => exact Settled.step h hstep

structure Found (placed : τ → Placement ρ β) (s : World τ ρ β π)
    (entry : τ × Record τ π) : Prop where
  owned : s.Owned entry.1 entry.2
  stands : ∀ question, s.Stands placed entry.1 entry.2 question

/-- The records of a sweep that is judging them. -/
structure Judges (placed : τ → Placement ρ β) (s : World τ ρ β π)
    (rest : List (τ × Record τ π)) (question : Question) (evidence : τ → Option Bool)
    (found : List (τ × Record τ π)) : Prop where
  owned : ∀ entry ∈ rest, s.Owned entry.1 entry.2
  stands : ∀ entry ∈ rest.head?, ∀ earlier ∈ question.earlier,
    s.Stands placed entry.1 entry.2 earlier
  evidence : ∀ token, evidence token = some false → s.Settled placed token .work
  found : ∀ entry ∈ found, s.Found placed entry

/-- What the sweep has found out of the records it is at. -/
def Sweeps (placed : τ → Placement ρ β) (s : World τ ρ β π) : Phase τ π → Prop
  | .idle => True
  | .listing entries listed =>
    entries.Nodup ∧ ∀ entry ∈ listed, entry.1 ∉ entries ∧ s.Owned entry.1 entry.2
  | .judging _ rest question evidence found => s.Judges placed rest question evidence found
  | .forgetting rest aging =>
    (∀ entry ∈ rest, s.Found placed entry) ∧
      (aging = .old → ∀ entry ∈ rest.head?,
        s.adopted .listed entry.1 = true → s.adopted .aged entry.1 = true)

/-- What a step that takes no mark of an adoption off leaves standing. -/
structure Carries (placed : τ → Placement ρ β) (s s' : World τ ρ β π) : Prop where
  owned : ∀ token record, s.Owned token record → s'.Owned token record
  stands : ∀ token record question, s.Stands placed token record question →
    s'.Stands placed token record question

theorem carries_of_step (hstep : s.step placed label = some s')
    (hadopted : ∀ token, s'.adopted .listed token = false → s.adopted .listed token = false) :
    s.Carries placed s' where
  owned token _ h := h.step hstep (hadopted token)
  stands _ _ _ h := h.step hstep

theorem Found.carry {entry : τ × Record τ π} (h : s.Found placed entry)
    (hcarries : s.Carries placed s') : s'.Found placed entry where
  owned := hcarries.owned _ _ h.owned
  stands question := hcarries.stands _ _ question (h.stands question)

theorem Judges.carry {rest found : List (τ × Record τ π)} {evidence : τ → Option Bool}
    (h : s.Judges placed rest question evidence found) (hcarries : s.Carries placed s') :
    s'.Judges placed rest question evidence found where
  owned entry hentry := hcarries.owned _ _ (h.owned entry hentry)
  stands entry hentry earlier hearlier :=
    hcarries.stands _ _ earlier (h.stands entry hentry earlier hearlier)
  evidence token htoken :=
    hcarries.stands token ⟨.opened, none, none⟩ .work (h.evidence token htoken)
  found entry hentry := (h.found entry hentry).carry hcarries

theorem Sweeps.carry {phase : Phase τ π} (h : s.Sweeps placed phase)
    (hcarries : s.Carries placed s')
    (hadopted : ∀ token, (s.adopted .listed token = true → s.adopted .aged token = true) →
      s'.adopted .listed token = true → s'.adopted .aged token = true) :
    s'.Sweeps placed phase := by
  cases phase with
  | idle => trivial
  | listing entries listed =>
    refine ⟨h.1, fun entry hentry => ⟨(h.2 entry hentry).1, ?_⟩⟩
    exact hcarries.owned _ _ (h.2 entry hentry).2
  | judging listed rest question evidence found => exact Judges.carry h hcarries
  | forgetting rest aging =>
    refine ⟨fun entry hentry => (h.1 entry hentry).carry hcarries, ?_⟩
    exact fun haging entry hentry => hadopted entry.1 (h.2 haging entry hentry)

/-! ## One step of the sweep -/

theorem spent_of_unpublished (h : s.unpublished token = false) :
    s.spent placed token .work = true := by
  unfold spent
  cases s.record token with
  | none => rfl
  | some current => simp [answers, view, h]

/-- A question that is asked of a tree, and answered, stands for the record as it is, if the
tree is not its own against the listing. -/
theorem spent_of_answer {listed : List (τ × Record τ π)} {reads : Reads} {work : Bool}
    (hquestion : question = .inside ∨ question = .dirty)
    (hheeded : (s.record token).all (fun current =>
      !s.treeAsked placed (s.view placed token) token current ||
        s.treeAsked placed ⟨openRoots placed listed, reads, false⟩ token record) = true)
    (hanswer : s.answer placed listed reads work token record question = true) :
    s.spent placed token question = true := by
  unfold spent
  cases hcurrent : s.record token with
  | none => rfl
  | some current =>
    rw [hcurrent, Option.all_some] at hheeded
    rw [Option.all_some]
    cases hown : s.treeAsked placed (s.view placed token) token current with
    | false =>
      unfold treeAsked at hown
      rcases hquestion with rfl | rfl
      · simp only [answers, hown, Bool.false_and, Bool.not_false]
      · simp only [answers, hown, Bool.false_and, Bool.not_false]
    | true =>
      have hasked : s.treeAsked placed ⟨openRoots placed listed, reads, work⟩ token record =
          true := by
        rw [hown, Bool.not_true, Bool.false_or] at hheeded
        exact hheeded
      unfold treeAsked at hown hasked
      rcases hquestion with rfl | rfl
      · simp only [answer, answers, hasked, Bool.true_and] at hanswer
        simp only [answers, hown, Bool.true_and]
        exact hanswer
      · simp only [answer, answers, hasked, Bool.true_and] at hanswer
        simp only [answers, hown, Bool.true_and]
        revert hanswer
        cases s.worktree (placed token).runRoot with
        | none => exact id
        | some tree =>
          cases hdirty : tree.dirty with
          | false => simp [view, hdirty]
          | true => simp [hdirty]

theorem stands_of_answer {listed : List (τ × Record τ π)} {reads : Reads} {work : Bool}
    (hquestion : question ≠ .work)
    (hheeded : (!(decide (question = .inside) || decide (question = .dirty)) ||
      (s.record token).all fun current =>
        !s.treeAsked placed (s.view placed token) token current ||
          s.treeAsked placed ⟨openRoots placed listed, reads, false⟩ token record) = true)
    (hanswer : s.answer placed listed reads work token record question = true) :
    s.Stands placed token record question := by
  cases question with
  | owner => simpa [answer, answers, Stands] using hanswer
  | inside => exact .inr (spent_of_answer (.inl rfl) (by simpa using hheeded) hanswer)
  | work => exact absurd rfl hquestion
  | dirty => exact .inr (spent_of_answer (.inr rfl) (by simpa using hheeded) hanswer)

/-- A record that is gone on from leaves the rest to be judged from the first question on. -/
theorem Judges.skip {entry : τ × Record τ π} {rest found : List (τ × Record τ π)}
    {evidence : τ → Option Bool}
    (h : s.Judges placed (entry :: rest) question evidence found) :
    s.Judges placed rest .owner evidence found where
  owned other hother := h.owned other (List.mem_cons_of_mem _ hother)
  stands _ _ _ hearlier := nomatch hearlier
  evidence := h.evidence
  found := h.found

theorem Judges.judged {listed rest found : List (τ × Record τ π)}
    {evidence : τ → Option Bool} {stands : Bool}
    (h : s.Judges placed ((token, record) :: rest) question evidence found)
    (hstands : stands = true → s.Stands placed token record question) :
    s.Sweeps placed (s.judged listed token record rest question evidence found stands).sweep := by
  cases stands with
  | false => exact h.skip
  | true =>
    have hhead := h.stands (token, record) (by simp)
    have hnow := hstands rfl
    have hmore : ∀ next : Question, (∀ about ∈ next.earlier,
        about ∈ question.earlier ∨ about = question) →
        s.Judges placed ((token, record) :: rest) next evidence found := by
      refine fun next hnext => ⟨h.owned, ?_, h.evidence, h.found⟩
      intro entry hentry about habout
      obtain rfl : (token, record) = entry := by simpa using hentry
      rcases hnext about habout with hearlier | rfl
      · exact hhead about hearlier
      · exact hnow
    cases question with
    | owner => exact hmore .inside (by simp [Question.earlier])
    | inside => exact hmore .work (by simp [Question.earlier])
    | work => exact hmore .dirty (by simp [Question.earlier])
    | dirty =>
      refine ⟨h.skip.owned, h.skip.stands, h.evidence, fun entry hentry => ?_⟩
      rcases List.mem_append.mp hentry with hbefore | hlast
      · exact h.found entry hbefore
      · obtain rfl := List.mem_singleton.mp hlast
        refine ⟨h.owned _ List.mem_cons_self, fun about => ?_⟩
        cases about with
        | owner => exact hhead .owner (by simp [Question.earlier])
        | inside => exact hhead .inside (by simp [Question.earlier])
        | work => exact hhead .work (by simp [Question.earlier])
        | dirty => exact hnow

/-- What is known of a record in hand is what is found of it, once the last question is
answered. -/
structure Invariant (placed : τ → Placement ρ β) (s : World τ ρ β π) : Prop where
  writers : s.Writers
  sweeps : s.Sweeps placed s.sweep
  forgotten : ∀ f ∈ s.forgotten, (∀ question, f.spent question = true) ∧ f.adopted = false

theorem sweeps_list {request : Request} {entries : List τ}
    (hmove : s.sweepStep placed (.list request entries) = some s') :
    (s.marked placed s').Sweeps placed s'.sweep ∧ s'.forgotten = s.forgotten := by
  simp only [sweepStep] at hmove
  split at hmove
  · split at hmove
    · next hnodup =>
      obtain rfl := Option.some.inj hmove
      exact ⟨⟨hnodup, fun _ hentry => nomatch hentry⟩, rfl⟩
    · cases hmove
  · cases hmove

theorem sweeps_read (h : s.Invariant placed) (hmove : s.sweepStep placed .read = some s')
    (hstep : s.step placed (.sweep .read) = some (s.marked placed s')) :
    (s.marked placed s').Sweeps placed s'.sweep ∧ s'.forgotten = s.forgotten := by
  have hsweeps := h.sweeps
  simp only [sweepStep] at hmove
  split at hmove
  · next about entries listed hsweep =>
    rw [hsweep] at hsweeps
    obtain ⟨hnodup, hlisted⟩ := hsweeps
    obtain ⟨hfresh, hnodup⟩ := List.nodup_cons.mp hnodup
    split at hmove
    · obtain rfl := Option.some.inj hmove
      refine ⟨⟨hnodup, fun entry hentry => ?_⟩, rfl⟩
      obtain ⟨hother, howned⟩ := hlisted entry hentry
      exact ⟨fun hin => hother (List.mem_cons_of_mem _ hin), howned.step hstep id⟩
    · next found hfound =>
      obtain rfl := Option.some.inj hmove
      refine ⟨⟨hnodup, fun entry hentry => ?_⟩, rfl⟩
      rcases List.mem_append.mp hentry with hbefore | hlast
      · obtain ⟨hother, howned⟩ := hlisted entry hbefore
        have habout : entry.1 ≠ about := fun heq => hother (heq ▸ List.mem_cons_self)
        refine ⟨fun hin => hother (List.mem_cons_of_mem _ hin), howned.step hstep ?_⟩
        simp [marked, habout]
      · obtain rfl := List.mem_singleton.mp hlast
        refine ⟨hfresh, fun _ current hcurrent => ?_, fun _ p write loaded hready hnone => ?_⟩
        · rw [Option.some.inj (hfound.symm.trans hcurrent)]
        · exact (h.writers.ready p about write loaded hready hnone found hfound).symm
  · cases hmove

theorem sweeps_judge (h : s.Invariant placed) (hmove : s.sweepStep placed .judge = some s')
    (hcarries : s.Carries placed (s.marked placed s')) :
    (s.marked placed s').Sweeps placed s'.sweep ∧ s'.forgotten = s.forgotten := by
  have hsweeps := h.sweeps
  simp only [sweepStep] at hmove
  split at hmove
  · next listed hsweep =>
    rw [hsweep] at hsweeps
    obtain rfl := Option.some.inj hmove
    refine ⟨⟨fun entry hentry => ?_, fun _ _ _ hearlier => ?_, fun _ htoken => ?_,
      fun _ hentry => ?_⟩, rfl⟩
    · have hlisted := (List.perm_insertionSort _ _).mem_iff.mp hentry
      exact hcarries.owned _ _ (hsweeps.2 entry hlisted).2
    · cases hearlier
    · cases htoken
    · cases hentry
  · cases hmove

theorem sweeps_gather {about : τ} (h : s.Invariant placed)
    (hmove : s.sweepStep placed (.gather about) = some s')
    (hcarries : s.Carries placed (s.marked placed s')) :
    (s.marked placed s').Sweeps placed s'.sweep ∧ s'.forgotten = s.forgotten := by
  have hsweeps := h.sweeps
  simp only [sweepStep] at hmove
  split at hmove
  · next listed rest question evidence found hsweep =>
    rw [hsweep] at hsweeps
    have hjudges := Judges.carry hsweeps hcarries
    split at hmove
    · obtain rfl := Option.some.inj hmove
      refine ⟨⟨hjudges.owned, hjudges.stands, fun token htoken => ?_, hjudges.found⟩, rfl⟩
      by_cases habout : token = about
      · subst habout
        rw [Function.update_self] at htoken
        exact .inr (spent_of_unpublished (Option.some.inj htoken))
      · rw [Function.update_of_ne habout] at htoken
        exact hjudges.evidence token htoken
    · cases hmove
  · cases hmove

theorem sweeps_ask {reads : Reads} (h : s.Invariant placed)
    (hguard : s.undisturbed placed (.sweep (.ask reads)) = true)
    (hmove : s.sweepStep placed (.ask reads) = some s')
    (hcarries : s.Carries placed (s.marked placed s')) :
    (s.marked placed s').Sweeps placed s'.sweep ∧ s'.forgotten = s.forgotten := by
  have hsweeps := h.sweeps
  simp only [sweepStep] at hmove
  split at hmove
  · next listed question evidence found hsweep =>
    rw [hsweep] at hsweeps
    obtain rfl := Option.some.inj hmove
    refine ⟨⟨fun entry hentry => ?_, fun haging => nomatch haging⟩, rfl⟩
    exact (hsweeps.found entry hentry).carry hcarries
  · next listed token record rest asking evidence found hsweep =>
    rw [hsweep] at hsweeps
    have hjudges := Judges.carry hsweeps hcarries
    split at hmove
    · cases hmove
    · next work hevidence =>
      obtain rfl := Option.some.inj hmove
      refine ⟨hjudges.judged fun hanswer => ?_, rfl⟩
      obtain rfl : work = false := by simpa using hanswer
      exact hjudges.evidence token hevidence
    · next hnone hsome =>
      obtain rfl := Option.some.inj hmove
      refine ⟨hjudges.judged fun hanswer => hcarries.stands _ _ _ ?_, rfl⟩
      simp only [undisturbed, hsweep] at hguard
      refine stands_of_answer (fun hwork => ?_) hguard hanswer
      cases hevidence : evidence token with
      | none => exact hnone hwork hevidence
      | some work => exact hsome work hwork hevidence
  · cases hmove

theorem sweeps_time (h : s.Invariant placed) (hmove : s.sweepStep placed .time = some s')
    (hcarries : s.Carries placed (s.marked placed s')) :
    (s.marked placed s').Sweeps placed s'.sweep ∧ s'.forgotten = s.forgotten := by
  have hsweeps := h.sweeps
  simp only [sweepStep] at hmove
  split at hmove
  · next rest hsweep =>
    rw [hsweep] at hsweeps
    obtain rfl := Option.some.inj hmove
    refine ⟨⟨fun entry hentry => ?_, fun haging => nomatch haging⟩, rfl⟩
    exact (hsweeps.1 entry hentry).carry hcarries
  · cases hmove

/-- A record whose session was adopted since the listing is under the floor, so one that is not
was not adopted. -/
theorem sweeps_age {stated : Bool} (h : s.Invariant placed)
    (hguard : s.undisturbed placed (.sweep (.age stated)) = true)
    (hmove : s.sweepStep placed (.age stated) = some s')
    (hcarries : s.Carries placed (s.marked placed s')) :
    (s.marked placed s').Sweeps placed s'.sweep ∧ s'.forgotten = s.forgotten := by
  have hsweeps := h.sweeps
  simp only [sweepStep] at hmove
  split at hmove
  · next token record rest now hsweep =>
    rw [hsweep] at hsweeps
    have hfound : ∀ entry ∈ (token, record) :: rest, (s.marked placed s').Found placed entry :=
      fun entry hentry => (hsweeps.1 entry hentry).carry hcarries
    split at hmove
    · obtain rfl := Option.some.inj hmove
      exact ⟨⟨fun entry hentry => hfound entry (List.mem_cons_of_mem _ hentry),
        fun haging => nomatch haging⟩, rfl⟩
    · next hfloor =>
      split at hmove
      · obtain rfl := Option.some.inj hmove
        exact ⟨⟨fun entry hentry => hfound entry (List.mem_cons_of_mem _ hentry),
          fun haging => nomatch haging⟩, rfl⟩
      · obtain rfl := Option.some.inj hmove
        refine ⟨⟨hfound, fun _ entry hentry hadopted => ?_⟩, rfl⟩
        obtain rfl : (token, record) = entry := by simpa using hentry
        have hnone : s.adopted .listed token = false := by
          simpa [undisturbed, hsweep, hfloor] using hguard
        simp [marked, hnone] at hadopted
  · cases hmove

theorem spent_of_stands (h : s.Stands placed token record question) (hquestion : question ≠ .owner)
    (hturned : s.turned token question = false) : s.spent placed token question = true := by
  have hsettled : s.Settled placed token question := by
    cases question with
    | owner => exact absurd rfl hquestion
    | inside => exact h
    | work => exact h
    | dirty => exact h
  exact hsettled.resolve_left (by simp [hturned])

theorem spent_of_owned (howned : s.Owned token record)
    (hdead : s.Stands placed token record .owner) (hadopted : s.adopted .listed token = false) :
    s.spent placed token .owner = true := by
  unfold spent
  cases hcurrent : s.record token with
  | none => rfl
  | some current =>
    have howner := howned.current hadopted current hcurrent
    unfold Stands at hdead
    simp [answers, howner, hdead]

/-- A record that is removed was found to be spent, and no question has turned. -/
theorem sweeps_remove {removed : Bool} (h : s.Invariant placed)
    (hguard : s.undisturbed placed (.sweep (.remove removed)) = true)
    (hmove : s.sweepStep placed (.remove removed) = some s')
    (hcarries : s.Carries placed (s.marked placed s')) :
    (s.marked placed s').Sweeps placed s'.sweep ∧
      ∀ f ∈ s'.forgotten, (∀ question, f.spent question = true) ∧ f.adopted = false := by
  have hsweeps := h.sweeps
  simp only [sweepStep] at hmove
  split at hmove
  · next token record rest hsweep =>
    rw [hsweep] at hsweeps
    obtain ⟨hfound, hold⟩ := hsweeps
    have hrest : ∀ entry ∈ rest, (s.marked placed s').Found placed entry := fun entry hentry =>
      (hfound entry (List.mem_cons_of_mem _ hentry)).carry hcarries
    have hhead := hfound (token, record) List.mem_cons_self
    simp only [undisturbed, hsweep, Bool.and_eq_true, Bool.not_eq_true'] at hguard
    obtain ⟨⟨⟨haged, hinside⟩, hwork⟩, hdirty⟩ := hguard
    have hlisted : s.adopted .listed token = false := by
      refine Bool.eq_false_iff.mpr fun hadopted => ?_
      have haged' := hold rfl (token, record) (by simp) hadopted
      rw [haged] at haged'
      cases haged'
    split at hmove
    · obtain rfl := Option.some.inj hmove
      refine ⟨⟨hrest, fun haging => nomatch haging⟩, fun f hf => ?_⟩
      simp only at hf
      split at hf
      · rcases List.mem_append.mp hf with hbefore | hlast
        · exact h.forgotten f hbefore
        · obtain rfl := List.mem_singleton.mp hlast
          refine ⟨fun question => ?_, hlisted⟩
          cases question with
          | owner => exact spent_of_owned hhead.owned (hhead.stands .owner) hlisted
          | inside =>
            exact spent_of_stands (hhead.stands .inside) (fun hq => nomatch hq) hinside
          | work => exact spent_of_stands (hhead.stands .work) (fun hq => nomatch hq) hwork
          | dirty => exact spent_of_stands (hhead.stands .dirty) (fun hq => nomatch hq) hdirty
      · exact h.forgotten f hf
    · obtain rfl := Option.some.inj hmove
      exact ⟨⟨hrest, fun haging => nomatch haging⟩, h.forgotten⟩
  · cases hmove

theorem Invariant.outside (h : s.Invariant placed) (hmove : s.move placed label = some s')
    (hstep : s.step placed label = some (s.marked placed s'))
    (hlabel : ∀ act, label ≠ .sweep act) : (s.marked placed s').Invariant placed := by
  obtain ⟨hsweep, hforgotten, hadopts⟩ := move_outside hmove hlabel
  have hcarries : s.Carries placed (s.marked placed s') := by
    refine carries_of_step hstep fun token hnone => ?_
    obtain ⟨adopts, hadopts⟩ := hadopts token
    exact ((Bool.or_eq_false_iff.mp ((hadopts .listed).symm.trans hnone))).1
  refine ⟨h.writers.step hstep, ?_, ?_⟩
  · show World.Sweeps placed _ s'.sweep
    rw [hsweep]
    refine h.sweeps.carry hcarries fun token hbefore hlisted => ?_
    obtain ⟨adopts, hadopts⟩ := hadopts token
    have hor := (hadopts .listed).symm.trans hlisted
    refine (hadopts .aged).trans ?_
    rcases Bool.or_eq_true_iff.mp hor with hold | hnew
    · rw [hbefore hold, Bool.true_or]
    · rw [hnew, Bool.or_true]
  · show ∀ f ∈ s'.forgotten, _
    rw [hforgotten]
    exact h.forgotten

theorem Invariant.step (h : s.Invariant placed)
    (hguard : s.undisturbed placed label = true) (hstep : s.step placed label = some s') :
    s'.Invariant placed := by
  have hwriters := h.writers.step hstep
  obtain ⟨after, hmove, rfl⟩ := step_eq_some.mp hstep
  cases label with
  | sweep act =>
    have hcarries (hread : act ≠ .read) : s.Carries placed (s.marked placed after) :=
      carries_of_step hstep fun token hadopted => by
        rw [← sweepStep_adopted hmove hread (.inl rfl) token]
        exact hadopted
    have hkept (heq : after.forgotten = s.forgotten) : ∀ f ∈ after.forgotten,
        (∀ question, f.spent question = true) ∧ f.adopted = false := heq ▸ h.forgotten
    cases act with
    | list request entries =>
      obtain ⟨hsweeps, hsame⟩ := sweeps_list hmove
      exact ⟨hwriters, hsweeps, hkept hsame⟩
    | read =>
      obtain ⟨hsweeps, hsame⟩ := sweeps_read h hmove hstep
      exact ⟨hwriters, hsweeps, hkept hsame⟩
    | judge =>
      obtain ⟨hsweeps, hsame⟩ := sweeps_judge h hmove (hcarries fun heq => nomatch heq)
      exact ⟨hwriters, hsweeps, hkept hsame⟩
    | gather about =>
      obtain ⟨hsweeps, hsame⟩ := sweeps_gather h hmove (hcarries fun heq => nomatch heq)
      exact ⟨hwriters, hsweeps, hkept hsame⟩
    | ask reads =>
      obtain ⟨hsweeps, hsame⟩ := sweeps_ask h hguard hmove (hcarries fun heq => nomatch heq)
      exact ⟨hwriters, hsweeps, hkept hsame⟩
    | time =>
      obtain ⟨hsweeps, hsame⟩ := sweeps_time h hmove (hcarries fun heq => nomatch heq)
      exact ⟨hwriters, hsweeps, hkept hsame⟩
    | age stated =>
      obtain ⟨hsweeps, hsame⟩ := sweeps_age h hguard hmove (hcarries fun heq => nomatch heq)
      exact ⟨hwriters, hsweeps, hkept hsame⟩
    | remove removed =>
      obtain ⟨hsweeps, hspent⟩ :=
        sweeps_remove h hguard hmove (hcarries fun heq => nomatch heq)
      exact ⟨hwriters, hsweeps, hspent⟩
    | stop =>
      obtain rfl := Option.some.inj hmove
      exact ⟨hwriters, trivial, h.forgotten⟩
  | _ => exact h.outside hmove hstep fun _ heq => nomatch heq

end World

/-- A host whose steps are undisturbed forgets what is spent. -/
theorem forgotten_while_spent (placed : τ → Placement ρ β) {s : World τ ρ β π}
    (h : (host placed).ReachableBy (fun s label => s.undisturbed placed label = true) s) :
    ∀ f ∈ s.forgotten, (∀ question, f.spent question = true) ∧ f.adopted = false := by
  have hinvariant : s.Invariant placed := by
    refine h.invariant (fun s hinitial => ?_) fun _ _ _ h hguard hstep => h.step hguard hstep
    refine ⟨⟨fun p token hheld => ?_, fun p token write loaded hready => ?_⟩, ?_, ?_⟩
    · rw [hinitial.call p] at hheld
      cases hheld
    · rw [hinitial.call p] at hready
      cases hready
    · rw [hinitial.sweep]
      trivial
    · rw [hinitial.forgotten]
      exact fun _ hf => nomatch hf
  exact hinvariant.forgotten

end Runs

/-! ## A host of two sessions -/

/-- Each session has a run root of its own. -/
def apart (token : Nat) : Placement Nat Nat := ⟨token, token, none⟩

/-- The process that opened both sessions has gone and left nothing behind. -/
def abandoned : World Nat Nat Nat Nat where
  records := ((∅ : AList fun _ : Nat => Stored Nat Nat).insert 0 ⟨⟨.opened, some 9, none⟩, 0⟩).insert
    1 ⟨⟨.opened, some 9, none⟩, 0⟩
  lock _ := none
  call _ := .idle
  running p := p != 9
  working _ := false
  worktree _ := none
  unpublished _ := false
  clock := 0
  request := ⟨false, 0⟩
  sweep := .idle
  report := []
  forgotten := []
  turned _ _ := false
  adopted _ _ := false

theorem abandoned_initial : (host apart).Initial abandoned :=
  ⟨fun _ => rfl, fun _ => rfl, rfl, rfl⟩

/-- The questions about a session, to the last. -/
def askAll (token : Nat) : List (Label Nat Nat Nat Nat) :=
  [.sweep (.ask ⟨true, true⟩), .sweep (.ask ⟨true, true⟩), .sweep (.gather token),
    .sweep (.ask ⟨true, true⟩), .sweep (.ask ⟨true, true⟩)]

def adoption (p token : Nat) : List (Label Nat Nat Nat Nat) :=
  [.act p (.take token (.update (.adopt true))), .act p .load, .act p (.save true),
    .act p .release]

/-- Both sessions are listed and found to be spent. -/
def foundSpent : List (Label Nat Nat Nat Nat) :=
  [.sweep (.list ⟨false, 5⟩ [1, 0]), .sweep .read, .sweep .read, .sweep .judge] ++
    askAll 0 ++ askAll 1 ++ [.sweep (.ask ⟨true, true⟩), .time 9]

/-- The second is adopted before its age is read. -/
def adoptedInTime : List (Label Nat Nat Nat Nat) :=
  foundSpent ++ [.sweep .time, .sweep (.age true), .sweep (.remove true)] ++ adoption 2 1 ++
    [.sweep .time, .sweep (.age true)]

theorem keptInTime_runs : ((host apart).run abandoned adoptedInTime).isSome := by decide

def keptInTime : World Nat Nat Nat Nat :=
  ((host apart).run abandoned adoptedInTime).get keptInTime_runs

theorem forgotten_while_spent_beside :
    keptInTime.report = [(0, .forgotten), (1, .fresh 0 5)] ∧
      keptInTime.forgotten.map Forgotten.token = [0] ∧
      ∀ f ∈ keptInTime.forgotten, (∀ question, f.spent question = true) ∧ f.adopted = false :=
  ⟨by decide, by decide, forgotten_while_spent apart
    (System.reachableBy_of_run abandoned_initial (by decide)
      (Option.some_get keptInTime_runs).symm)⟩

/-- The second is adopted once its age is read. -/
def adoptedLate : List (Label Nat Nat Nat Nat) :=
  foundSpent ++ [.sweep .time, .sweep (.age true), .sweep (.remove true), .sweep .time,
    .sweep (.age true)] ++ adoption 2 1 ++ [.sweep (.remove true)]

theorem lostLate_runs : ((host apart).run abandoned adoptedLate).isSome := by decide

def lostLate : World Nat Nat Nat Nat :=
  ((host apart).run abandoned adoptedLate).get lostLate_runs

/-- A session that a running process has adopted is forgotten. -/
theorem adopted_forgotten : (host apart).Reachable lostLate ∧
    ∃ f ∈ lostLate.forgotten, f.token = 1 ∧ f.spent .owner = false ∧ f.adopted = true := by
  refine ⟨System.reachable_of_run abandoned_initial (Option.some_get lostLate_runs).symm, ?_⟩
  decide

end Onevcs.Sweep.Records
