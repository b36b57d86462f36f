import Onevcs.Retire.DeletionSafe

/-!
# Runs of a retirement

What holds of every run of `act` beside the processes that move the copies, and two runs
that show why it is stated with exceptions: a place that has the branch again by the time
its copy is to be put back, and a copy that cannot be read once its deletion was refused.
-/

set_option linter.unusedSectionVars false

namespace Onevcs.Retire

open Foundations (System)

variable {κ : Type} [DecidableEq κ] {setting : Setting κ} {s : World κ}

namespace Invariant

theorem of_reachable (h : (retiring setting).Reachable s) : Invariant setting s := by
  refine System.ReachableBy.invariant h ?_ fun s label s' hinv _ hs => hinv.step hs
  rintro s ⟨⟨copies, hphase⟩, hattempts⟩
  unfold Invariant
  rw [hphase, hattempts]
  exact ⟨rfl, by decide, fun attempt hmem => absurd hmem (List.not_mem_nil)⟩

end Invariant

namespace Underway

variable {number : Nat} {classified : Classified κ} {attempts : List (Attempt κ)}
  {P : Attempt κ → Prop}

theorem covered (h : Underway setting number classified attempts P) :
    ∀ attempt ∈ attempts, attempt.Covered setting := by
  obtain ⟨newest, earlier, rfl, -, -, hsettled, hcovered, -⟩ := h
  intro attempt hmem
  rcases List.mem_cons.mp hmem with rfl | hmem
  · exact hcovered
  · exact (hsettled attempt hmem).1

theorem tail_putBack (h : Underway setting number classified attempts P) :
    ∀ attempt ∈ attempts.tail, attempt.PutBack := by
  obtain ⟨newest, earlier, rfl, -, -, hsettled, -⟩ := h
  exact fun attempt hmem => (hsettled attempt hmem).2.1

theorem putBack (h : Underway setting number classified attempts P)
    (hnewest : ∀ attempt, P attempt → attempt.found = []) :
    ∀ attempt ∈ attempts, attempt.PutBack := by
  obtain ⟨newest, earlier, rfl, -, -, hsettled, -, -, -, -, -, hP⟩ := h
  intro attempt hmem
  rcases List.mem_cons.mp hmem with rfl | hmem
  · exact putBack_of_found_nil (hnewest _ hP)
  · exact (hsettled attempt hmem).2.1

theorem length_le (h : Underway setting number classified attempts P) :
    attempts.length ≤ reclassifications := by
  obtain ⟨newest, earlier, rfl, hlen, hlt, -⟩ := h
  rw [List.length_cons]
  omega

theorem not_moved (h : Underway setting number classified attempts P) :
    ¬ ∀ attempt ∈ attempts, attempt.moved = true := by
  obtain ⟨newest, earlier, rfl, -, -, -, -, -, hmoved, -⟩ := h
  intro hall
  rw [hall newest (List.mem_cons_self ..)] at hmoved
  cases hmoved

end Underway

namespace Invariant

/-- What the phase knows of the attempts, said of all of them at once. -/
theorem attempts (h : Invariant setting s) :
    (∀ attempt ∈ s.attempts, attempt.Covered setting) ∧
      (∀ attempt ∈ s.settled, attempt.PutBack) ∧ s.attempts.length ≤ reclassifications ∧
      (s.attempts.length = reclassifications → (∀ attempt ∈ s.attempts, attempt.moved = true) →
        s.phase.keptUnknown = true) := by
  unfold Invariant at h
  unfold World.settled
  cases hphase : s.phase with
  | classifying number copies =>
    rw [hphase] at h
    obtain ⟨hlen, hlt, hsettled⟩ := h
    exact ⟨fun attempt hmem => (hsettled attempt hmem).1,
      fun attempt hmem => (hsettled attempt hmem).2.1, by omega, by omega⟩
  | reading number left read =>
    rw [hphase] at h
    obtain ⟨hlen, hlt, hsettled⟩ := h
    exact ⟨fun attempt hmem => (hsettled attempt hmem).1,
      fun attempt hmem => (hsettled attempt hmem).2.1, by omega, by omega⟩
  | rereading number classified left now =>
    rw [hphase] at h
    exact ⟨Underway.covered h, Underway.putBack h fun _ hP => hP.2, Underway.length_le h,
      fun _ hall => absurd hall (Underway.not_moved h)⟩
  | deleting number classified left work =>
    rw [hphase] at h
    exact ⟨Underway.covered h, Underway.putBack h fun _ hP => hP.2.1, Underway.length_le h,
      fun _ hall => absurd hall (Underway.not_moved h)⟩
  | probing number classified copy left work refusal =>
    rw [hphase] at h
    exact ⟨Underway.covered h, Underway.putBack h fun _ hP => hP.2.1, Underway.length_le h,
      fun _ hall => absurd hall (Underway.not_moved h)⟩
  | leasing number classified tip work =>
    rw [hphase] at h
    exact ⟨Underway.covered h, Underway.putBack h fun _ hP => hP.2.1, Underway.length_le h,
      fun _ hall => absurd hall (Underway.not_moved h)⟩
  | asking number classified tip work refusal =>
    rw [hphase] at h
    exact ⟨Underway.covered h, Underway.putBack h fun _ hP => hP.2.1, Underway.length_le h,
      fun _ hall => absurd hall (Underway.not_moved h)⟩
  | restoring number classified left =>
    rw [hphase] at h
    exact ⟨Underway.covered h, Underway.tail_putBack h, Underway.length_le h,
      fun _ hall => absurd hall (Underway.not_moved h)⟩
  | answered answer =>
    rw [hphase] at h
    obtain ⟨hlen, hall, hkept⟩ := h
    exact ⟨fun attempt hmem => (hall attempt hmem).1, fun attempt hmem => (hall attempt hmem).2,
      hlen, hkept⟩

end Invariant

/-- In every run of `act` beside other processes: an attempt deletes only copies it
classified, at the tips it classified them at, under a class the acting mode permits, with
the base and every copy read and read again unmoved; each copy an attempt deleted before it
found one at another tip is put back, unless its place has the branch again or git refuses;
and there are at most three attempts, the last of which answers that the branch is kept
where a copy moved under it too. A step of `act` changes the refs only in these ways. -/
theorem deleted_as_classified (setting : Setting κ) {s : World κ}
    (h : (retiring setting).Reachable s) :
    (∀ attempt ∈ s.attempts, attempt.Covered setting) ∧
    (∀ attempt ∈ s.settled, attempt.PutBack) ∧
    s.attempts.length ≤ reclassifications ∧
    (s.attempts.length = reclassifications → (∀ attempt ∈ s.attempts, attempt.moved = true) →
      s.phase.keptUnknown = true) ∧
    ∀ label s', label.own = true → (retiring setting).step s label = some s' →
      Effects label s s' := by
  have hinv := Invariant.of_reachable h
  obtain ⟨hcovered, hback, hlen, hkept⟩ := hinv.attempts
  exact ⟨hcovered, hback, hlen, hkept, fun label s' hown hs => step_effects hinv hown hs⟩

/-! ## Runs -/

/-- Two checkouts of a repository without an origin; its base stands at 0. -/
def twoCheckouts : Setting ℕ where
  census := ⟨"repo", "/one", some "main", some 0, none, none,
    [⟨.checkout, "/one"⟩, ⟨.checkout, "/two"⟩], []⟩
  branch := "feature"
  acting := .retire
  dryRun := false

/-- Both checkouts have the branch at 1, as a listing of them says. -/
def listed : World ℕ where
  refs := fun holding => if holding = .place 0 ∨ holding = .place 1 then some 1 else none
  phase := .classifying 0 ⟨[⟨.place 0, 1⟩, ⟨.place 1, 1⟩], []⟩
  attempts := []

/-- Nobody holds the branch or works on it. -/
def unheld : FreshReads := ⟨.ok none, false, .ok none⟩

/-- A verdict that the branch may be retired. -/
def mayGo : Retirement ℕ :=
  { Retirement.kept twoCheckouts.census "feature" .unknown ⟨[⟨.place 0, 1⟩, ⟨.place 1, 1⟩], []⟩ with
    retirementClass := .retirable
    reason := none
    proof := some (.contentIdentical 0) }

/-- The branch is classified, read again, and deleted from the first checkout. -/
def deletingOne : List (Label ℕ) :=
  [.classify unheld mayGo .concluded, .read none, .read none, .proceed, .delete true ""]

/-- Another process moves the second copy, and the first is put back. -/
def puttingBack : List (Label ℕ) :=
  deletingOne ++ [.move (.place 1) (some 2), .delete true "", .probe none, .restore true, .proceed]

theorem puttingBack_runs : ((retiring twoCheckouts).run listed puttingBack).isSome := by
  rfl

/-- The host once the first copy is put back. -/
def putBackAt : World ℕ := ((retiring twoCheckouts).run listed puttingBack).get puttingBack_runs

theorem deleted_as_classified_putBackAt :
    putBackAt.refs (.place 0) = some 1 ∧
    (putBackAt.settled.map Attempt.deletions = [[⟨.place 0, 1⟩]]) ∧
    ∀ attempt ∈ putBackAt.settled, attempt.PutBack := by
  have hreach : (retiring twoCheckouts).Reachable putBackAt :=
    System.reachable_of_run ⟨⟨_, rfl⟩, rfl⟩ (Option.some_get puttingBack_runs).symm
  exact ⟨by decide +kernel, by decide +kernel, (deleted_as_classified twoCheckouts hreach).2.1⟩

/-- Before the first copy is put back, another process makes the branch there again. -/
def retaking : List (Label ℕ) :=
  deletingOne ++ [.move (.place 1) (some 2), .delete true "", .move (.place 0) (some 3),
    .probe none, .restore true, .proceed]

theorem retaking_runs : ((retiring twoCheckouts).run listed retaking).isSome := by
  rfl

/-- The second copy cannot be read once git refused to delete it. -/
def unreadable : List (Label ℕ) :=
  deletingOne ++ [.delete false "locked", .probe (some "not a repository"), .proceed]

theorem unreadable_runs : ((retiring twoCheckouts).run listed unreadable).isSome := by
  rfl

/-- In one run a copy is found at another tip and the deleted one is not put back at its
own; in the other a copy cannot be read and another stays deleted. -/
theorem left_as_found :
    (∃ s, (retiring twoCheckouts).Reachable s ∧ ∃ attempt ∈ s.settled,
      attempt.found ≠ [] ∧ ∃ copy ∈ attempt.deletions, (copy, .back) ∉ attempt.restores) ∧
    (∃ s, (retiring twoCheckouts).Reachable s ∧ ∃ attempt ∈ s.settled,
      attempt.unread ≠ [] ∧ attempt.deletions ≠ []) := by
  refine ⟨⟨((retiring twoCheckouts).run listed retaking).get retaking_runs,
      System.reachable_of_run ⟨⟨_, rfl⟩, rfl⟩ (Option.some_get _).symm, ?_⟩,
    ⟨((retiring twoCheckouts).run listed unreadable).get unreadable_runs,
      System.reachable_of_run ⟨⟨_, rfl⟩, rfl⟩ (Option.some_get _).symm, ?_⟩⟩
  · decide +kernel
  · decide +kernel

end Onevcs.Retire
