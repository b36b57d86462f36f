import Onevcs.Import.Steps

/-!
# What an import keeps

The invariant of an import that is not disturbed: until it answers it has written nothing, from
its look at the worktrees on no worktree has the name checked out, and what it has judged it is
to write has everything the branch has. Each of the three ways of disturbing it is a run that
loses a commit or moves a branch that is checked out.
-/

namespace Onevcs.Import

open Foundations

variable {κ : Type} {H : History κ} {name unique full : Text} {s s' : State κ} {tip : κ}

theorem scratchRef_ne_headRef : scratchRef unique ≠ headRef name := by
  simp [scratchRef, headRef]

theorem update_scratch (name unique : Text) (refs : Refs κ) (value : Option κ) :
    Function.update refs (scratchRef unique) value (headRef name) = refs (headRef name) := by
  have hne : headRef name ≠ scratchRef unique := scratchRef_ne_headRef.symm
  exact Function.update_of_ne hne value refs

@[simp] theorem finish_head (answer : Except (Refusal κ) (Imported κ)) :
    (s.finish (scratchRef unique) answer).refs (headRef name) = s.refs (headRef name) :=
  update_scratch name unique s.refs none

theorem resolve_headRef {refs : Refs κ} {held : κ} (h : refs (headRef name) = some held) :
    resolve refs (headRef name) = some held := by
  simp [resolve, spellings, h]

theorem currentBranch_of_abbrevRef (hhead : s.head = some name)
    (habbrev : abbrevRef s.refs name = name) : currentBranch s.refs s.head = name := by
  rw [currentBranch, hhead]
  exact habbrev

theorem checkedOut_eq_false :
    s.checkedOut name = false ↔ s.head ≠ some name ∧ s.linked.contains name = false := by
  simp [State.checkedOut]

/-- What is known of an import that nothing disturbs. -/
structure Sound (H : History κ) (name : Text) (s : State κ) : Prop where
  untouched : (∀ imported, s.phase ≠ .answered (.ok imported)) →
    s.refs (headRef name) = s.others
  free : s.phase.looked = true → s.checkedOut name = false
  judged : ∀ source tip wrote, s.phase = .judged source tip wrote →
    ∀ held, s.refs (headRef name) = some held → H.Reaches tip held
  writes : ∀ w ∈ s.writes, w.Keeps H

theorem Sound.refused (h : Sound H name s) (hrunning : ∀ answer, s.phase ≠ .answered answer)
    (refusal : Refusal κ) : Sound H name (s.finish (scratchRef unique) (.error refusal)) where
  untouched _ := by
    rw [finish_head]
    exact h.untouched fun _ => hrunning _
  free := nofun
  judged := nofun
  writes := h.writes

theorem Sound.proceed (h : Sound H name s) (hrunning : ∀ answer, s.phase ≠ .answered answer)
    {phase : Phase κ} {refs : Refs κ} (hrefs : refs (headRef name) = s.refs (headRef name))
    (hfree : phase.looked = true → s.checkedOut name = false)
    (hjudged : ∀ source tip wrote, phase = .judged source tip wrote →
      ∀ held, s.refs (headRef name) = some held → H.Reaches tip held) :
    Sound H name { s with phase, refs } where
  untouched _ := hrefs.trans (h.untouched fun _ => hrunning _)
  free := hfree
  judged source tip wrote hphase held hheld := hjudged source tip wrote hphase held (hrefs ▸ hheld)
  writes := h.writes

theorem Sound.written (h : Sound H name s) {source : Source} {wrote : Wrote}
    (hphase : s.phase = .judged source tip wrote) (answer : Imported κ) :
    Sound H name ((s.write name tip).finish (scratchRef unique) (.ok answer)) where
  untouched hnot := absurd rfl (hnot answer)
  free := nofun
  judged := nofun
  writes := by
    have hwrite : Write.Keeps H ⟨s.refs (headRef name), s.checkedOut name, tip⟩ := by
      constructor
      · intro held a hheld hreach
        exact (h.judged _ _ _ hphase held hheld).trans hreach
      · exact h.free (by simp [hphase, Phase.looked])
    intro w hw
    rcases List.mem_append.mp hw with hold | hnew
    · exact h.writes w hold
    · obtain rfl := List.mem_singleton.mp hnew
      exact hwrite

theorem Sound.otherRef (h : Sound H name s) {value : Option κ}
    (hok : Undisturbed H name s (.otherRef full value)) :
    Sound H name { s with
      refs := Function.update s.refs full value
      others := if full = headRef name then value else s.others } := by
  by_cases hfull : full = headRef name
  · subst hfull
    refine ⟨fun _ => by simp, h.free, ?_, h.writes⟩
    intro source tip wrote hphase held hheld
    have hjudged : s.phase = .judged source tip wrote := hphase
    simp only [Undisturbed, hjudged] at hok
    exact hok trivial held (by simpa using hheld)
  · have hkept : Function.update s.refs full value (headRef name) = s.refs (headRef name) :=
      Function.update_of_ne (Ne.symm hfull) value s.refs
    refine ⟨fun hnot => ?_, h.free, fun source tip wrote hphase held hheld => ?_, h.writes⟩
    · simpa only [if_neg hfull, hkept] using h.untouched hnot
    · exact h.judged source tip wrote hphase held (hkept ▸ hheld)

theorem Sound.keeps (h : Sound H name s) : Keeps H name s := by
  refine ⟨h.writes, fun refusal hphase => h.untouched fun imported hok => ?_⟩
  cases hphase.symm.trans hok

variable [DecidableEq κ]

theorem Sound.step (h : Sound H name s) {event : Event κ} (hok : Undisturbed H name s event)
    (hstep : step H name (scratchRef unique) s event = some s') : Sound H name s' := by
  revert hstep
  fun_cases Import.step H name (scratchRef unique) s event <;> intro hstep
  case case1 source hphase =>
      obtain rfl := Option.some.inj hstep
      exact h.proceed (by simp [hphase]) rfl nofun nofun
  case case2 said hphase =>
      obtain rfl := Option.some.inj hstep
      exact h.proceed (by simp [hphase]) rfl nofun nofun
  case case4 source hphase hcurrent =>
      obtain rfl := Option.some.inj hstep
      exact h.proceed (by simp [hphase]) rfl nofun nofun
  case case5 source hphase hcurrent =>
      obtain rfl := Option.some.inj hstep
      refine h.proceed (by simp [hphase]) rfl (fun _ => ?_) nofun
      refine checkedOut_eq_false.mpr ⟨fun hhead => hcurrent ?_, hok.1⟩
      exact currentBranch_of_abbrevRef hhead (hok.2 hhead)
  case case7 source tip hphase =>
      obtain rfl := Option.some.inj hstep
      refine h.proceed (by simp [hphase]) (update_scratch name unique _ _) (fun _ => ?_) nofun
      exact h.free (by simp [hphase, Phase.looked])
  case case8 source hphase =>
      obtain rfl := Option.some.inj hstep
      exact h.refused (by simp [hphase]) _
  case case10 source hphase tip hresolved =>
      obtain rfl := Option.some.inj hstep
      exact h.proceed (by simp [hphase]) rfl (fun _ => h.free (by simp [hphase, Phase.looked])) nofun
  case case11 source hphase hresolved =>
      obtain rfl := Option.some.inj hstep
      exact h.refused (by simp [hphase]) _
  case case13 source tip hphase hresolved =>
      obtain rfl := Option.some.inj hstep
      refine h.proceed (by simp [hphase]) rfl (fun _ => h.free (by simp [hphase, Phase.looked])) ?_
      intro _ _ _ _ held hheld
      cases hresolved.symm.trans (resolve_headRef hheld)
  case case14 source held hresolved hphase =>
      obtain rfl := Option.some.inj hstep
      refine h.proceed (by simp [hphase]) rfl (fun _ => h.free (by simp [hphase, Phase.looked])) ?_
      intro _ _ _ hjudged now hnow
      obtain ⟨-, rfl, -⟩ := Phase.judged.inj hjudged
      obtain rfl := Option.some.inj (hresolved.symm.trans (resolve_headRef hnow))
      exact .refl _
  case case15 source tip hphase held hresolved hne =>
      obtain rfl := Option.some.inj hstep
      exact h.proceed (by simp [hphase]) rfl (fun _ => h.free (by simp [hphase, Phase.looked])) nofun
  case case17 source tip hphase hresolved =>
      obtain rfl := Option.some.inj hstep
      exact h.refused (by simp [hphase]) _
  case case18 source tip hphase held hresolved hreach =>
      obtain rfl := Option.some.inj hstep
      refine h.proceed (by simp [hphase]) rfl (fun _ => h.free (by simp [hphase, Phase.looked])) ?_
      intro _ _ _ hjudged now hnow
      obtain ⟨-, rfl, -⟩ := Phase.judged.inj hjudged
      -- what was judged is the branch, for its short name means it
      obtain rfl := Option.some.inj (hresolved.symm.trans (hok now hnow))
      exact hreach
  case case19 source tip hphase held hresolved hreach =>
      obtain rfl := Option.some.inj hstep
      exact h.refused (by simp [hphase]) _
  case case21 source tip wrote hphase =>
      obtain rfl := Option.some.inj hstep
      exact h.written hphase _
  case case22 accepted source tip wrote hphase haccepted =>
      obtain rfl := Option.some.inj hstep
      exact h.refused (by simp [hphase]) _
  case case25 full value hfull =>
      obtain rfl := Option.some.inj hstep
      exact h.otherRef hok
  case case26 head linked =>
      obtain rfl := Option.some.inj hstep
      exact ⟨h.untouched, fun hlooked => checkedOut_eq_false.mpr (hok hlooked), h.judged, h.writes⟩
  -- the events that the phase does not enable
  all_goals cases hstep

/-- An import that nothing disturbs keeps every commit the branch has and every branch that is
checked out, and where it answers an error the branch. -/
theorem keeps_of_undisturbed
    (h : (importing H name unique).ReachableBy (Undisturbed H name) s) : Keeps H name s := by
  apply Sound.keeps
  apply h.invariant
  · rintro s ⟨hphase, hwrites, hothers⟩
    exact ⟨fun _ => hothers.symm, by simp [hphase, Phase.looked], by simp [hphase],
      by simp [hwrites]⟩
  · intro s event s' hsound hok hstep
    exact hsound.step hok hstep

/-! ## Disturbed imports

Commits 1 and 2 are two on commit 0. What is fetched is 2, which has 0 and not 1. -/

section Disturbed

def forked : History Nat where
  parents c := if c = 0 then [] else [0]
  generation := id
  older c p hp := by
    by_cases hc : c = 0
    · simp [hc] at hp
    · obtain rfl : p = 0 := by simpa [hc] using hp
      exact Nat.pos_of_ne_zero hc

def main : Text := ['m', 'a', 'i', 'n']
def foo : Text := ['f', 'o', 'o']

/-- An import of `foo`, the destination having it at a commit. -/
def start (held : Nat) (linked : List Text) : State Nat where
  refs := Function.update (fun _ => none) (headRef foo) (some held)
  head := some main
  linked := linked
  phase := .started
  writes := []
  others := some held

/-- The same with a tag of the name at commit 0. -/
def startTagged (held : Nat) : State Nat :=
  { start held [] with refs := Function.update (start held []).refs (tagRef foo) (some 0) }

/-- The calls up to the write, of an import that finds another commit in the branch. -/
def untilJudged : List (Event Nat) :=
  [.findSource (.ok (.repository ['/', 'c'])), .readCurrent, .fetchIntoRef (some 2), .readTip,
    .readHeld, .refuseARewrite]

theorem foo_initial (held : Nat) (linked : List Text) :
    (importing forked foo []).Initial (start held linked) :=
  ⟨rfl, rfl, by simp [start]⟩

theorem foo_initial_tagged (held : Nat) :
    (importing forked foo []).Initial (startTagged held) := by
  refine ⟨rfl, rfl, ?_⟩
  have hne : headRef foo ≠ tagRef foo := by decide
  simp [startTagged, start, Function.update_of_ne hne]

def after (s : State Nat) (events : List (Event Nat)) : State Nat :=
  ((importing forked foo []).run s events).getD s

theorem run_after {s : State Nat} {events : List (Event Nat)}
    (h : ((importing forked foo []).run s events).isSome = true) :
    (importing forked foo []).run s events = some (after s events) := by
  obtain ⟨final, hfinal⟩ := Option.isSome_iff_exists.mp h
  rw [after, hfinal, Option.getD_some]

theorem not_keeps_of_lost {s : State Nat} (hwrite : ⟨some 1, false, 2⟩ ∈ s.writes) :
    ¬ Keeps forked foo s := by
  intro h
  have hreach := (h.1 _ hwrite).1 1 1 rfl (.refl 1)
  exact absurd hreach (by decide)

theorem not_keeps_of_checkedOut {s : State Nat} {w : Write Nat} (hwrite : w ∈ s.writes)
    (hout : w.checkedOut = true) : ¬ Keeps forked foo s := by
  intro h
  cases hout.symm.trans (h.1 w hwrite).2

/-- An import that answers Ok loses commit 1 where a tag of the name is judged in the branch's
place and where another process puts it there after the judgement, and moves a branch that a
linked worktree has checked out. -/
theorem disturbed_imports :
    (∃ s, (importing forked foo []).Reachable s ∧
      s.phase = .answered (.ok ⟨.repository ['/', 'c'], 2, .fastForwarded⟩) ∧
        s.refs (tagRef foo) = some 0 ∧ s.linked = [] ∧ ¬ Keeps forked foo s) ∧
      (∃ s, (importing forked foo []).Reachable s ∧
        s.phase = .answered (.ok ⟨.repository ['/', 'c'], 2, .fastForwarded⟩) ∧
          s.refs (tagRef foo) = none ∧ s.linked = [foo] ∧ ¬ Keeps forked foo s) ∧
      ∃ s, (importing forked foo []).Reachable s ∧
        s.phase = .answered (.ok ⟨.repository ['/', 'c'], 2, .fastForwarded⟩) ∧
          s.refs (tagRef foo) = none ∧ s.linked = [] ∧ ¬ Keeps forked foo s := by
  refine ⟨?_, ?_, ?_⟩
  · refine ⟨after (startTagged 1) (untilJudged ++ [.updateRef true]), ?_, rfl, rfl, rfl, ?_⟩
    · exact System.reachable_of_run (foo_initial_tagged 1) (run_after rfl)
    · exact not_keeps_of_lost List.mem_cons_self
  · refine ⟨after (start 0 [foo]) (untilJudged ++ [.updateRef true]), ?_, rfl, rfl, rfl, ?_⟩
    · exact System.reachable_of_run (foo_initial 0 [foo]) (run_after rfl)
    · exact not_keeps_of_checkedOut List.mem_cons_self rfl
  · refine ⟨after (start 0 []) (untilJudged ++ [.otherRef (headRef foo) (some 1), .updateRef true]),
      ?_, rfl, rfl, rfl, ?_⟩
    · exact System.reachable_of_run (foo_initial 0 []) (run_after rfl)
    · exact not_keeps_of_lost List.mem_cons_self

/-- Undisturbed, the same import keeps what the branch had. -/
theorem keeps_fast_forward :
    Keeps forked foo (after (start 0 []) (untilJudged ++ [.updateRef true])) := by
  have hmeets : (importing forked foo []).RunMeets (Undisturbed forked foo) (start 0 [])
      (untilJudged ++ [.updateRef true]) := by
    refine ⟨trivial, fun _ h => ?_⟩
    cases h
    refine ⟨⟨rfl, by decide⟩, fun _ h => ?_⟩
    cases h
    refine ⟨trivial, fun _ h => ?_⟩
    cases h
    refine ⟨trivial, fun _ h => ?_⟩
    cases h
    refine ⟨trivial, fun _ h => ?_⟩
    cases h
    refine ⟨fun held hheld => ?_, fun _ h => ?_⟩
    · obtain rfl : 0 = held := Option.some.inj hheld
      rfl
    cases h
    refine ⟨trivial, fun _ h => ?_⟩
    cases h
    trivial
  exact keeps_of_undisturbed (System.reachableBy_of_run (foo_initial 0 []) hmeets (run_after rfl))

end Disturbed

end Onevcs.Import
