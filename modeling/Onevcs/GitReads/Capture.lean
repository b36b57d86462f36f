import Onevcs.Foundations.Lines
import Onevcs.Foundations.Transition

/-!
# A command's output, read as it arrives

`PipeCapture` of `git.rs`: the loop of its reader on a non-blocking pipe, and `finish`. Around it
stand the command, the processes that share the write end of its pipe, and the call that collects
the exit, each of their steps taken at any moment. `finish` is called once the exit has been
collected, as its doc asks of its callers. How a read comes back is for the pipe to say; it may
fail at any time.

What is carried along is what the command wrote, everything that was written while it ran, whether
another process wrote some of it, and whether the exit was collected when the last read began.
-/

namespace Onevcs.GitReads

open Foundations (System Text)

def readBuffer : ℕ := 8192

/-- What one stream's reader recovered, and why it stopped short where it did. -/
structure Captured where
  bytes : List UInt8
  failure : Option Text
  deriving DecidableEq

/-- How a read comes back. No bytes is the end of the stream. -/
inductive Read
  | ok (read : ℕ)
  | wouldBlock
  | failed (error : Text)

def Read.count : Read → ℕ
  | .ok read => read
  | .wouldBlock | .failed _ => 0

/-- Where the reader stands in its loop. -/
inductive Reader
  -- about to load the flag
  | asking (output : List UInt8)
  -- about to read, with the flag it loaded
  | reading (output : List UInt8) (collected : Bool)
  | retired (captured : Captured)
  | panicked

def Reader.over : Reader → Bool
  | .asking _ | .reading .. => false
  | .retired _ | .panicked => true

/-- The reader's turn after a read. -/
def Reader.turn (output : List UInt8) (collected : Bool) (chunk : List UInt8) : Read → Reader
  | .ok 0 => .retired { bytes := output, failure := none }
  | .ok read => .asking (output ++ chunk.take read)
  -- otherwise it sleeps until the pipe may have something in it
  | .wouldBlock =>
    if collected then .retired { bytes := output, failure := none } else .asking output
  | .failed error => .retired { bytes := output, failure := some error }

structure PipeCapture where
  /-- What is in the pipe, the oldest first. -/
  pipe : List UInt8
  /-- Whether the command holds its write end, and how many others do. -/
  own : Bool
  others : ℕ
  running : Bool
  collected : Bool
  stopping : Bool
  reader : Reader
  spoken : List UInt8
  sent : List UInt8
  mixed : Bool
  begun : Bool

/-- A step of the command, of a process that shares its pipe, of the call or of the reader. -/
inductive Step
  | write (chunk : List UInt8)
  | close
  | share
  | leave
  | intrude (chunk : List UInt8)
  | exit
  | collect
  | store
  | load
  | read (answer : Read)
  | panic

namespace PipeCapture

/-- Some process holds the write end. -/
def held (s : PipeCapture) : Bool := s.own || decide (0 < s.others)

/-- The pipe may answer a read so. -/
def answers (s : PipeCapture) : Read → Bool
  | .ok 0 => s.pipe.isEmpty && !s.held
  | .ok read => decide (read ≤ readBuffer ∧ read ≤ s.pipe.length)
  | .wouldBlock => s.pipe.isEmpty && s.held
  | .failed _ => true

def step (s : PipeCapture) : Step → Option PipeCapture
  | .write chunk =>
    if s.own then
      some { s with
        pipe := s.pipe ++ chunk, spoken := s.spoken ++ chunk, sent := s.sent ++ chunk }
    else none
  | .close => if s.own then some { s with own := false } else none
  | .share => if s.held then some { s with others := s.others + 1 } else none
  | .leave => if 0 < s.others then some { s with others := s.others - 1 } else none
  | .intrude chunk =>
    if 0 < s.others then
      if s.running then
        some { s with pipe := s.pipe ++ chunk, sent := s.sent ++ chunk, mixed := true }
      else some { s with pipe := s.pipe ++ chunk }
    else none
  | .exit => if s.running then some { s with running := false, own := false } else none
  | .collect => if s.running then none else some { s with collected := true }
  -- `finish` is only called then
  | .store => if s.collected then some { s with stopping := true } else none
  | .load =>
    match s.reader with
    | .asking output =>
      some { s with reader := .reading output s.stopping, begun := s.collected }
    | _ => none
  | .read answer =>
    match s.reader with
    | .reading output collected =>
      if s.answers answer then
        some { s with
          pipe := s.pipe.drop answer.count
          reader := .turn output collected s.pipe answer }
      else none
    | _ => none
  | .panic => if s.reader.over then none else some { s with reader := .panicked }

/-- What `finish` returns, once the reader is over. -/
def finish (s : PipeCapture) : Option Captured :=
  if s.stopping then
    match s.reader with
    | .retired captured => some captured
    | .panicked =>
      some { bytes := [], failure := some "the reader of this stream ended abnormally".toList }
    | _ => none
  else none

/-- A command that has just been started, its write end shared by any number of others. -/
def start (others : ℕ) : PipeCapture where
  pipe := []
  own := true
  others := others
  running := true
  collected := false
  stopping := false
  reader := .asking []
  spoken := []
  sent := []
  mixed := false
  begun := false

end PipeCapture

def capture : System PipeCapture Step where
  Initial s := ∃ others, s = .start others
  step := PipeCapture.step

namespace PipeCapture

variable {s s' : PipeCapture} {reader : Reader} {output chunk : List UInt8}

/-- What was written while the command ran is in the output or in the pipe, and while it still runs
nothing else is. -/
structure Owed (s : PipeCapture) (output : List UInt8) : Prop where
  whole : s.sent <+: output ++ s.pipe
  exact : s.running = true → s.sent = output ++ s.pipe

/-- What is known of the reader by where it stands. -/
def Stands (s : PipeCapture) : Reader → Prop
  | .asking output => s.Owed output
  | .reading output collected => s.Owed output ∧ (collected = true → s.begun = true)
  | .retired captured => captured.failure = none →
      s.sent <+: captured.bytes ∧ (s.running = true → s.held = false)
  | .panicked => True

structure Whole (s : PipeCapture) : Prop where
  owned : s.own = true → s.running = true
  exited : s.collected = true → s.running = false
  ordered : s.stopping = true → s.collected = true
  begun : s.begun = true → s.collected = true
  spoken : s.spoken.Sublist s.sent
  alone : s.mixed = false → s.sent = s.spoken
  stands : s.Stands s.reader

theorem Stands.grow (h : s.Stands reader) (hrunning : s.running = true) (hheld : s.held = true)
    (hsent : s'.sent = s.sent ++ chunk) (hpipe : s'.pipe = s.pipe ++ chunk)
    (hbegun : s'.begun = s.begun) : s'.Stands reader := by
  have hgrown : ∀ output, s.Owed output → s'.Owed output := by
    intro output howed
    have heq : s'.sent = output ++ s'.pipe := by
      rw [hsent, howed.exact hrunning, hpipe, List.append_assoc]
    exact ⟨heq ▸ List.prefix_rfl, fun _ => heq⟩
  cases reader with
  | asking output => exact hgrown output h
  | reading output collected => exact ⟨hgrown output h.1, fun hc => hbegun ▸ h.2 hc⟩
  -- nobody is left to write to a stream that ended before the command did
  | retired captured =>
    intro hfailure
    rw [(h hfailure).2 hrunning] at hheld
    cases hheld
  | panicked => trivial

theorem Stands.frame (h : s.Stands reader) (hsent : s'.sent = s.sent) (hpipe : s.pipe <+: s'.pipe)
    (hrunning : s'.running = true → s.running = true ∧ s'.pipe = s.pipe ∧
      (s.held = false → s'.held = false))
    (hbegun : s'.begun = s.begun) : s'.Stands reader := by
  have hkept : ∀ output, s.Owed output → s'.Owed output := by
    intro output howed
    refine ⟨?_, fun hrun => ?_⟩
    · rw [hsent]
      exact howed.whole.trans ((List.prefix_append_right_inj output).mpr hpipe)
    · rw [hsent, (hrunning hrun).2.1]
      exact howed.exact (hrunning hrun).1
  cases reader with
  | asking output => exact hkept output h
  | reading output collected => exact ⟨hkept output h.1, fun hc => hbegun ▸ h.2 hc⟩
  | retired captured =>
    intro hfailure
    rw [hsent]
    refine ⟨(h hfailure).1, fun hrun => ?_⟩
    exact (hrunning hrun).2.2 ((h hfailure).2 (hrunning hrun).1)
  | panicked => trivial

theorem Whole.turn (h : s.Whole) {collected : Bool} {answer : Read}
    (hreader : s.reader = .reading output collected) (hanswers : s.answers answer = true) :
    ({ s with pipe := s.pipe.drop answer.count } : PipeCapture).Stands
      (.turn output collected s.pipe answer) := by
  obtain ⟨howed, hbegun⟩ : s.Stands (.reading output collected) := hreader ▸ h.stands
  match answer with
  | .ok 0 =>
    simp only [answers, Bool.and_eq_true, List.isEmpty_iff, Bool.not_eq_true'] at hanswers
    have hwhole := howed.whole
    rw [hanswers.1, List.append_nil] at hwhole
    exact fun _ => ⟨hwhole, fun _ => hanswers.2⟩
  | .ok (read + 1) =>
    have hsplit : output ++ s.pipe.take (read + 1) ++ s.pipe.drop (read + 1) = output ++ s.pipe := by
      rw [List.append_assoc, List.take_append_drop]
    exact ⟨hsplit ▸ howed.whole, fun hrun => (howed.exact hrun).trans hsplit.symm⟩
  | .wouldBlock =>
    cases collected with
    | false => exact howed
    | true =>
      simp only [answers, Bool.and_eq_true, List.isEmpty_iff] at hanswers
      have hwhole := howed.whole
      rw [hanswers.1, List.append_nil] at hwhole
      -- the exit was collected before this read began, so the command is gone
      have hexited := h.exited (h.begun (hbegun rfl))
      exact fun _ => ⟨hwhole, fun hrun => absurd hrun (hexited ▸ Bool.false_ne_true)⟩
  | .failed error => exact nofun

theorem Whole.step (h : s.Whole) (a : Step) (hstep : s.step a = some s') : s'.Whole := by
  cases a with
  | write chunk =>
    obtain ⟨hown, rfl⟩ : s.own = true ∧ _ = s' := by simpa [PipeCapture.step] using hstep
    refine { h with spoken := ?_, alone := ?_, stands := ?_ }
    · exact h.spoken.append (List.Sublist.refl chunk)
    · exact fun hmixed => congrArg (· ++ chunk) (h.alone hmixed)
    · refine h.stands.grow (h.owned hown) ?_ rfl rfl rfl
      rw [held, hown, Bool.true_or]
  | close =>
    obtain ⟨hown, rfl⟩ : s.own = true ∧ _ = s' := by simpa [PipeCapture.step] using hstep
    refine { h with owned := nofun, stands := ?_ }
    refine h.stands.frame rfl List.prefix_rfl (fun hrun => ⟨hrun, rfl, fun hheld => ?_⟩) rfl
    rw [held, hown, Bool.true_or] at hheld
    cases hheld
  | share =>
    obtain ⟨hheld, rfl⟩ : s.held = true ∧ _ = s' := by simpa [PipeCapture.step] using hstep
    refine { h with stands := ?_ }
    refine h.stands.frame rfl List.prefix_rfl (fun hrun => ⟨hrun, rfl, fun hfree => ?_⟩) rfl
    cases hheld.symm.trans hfree
  | leave =>
    obtain ⟨hothers, rfl⟩ : 0 < s.others ∧ _ = s' := by simpa [PipeCapture.step] using hstep
    refine { h with stands := ?_ }
    refine h.stands.frame rfl List.prefix_rfl (fun hrun => ⟨hrun, rfl, fun hfree => ?_⟩) rfl
    simp [held, hothers] at hfree
  | intrude chunk =>
    obtain ⟨hothers, hstep⟩ := Option.ite_none_right_eq_some.mp hstep
    split at hstep
    next hrunning =>
      obtain rfl := Option.some.inj hstep
      refine { h with spoken := ?_, alone := nofun, stands := ?_ }
      · exact h.spoken.trans (List.sublist_append_left s.sent chunk)
      · refine h.stands.grow hrunning ?_ rfl rfl rfl
        simp [held, hothers]
    next hrunning =>
      obtain rfl := Option.some.inj hstep
      refine { h with stands := ?_ }
      exact h.stands.frame rfl (List.prefix_append ..) (fun hrun => absurd hrun hrunning) rfl
  | exit =>
    obtain ⟨-, rfl⟩ : s.running = true ∧ _ = s' := by simpa [PipeCapture.step] using hstep
    refine { h with owned := nofun, exited := fun _ => rfl, stands := ?_ }
    exact h.stands.frame rfl List.prefix_rfl nofun rfl
  | collect =>
    obtain ⟨hexited, rfl⟩ : s.running = false ∧ _ = s' := by
      simpa [PipeCapture.step] using hstep
    refine { h with exited := fun _ => hexited, ordered := fun _ => rfl, begun := fun _ => rfl,
                    stands := ?_ }
    exact h.stands.frame rfl List.prefix_rfl (fun hrun => ⟨hrun, rfl, id⟩) rfl
  | store =>
    obtain ⟨hcollected, rfl⟩ : s.collected = true ∧ _ = s' := by
      simpa [PipeCapture.step] using hstep
    refine { h with ordered := fun _ => hcollected, stands := ?_ }
    exact h.stands.frame rfl List.prefix_rfl (fun hrun => ⟨hrun, rfl, id⟩) rfl
  | load =>
    simp only [PipeCapture.step] at hstep
    split at hstep
    next output hreader =>
      obtain rfl := Option.some.inj hstep
      have howed : s.Stands (.asking output) := hreader ▸ h.stands
      -- the flag is only set once the exit was collected
      exact { h with begun := id, stands := ⟨⟨howed.whole, howed.exact⟩, h.ordered⟩ }
    next => cases hstep
  | read answer =>
    simp only [PipeCapture.step] at hstep
    split at hstep
    next output collected hreader =>
      obtain ⟨hanswers, hstep⟩ := Option.ite_none_right_eq_some.mp hstep
      obtain rfl := Option.some.inj hstep
      refine { h with stands := ?_ }
      exact (h.turn hreader hanswers).frame rfl List.prefix_rfl (fun hrun => ⟨hrun, rfl, id⟩) rfl
    next => cases hstep
  | panic =>
    obtain ⟨-, rfl⟩ : s.reader.over = false ∧ _ = s' := by simpa [PipeCapture.step] using hstep
    exact { h with stands := trivial }

theorem whole_of_reachable (hreach : capture.Reachable s) : s.Whole := by
  refine hreach.invariant ?_ fun s a s' h _ hstep => h.step a hstep
  rintro _ ⟨others, rfl⟩
  exact ⟨fun _ => rfl, nofun, nofun, nofun, List.nil_sublist _, fun _ => rfl,
    List.prefix_rfl, fun _ => rfl⟩

theorem reader_of_step {a : Step} (hstep : s.step a = some s') (ha : ∀ answer, a ≠ .read answer) :
    s'.reader = s.reader ∨ ∀ captured, s'.reader ≠ .retired captured := by
  cases a with
  | read answer => exact absurd rfl (ha answer)
  | load =>
    simp only [PipeCapture.step] at hstep
    split at hstep <;> cases hstep
    exact .inr fun _ => by rintro ⟨⟩
  | panic =>
    obtain ⟨-, rfl⟩ : s.reader.over = false ∧ _ = s' := by simpa [PipeCapture.step] using hstep
    exact .inr fun _ => by rintro ⟨⟩
  | intrude chunk =>
    obtain ⟨-, hstep⟩ := Option.ite_none_right_eq_some.mp hstep
    split at hstep <;> cases hstep <;> exact .inl rfl
  | write | close | share | leave | exit | store =>
    obtain ⟨-, hstep⟩ := Option.ite_none_right_eq_some.mp hstep
    cases hstep
    exact .inl rfl
  | collect =>
    obtain ⟨-, hstep⟩ := Option.ite_none_left_eq_some.mp hstep
    cases hstep
    exact .inl rfl

end PipeCapture

open PipeCapture in
/-- What `finish` returns without a failure begins with everything that was written before the
command exited, and so with all the command wrote where no other process wrote before; and the
reader retires at the end of the stream, on a read that fails, or on one that finds nothing and
began once the exit was collected. -/
theorem capture_whole {s : PipeCapture} (hreach : capture.Reachable s) :
    (∀ captured, s.finish = some captured → captured.failure = none →
      s.running = false ∧ s.sent <+: captured.bytes ∧ s.spoken.Sublist s.sent ∧
        (s.mixed = false → s.spoken <+: captured.bytes)) ∧
    ∀ a s' captured, s.step a = some s' → s.reader.over = false →
      s'.reader = .retired captured →
        (a = .read (.ok 0) ∧ s.pipe = [] ∧ s.held = false) ∨
        (∃ error, a = .read (.failed error) ∧ captured.failure = some error) ∨
        (a = .read .wouldBlock ∧ s.pipe = [] ∧ s.begun = true) := by
  have h := whole_of_reachable hreach
  refine ⟨fun captured hfinish hfailure => ?_, fun a s' captured hstep hover hretired => ?_⟩
  · obtain ⟨hstopping, hfinish⟩ := Option.ite_none_right_eq_some.mp hfinish
    split at hfinish
    next found hreader =>
      obtain rfl := Option.some.inj hfinish
      have hstands : s.Stands (.retired found) := hreader ▸ h.stands
      refine ⟨h.exited (h.ordered hstopping), (hstands hfailure).1, h.spoken, fun hmixed => ?_⟩
      exact h.alone hmixed ▸ (hstands hfailure).1
    next =>
      obtain rfl := Option.some.inj hfinish
      cases hfailure
    next => cases hfinish
  · by_cases ha : ∀ answer, a ≠ .read answer
    · rcases reader_of_step hstep ha with hsame | hnone
      · rw [← hsame, hretired] at hover
        cases hover
      · exact absurd hretired (hnone captured)
    · push Not at ha
      obtain ⟨answer, rfl⟩ := ha
      simp only [step] at hstep
      split at hstep
      next output collected hreader =>
        obtain ⟨hanswers, hstep⟩ := Option.ite_none_right_eq_some.mp hstep
        obtain rfl := Option.some.inj hstep
        obtain ⟨-, hbegun⟩ : s.Stands (.reading output collected) := hreader ▸ h.stands
        match answer with
        | .ok 0 =>
          simp only [answers, Bool.and_eq_true, List.isEmpty_iff, Bool.not_eq_true'] at hanswers
          exact .inl ⟨rfl, hanswers⟩
        | .ok (read + 1) => cases hretired
        | .failed error =>
          cases hretired
          exact .inr (.inl ⟨error, rfl, rfl⟩)
        | .wouldBlock =>
          simp only [answers, Bool.and_eq_true, List.isEmpty_iff] at hanswers
          cases collected with
          | false => cases hretired
          | true => exact .inr (.inr ⟨rfl, hanswers.1, hbegun rfl⟩)
      next => cases hstep

/-- A command that says two bytes and exits while another process keeps its pipe open. -/
def keptOpen : List Step :=
  [.load, .write [111, 107], .exit, .collect, .read (.ok 2), .load, .store, .read .wouldBlock,
    .load, .read .wouldBlock]

def keptOpenLast : PipeCapture :=
  (capture.run (.start 1) keptOpen).get (by decide +kernel)

theorem capture_whole_keptOpen : keptOpenLast.finish = some { bytes := [111, 107], failure := none } ∧
    keptOpenLast.held = true ∧ keptOpenLast.spoken <+: [111, 107] := by
  have hreach : capture.Reachable keptOpenLast :=
    System.reachable_of_run ⟨1, rfl⟩ (Option.some_get _).symm
  have hfinish : keptOpenLast.finish = some { bytes := [111, 107], failure := none } := by
    decide +kernel
  obtain ⟨-, -, -, hspoken⟩ := (capture_whole hreach).1 _ hfinish rfl
  exact ⟨hfinish, by decide +kernel, hspoken (by decide +kernel)⟩

end Onevcs.GitReads
