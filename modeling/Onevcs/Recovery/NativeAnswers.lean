import Mathlib.Algebra.Group.Nat.Defs
import Onevcs.Foundations.Weighted
import Onevcs.Recovery.ObjectStores

/-!
# Answers kept in memory

`native_answers` of `recovery_cache.rs`: what a thread answered of immutable objects, kept for the
process under the key of the query and the generations of its stores, within a bound on the bytes
and one on the entries. The count of the bytes is carried beside the entries, and what an answer
replaces is subtracted from it; the subtraction is of unsigned integers.

Each call holds the lock for the whole of what it does to the answers, so a run is the calls in the
order they held it. Whether the objects a query names are present is asked outside of the lock.
-/

namespace Onevcs.Recovery.NativeAnswers

open Foundations (Text total weightAt total_insert total_empty length_insert_le weight_le_total
  weightAt_le_total)

def ENTRIES : ℕ := 8192

def BYTES : ℕ := 16 * 2 ^ 20

/-- The bytes of what git wrote. -/
def size (output : Output) : ℕ :=
  (output.stdout.map Char.utf8Size).sum + (output.stderr.map Char.utf8Size).sum

/-- The bytes of an entry: of its answer. -/
def bytesOf (entry : List Text × Output) : ℕ := size entry.2

structure Answers where
  bytes : ℕ := 0
  entries : AList fun _ : Text => List Text × Output := ∅

/-- What the lock guards: `ANSWERS`. -/
abbrev Held := Option Answers

section Calls

variable {digest : Text → Text}

/-- `read`, where the objects that the query names are present, or are not. -/
def read (held : Held) (proof : Query digest) (present : Bool) : Option Output :=
  match held with
  | none => none
  | some answers =>
    match answers.entries.lookup proof.key with
    | none => none
    | some (generations, output) =>
      if generations ≠ proof.generations then none else if present then some output else none

/-- `held.bytes -= …`: nothing, where the subtraction underflows. -/
def checkedSub (a b : ℕ) : Option ℕ := if b ≤ a then some (a - b) else none

/-- `write`: nothing, where a subtraction underflows. -/
def write (held : Held) (proof : Query digest) (output : Output) (present : Bool) : Option Held :=
  if BYTES < size output ∨ present = false then some held
  else
    let answers := held.getD {}
    let answers : Answers :=
      if ENTRIES ≤ answers.entries.entries.length ∨ BYTES < answers.bytes + size output then {}
      else answers
    let entries := answers.entries.insert proof.key (proof.generations, output)
    match answers.entries.lookup proof.key with
    | none => some (some ⟨answers.bytes + size output, entries⟩)
    | some (_, previous) =>
      (checkedSub answers.bytes (size previous)).map fun bytes =>
        some ⟨bytes + size output, entries⟩

/-- A call of one of the threads of the process. -/
inductive Call (digest : Text → Text)
  | read (proof : Query digest) (present : Bool)
  | write (proof : Query digest) (output : Output) (present : Bool)

def Call.step (held : Held) : Call digest → Option Held
  | .read _ _ => some held
  | .write proof output present => NativeAnswers.write held proof output present

/-- What calls leave, one after the other. -/
def run (held : Held) (calls : List (Call digest)) : Option Held :=
  calls.foldlM Call.step held

/-- The call writes an answer under a key, and it is admitted. -/
def Call.Admits (key : Text) : Call digest → Prop
  | .read _ _ => False
  | .write proof output present => proof.key = key ∧ size output ≤ BYTES ∧ present = true

end Calls

/-! ## The bounds -/

/-- The count is of the bytes that are held, and the bounds hold. -/
structure Answers.Within (answers : Answers) : Prop where
  count : answers.bytes = total bytesOf answers.entries
  bytes : answers.bytes ≤ BYTES
  entries : answers.entries.entries.length ≤ ENTRIES

/-- What the lock guards is within the bounds. -/
def Within (held : Held) : Prop := ∀ answers, held = some answers → answers.Within

variable {digest : Text → Text} {held held' : Held} {answers : Answers} {proof : Query digest}
  {output : Output} {present : Bool} {call : Call digest} {calls : List (Call digest)}

theorem within_empty : ({} : Answers).Within where
  count := total_empty.symm
  bytes := Nat.zero_le _
  entries := Nat.zero_le _

theorem within_none : Within none := by
  intro answers hanswers
  cases hanswers

/-- A write of what is admitted adds to what is held, or starts over where that is full; what it
replaces is subtracted from no less. -/
theorem exists_write (h : Within held) (proof : Query digest) (hsize : size output ≤ BYTES) :
    ∃ base : Answers, base.Within ∧ (base = {} ∨ held = some base) ∧
      base.entries.entries.length < ENTRIES ∧ base.bytes + size output ≤ BYTES ∧
      write held proof output true = some (some ⟨base.bytes -
        weightAt bytesOf base.entries proof.key + size output,
        base.entries.insert proof.key (proof.generations, output)⟩) := by
  have hadmitted : ¬ (BYTES < size output ∨ true = false) := by
    rintro (hlarge | hfalse)
    · exact absurd hsize (Nat.not_le.mpr hlarge)
    · cases hfalse
  rw [write, if_neg hadmitted]
  have hheld : (held.getD {}).Within := by
    cases held with
    | none => exact within_empty
    | some answers => exact h answers rfl
  -- what is added to: nothing where what is held is full
  obtain ⟨base, hbase, hwithin, hfrom, hroom, hfits⟩ : ∃ base : Answers,
      (if ENTRIES ≤ (held.getD {}).entries.entries.length ∨
        BYTES < (held.getD {}).bytes + size output then {} else held.getD {}) = base ∧
      base.Within ∧ (base = {} ∨ held = some base) ∧ base.entries.entries.length < ENTRIES ∧
      base.bytes + size output ≤ BYTES := by
    refine ⟨_, rfl, ?_⟩
    split
    · exact ⟨within_empty, .inl rfl, by decide, by simpa using hsize⟩
    · next hfull =>
      rw [not_or, Nat.not_le, Nat.not_lt] at hfull
      refine ⟨hheld, ?_, hfull⟩
      cases held with
      | none => exact .inl rfl
      | some answers => exact .inr rfl
  refine ⟨base, hwithin, hfrom, hroom, hfits, ?_⟩
  simp only [hbase]
  cases hlookup : base.entries.lookup proof.key with
  | none => simp [weightAt, hlookup]
  | some replaced =>
    obtain ⟨generations, previous⟩ := replaced
    have hweight : size previous ≤ base.bytes :=
      hwithin.count ▸ weight_le_total bytesOf hlookup
    simp [weightAt, bytesOf, hlookup, checkedSub, hweight]

theorem write_within (h : Within held) (proof : Query digest) (output : Output) (present : Bool) :
    ∃ held', write held proof output present = some held' ∧ Within held' := by
  by_cases hadmitted : size output ≤ BYTES ∧ present = true
  · obtain ⟨hsize, rfl⟩ := hadmitted
    obtain ⟨base, hbase, -, hroom, hfits, hwrite⟩ := exists_write h proof hsize
    refine ⟨_, hwrite, ?_⟩
    rintro answers hanswers
    obtain rfl := Option.some.inj hanswers
    have htotal := total_insert bytesOf base.entries proof.key (proof.generations, output)
    have hreplaced := weightAt_le_total bytesOf base.entries proof.key
    have hsized : bytesOf (proof.generations, output) = size output := rfl
    have hcount := hbase.count
    refine ⟨?_, ?_, ?_⟩
    · dsimp only at htotal ⊢
      omega
    · dsimp only
      omega
    · exact (length_insert_le _ _ _).trans hroom
  · refine ⟨held, if_pos ?_, h⟩
    rwa [not_and_or, Nat.not_le, Bool.not_eq_true] at hadmitted

theorem Call.step_within (h : Within held) (call : Call digest) :
    ∃ held', call.step held = some held' ∧ Within held' := by
  cases call with
  | read proof present => exact ⟨held, rfl, h⟩
  | write proof output present => exact write_within h proof output present

theorem run_within (h : Within held) (calls : List (Call digest)) :
    ∃ held', run held calls = some held' ∧ Within held' := by
  induction calls generalizing held with
  | nil => exact ⟨held, rfl, h⟩
  | cons call rest ih =>
    obtain ⟨held', hstep, hwithin⟩ := call.step_within h
    obtain ⟨held'', hrest, hwithin⟩ := ih hwithin
    refine ⟨held'', ?_, hwithin⟩
    rw [run, List.foldlM_cons, hstep]
    exact hrest

/-- An answer under a key, and the generations it was written for, is of the last call that admits
one under that key. -/
def Newest (calls : List (Call digest)) (key : Text) (generations : List Text)
    (output : Output) : Prop :=
  ∃ before written after, calls = before ++ .write written output true :: after ∧
    written.key = key ∧ written.generations = generations ∧ ∀ call ∈ after, ¬ call.Admits key

/-- What is held is the newest of what was admitted. -/
def Kept (calls : List (Call digest)) (held : Held) : Prop :=
  ∀ answers, held = some answers → ∀ key generations output,
    answers.entries.lookup key = some (generations, output) → Newest calls key generations output

theorem Newest.snoc {key : Text} {generations : List Text}
    (h : Newest calls key generations output) (hcall : ¬ call.Admits key) :
    Newest (calls ++ [call]) key generations output := by
  obtain ⟨before, written, after, rfl, hkey, hgenerations, hafter⟩ := h
  refine ⟨before, written, after ++ [call], by simp, hkey, hgenerations, ?_⟩
  intro other hother
  rcases List.mem_append.mp hother with hother | hother
  · exact hafter other hother
  · exact List.mem_singleton.mp hother ▸ hcall

theorem Kept.step (h : Kept calls held) (hwithin : Within held) (hstep : call.step held = some held') :
    Kept (calls ++ [call]) held' := by
  have hidle : held' = held → (∀ key, ¬ call.Admits key) → Kept (calls ++ [call]) held' := by
    rintro rfl hcall answers hanswers key generations output hlookup
    exact (h answers hanswers key generations output hlookup).snoc (hcall key)
  cases call with
  | read proof present =>
    exact hidle (Option.some.inj hstep).symm fun _ hadmits => hadmits
  | write proof output present =>
    by_cases hadmitted : size output ≤ BYTES ∧ present = true
    · obtain ⟨hsize, rfl⟩ := hadmitted
      obtain ⟨base, -, hfrom, -, -, hwrite⟩ := exists_write hwithin proof hsize
      rw [Call.step, hwrite] at hstep
      obtain rfl := Option.some.inj hstep
      rintro answers hanswers key generations found hlookup
      obtain rfl := Option.some.inj hanswers
      by_cases hkey : key = proof.key
      · -- what is written now
        subst hkey
        rw [AList.lookup_insert] at hlookup
        obtain ⟨rfl, rfl⟩ := Prod.mk.inj (Option.some.inj hlookup)
        exact ⟨calls, proof, [], rfl, rfl, rfl, fun _ hcall => by cases hcall⟩
      · rw [AList.lookup_insert_ne hkey] at hlookup
        obtain rfl | rfl := hfrom
        · cases hlookup
        · exact (h base rfl key generations found hlookup).snoc fun hadmits => hkey hadmits.1.symm
    · have hskipped : BYTES < size output ∨ present = false := by
        rwa [not_and_or, Nat.not_le, Bool.not_eq_true] at hadmitted
      rw [Call.step, write, if_pos hskipped] at hstep
      exact hidle (Option.some.inj hstep).symm fun _ hadmits => hadmitted hadmits.2

theorem run_kept (hrun : run none calls = some held) : Kept calls held := by
  induction calls using List.reverseRecOn generalizing held with
  | nil =>
    obtain rfl := Option.some.inj hrun
    intro answers hanswers
    cases hanswers
  | append_singleton calls call ih =>
    obtain ⟨before, hbefore, hwithin⟩ := run_within within_none calls
    rw [run, List.foldlM_append] at hrun
    rw [run] at hbefore
    rw [hbefore] at hrun
    refine (ih hbefore).step hwithin ?_
    simpa using hrun

theorem read_eq_some_iff :
    read held proof present = some output ↔ present = true ∧ ∃ answers, held = some answers ∧
      answers.entries.lookup proof.key = some (proof.generations, output) := by
  constructor
  · intro h
    unfold read at h
    split at h
    · cases h
    · next answers =>
      split at h
      · cases h
      · next generations found hlookup =>
        split at h
        · cases h
        · next hgenerations =>
          obtain ⟨hpresent, h⟩ := Option.ite_none_right_eq_some.mp h
          rw [not_not] at hgenerations
          obtain rfl := Option.some.inj h
          exact ⟨hpresent, answers, rfl, by rw [hlookup, hgenerations]⟩
  · rintro ⟨rfl, answers, rfl, hlookup⟩
    simp [read, hlookup]

/-- Whatever the calls, none underflows; the count is of the bytes that are held, within the bound,
as are the entries; and an answer is read only for the generations it was written for, and is the
last that was admitted under its key. -/
theorem native_answers_bounded (calls : List (Call digest)) :
    ∃ held, run none calls = some held ∧
      (∀ answers, held = some answers →
        answers.bytes = (answers.entries.entries.map fun entry => size entry.2.2).sum ∧
        answers.bytes ≤ BYTES ∧ answers.entries.entries.length ≤ ENTRIES) ∧
      ∀ (proof : Query digest) (present : Bool) (output : Output),
        read held proof present = some output →
          Newest calls proof.key proof.generations output := by
  obtain ⟨held, hrun, hwithin⟩ := run_within within_none calls
  refine ⟨held, hrun, ?_, ?_⟩
  · intro answers hanswers
    have h := hwithin answers hanswers
    exact ⟨h.count, h.bytes, h.entries⟩
  · intro proof present output hread
    obtain ⟨-, answers, hanswers, hlookup⟩ := read_eq_some_iff.mp hread
    exact run_kept hrun answers hanswers _ _ _ hlookup

end Onevcs.Recovery.NativeAnswers
