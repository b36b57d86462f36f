import Mathlib.Data.Char
import Mathlib.Data.List.Lex
import Onevcs.GitReads.Transparent
import Onevcs.MergePath.Attempts
import Onevcs.Review.Comments

/-!
# What the preserved logs keep

A call reads the highest number while others claim greater ones and remove lesser ones, so by the
time it creates a file the number it starts from may have been claimed and removed again. Where no
log is removed at a number a call may still try, each number is claimed once, and a call's file is
its own; and in any case the ten newest logs stay, so that the highest number only grows.
-/

namespace Onevcs.MergePath

open Foundations
open Onevcs.GitReads (stripSuffix)
open Onevcs.Review (stripPrefix_append stripPrefix_eq_some_iff)
open Onevcs.GitReads (stripSuffix_append)

section Names

variable {name : Text} {number : ℕ}

theorem eq_append_of_stripSuffix {suffix text rest : Text} (h : stripSuffix suffix text = some rest) :
    text = rest ++ suffix := by
  unfold stripSuffix at h
  split at h
  · next hsuffix =>
    obtain ⟨start, rfl⟩ := List.isSuffixOf_iff_suffix.mp hsuffix
    obtain rfl := Option.some.inj h
    rw [List.length_append, Nat.add_sub_cancel, List.take_left]
  · cases h

/-- A name is read as the number it is written for, and no other name is. -/
theorem attemptNumber_eq_some_iff : attemptNumber name = some number ↔
    0 < number ∧ number < 10000 ∧ name = attemptName number := by
  constructor
  · intro h
    obtain ⟨rest, hrest, h⟩ := Option.bind_eq_some_iff.mp h
    obtain ⟨digits, hdigits, h⟩ := Option.bind_eq_some_iff.mp h
    split at h
    · cases h
    · next hwide =>
      rw [not_or, not_not, Bool.not_eq_false, List.all_eq_true] at hwide
      obtain ⟨hlength, hall⟩ := hwide
      have hne : digits ≠ [] := by
        rintro rfl
        cases hlength
      have hnumeral := isNumeral_iff.mpr ⟨hne, hall⟩
      obtain ⟨hparsed, hpos⟩ := Option.filter_eq_some_iff.mp h
      rw [parseUnsigned_of_isNumeral hnumeral] at hparsed
      obtain ⟨-, hvalue, -⟩ := numeralBelow_eq_some_iff.mp hparsed
      have hlt := ofDigitChars_lt hall
      have hwritten := padded_ofDigitChars hall hne
      rw [hlength, hvalue] at hlt hwritten
      refine ⟨by simpa using hpos, hlt, ?_⟩
      rw [stripPrefix_eq_some_iff.mp hrest, eq_append_of_stripSuffix hdigits, attemptName,
        hwritten, List.append_assoc]
  · rintro ⟨hpos, hlt, rfl⟩
    have hlength := length_padded (n := number) (show 0 < 4 by decide) hlt
    have hall : (padded 4 number).all Char.isDigit = true :=
      List.all_eq_true.mpr fun _ hc => isDigit_of_mem_padded hc
    have hne : padded 4 number ≠ [] := by
      intro hnil
      rw [hnil] at hlength
      cases hlength
    have hnumeral := isNumeral_iff.mpr ⟨hne, List.all_eq_true.mp hall⟩
    rw [attemptNumber, attemptName, List.append_assoc, stripPrefix_append]
    simp only [bind, Option.bind, stripSuffix_append, hlength, hall]
    rw [parseUnsigned_of_isNumeral hnumeral, numeralBelow_eq_some_iff.mpr
      ⟨hnumeral, ofDigitChars_padded 4 number, by omega⟩]
    simp [hpos]

theorem attemptName_lt {greater : ℕ} (h : number < greater) (hlt : greater < 10000) :
    attemptName number < attemptName greater := by
  rw [attemptName, attemptName, List.append_assoc, List.append_assoc]
  refine List.append_left_lt (append_lt_of_ofDigitChars_lt _ ?_ (fun _ hc => isDigit_of_mem_padded hc)
    (fun _ hc => isDigit_of_mem_padded hc) ?_)
  · rw [length_padded (by decide) (h.trans hlt), length_padded (by decide) hlt]
  · rwa [ofDigitChars_padded, ofDigitChars_padded]

theorem attemptNumber_attemptName (hpos : 0 < number) (hlt : number < 10000) :
    attemptNumber (attemptName number) = some number :=
  attemptNumber_eq_some_iff.mpr ⟨hpos, hlt, rfl⟩

theorem attemptName_ne {other : ℕ} (hne : number ≠ other) (hpos : 0 < number)
    (hlt : number < 10000) (hpos' : 0 < other) (hlt' : other < 10000) :
    attemptName number ≠ attemptName other := by
  intro heq
  have hnumber := attemptNumber_attemptName hpos hlt
  rw [heq, attemptNumber_attemptName hpos' hlt'] at hnumber
  exact hne (Option.some.inj hnumber).symm

end Names

namespace Directory

variable {directory other : Directory} {name : Text} {number : ℕ} {entry : Entry}

theorem mem_logs : name ∈ directory.logs ↔
    (attemptNumber name).isSome ∧ ∃ contents, directory.lookup name = some (.file contents) := by
  rw [logs, List.mem_insertionSort, List.mem_map]
  constructor
  · rintro ⟨⟨found, entry⟩, hmem, rfl⟩
    obtain ⟨hentry, hkept⟩ := List.mem_filter.mp hmem
    rw [Bool.and_eq_true] at hkept
    refine ⟨hkept.1, ?_⟩
    cases entry with
    | file contents => exact ⟨contents, AList.mem_lookup_iff.mpr hentry⟩
    | directory => cases hkept.2
    | other => cases hkept.2
  · rintro ⟨hnumber, contents, hlookup⟩
    refine ⟨⟨name, .file contents⟩, List.mem_filter.mpr ⟨AList.mem_lookup_iff.mp hlookup, ?_⟩, rfl⟩
    rw [hnumber]
    rfl

theorem mem_numbers : number ∈ directory.numbers ↔ 0 < number ∧ number < 10000 ∧
    ∃ contents, directory.lookup (attemptName number) = some (.file contents) := by
  rw [numbers, List.mem_toFinset, List.mem_filterMap]
  constructor
  · rintro ⟨name, hname, hnumber⟩
    obtain ⟨hpos, hlt, rfl⟩ := attemptNumber_eq_some_iff.mp hnumber
    exact ⟨hpos, hlt, (mem_logs.mp hname).2⟩
  · rintro ⟨hpos, hlt, hfile⟩
    have hnumber := attemptNumber_attemptName hpos hlt
    exact ⟨_, mem_logs.mpr ⟨by rw [hnumber]; rfl, hfile⟩, hnumber⟩

theorem pairwise_logs : directory.logs.Pairwise fun name later =>
    ∀ number ∈ attemptNumber name, ∀ greater ∈ attemptNumber later, number < greater := by
  have hsorted : directory.logs.Pairwise (· ≤ ·) := List.pairwise_insertionSort _ _
  have hnodup : directory.logs.Nodup := by
    refine (List.perm_insertionSort _ _).nodup_iff.mpr ?_
    exact (List.filter_sublist.map Sigma.fst).nodup directory.nodupKeys
  refine (hsorted.and hnodup).imp fun {name later} h number hnumber greater hgreater => ?_
  obtain ⟨-, hlt, rfl⟩ := attemptNumber_eq_some_iff.mp hnumber
  obtain ⟨-, -, rfl⟩ := attemptNumber_eq_some_iff.mp hgreater
  rcases lt_trichotomy number greater with hless | rfl | hmore
  · exact hless
  · exact absurd rfl h.2
  · exact absurd h.1 (not_le_of_gt (attemptName_lt hmore hlt))

/-- A log that is removed is older than the ten newest listed. -/
theorem newer_of_mem_doomed (h : name ∈ directory.doomed) : ∃ number, attemptNumber name = some number ∧
    preservedLogAttempts ≤ (newer directory.numbers number).card := by
  have hsome : ∀ name ∈ directory.logs, ∃ number, attemptNumber name = some number := fun name hname =>
    Option.isSome_iff_exists.mp (mem_logs.mp hname).1
  -- the numbers of the logs, as listed
  let numbered := directory.logs.map fun name => (attemptNumber name).getD 0
  have hsame : numbered.toFinset = directory.numbers := by
    ext number
    rw [List.mem_toFinset, numbers, List.mem_toFinset, List.mem_map, List.mem_filterMap]
    constructor
    · rintro ⟨name, hname, rfl⟩
      obtain ⟨number, hnumber⟩ := hsome name hname
      exact ⟨name, hname, by rw [hnumber]; rfl⟩
    · rintro ⟨name, hname, hnumber⟩
      exact ⟨name, hname, by rw [hnumber]; rfl⟩
  have hsorted : numbered.Pairwise (· < ·) := by
    rw [List.pairwise_map]
    refine pairwise_logs.imp_of_mem fun {name later} hname hlater h => ?_
    obtain ⟨number, hnumber⟩ := hsome name hname
    obtain ⟨greater, hgreater⟩ := hsome later hlater
    rw [hnumber, hgreater]
    exact h number hnumber greater hgreater
  obtain ⟨number, hnumber⟩ := hsome name (List.mem_of_mem_take h)
  refine ⟨number, hnumber, ?_⟩
  rw [← hsame]
  refine card_newer_of_mem_take hsorted ?_
  rw [List.length_map, ← List.map_take]
  exact List.mem_map.mpr ⟨name, h, by rw [hnumber]; rfl⟩

theorem le_highest (hnumber : attemptNumber name = some number)
    (hlookup : directory.lookup name = some entry) : number ≤ directory.highest :=
  List.le_max?_getD_of_mem (List.mem_filterMap.mpr
    ⟨⟨name, entry⟩, AList.mem_lookup_iff.mp hlookup, hnumber⟩)

theorem numbers_congr (h : ∀ number, 0 < number → number < 10000 →
    ((∃ contents, other.lookup (attemptName number) = some (.file contents)) ↔
      ∃ contents, directory.lookup (attemptName number) = some (.file contents))) :
    other.numbers = directory.numbers := by
  ext number
  rw [mem_numbers, mem_numbers]
  constructor
  · rintro ⟨hpos, hlt, hfile⟩
    exact ⟨hpos, hlt, (h number hpos hlt).mp hfile⟩
  · rintro ⟨hpos, hlt, hfile⟩
    exact ⟨hpos, hlt, (h number hpos hlt).mpr hfile⟩

theorem numbers_insert (hnone : directory.lookup name = none)
    (h : attemptNumber name = none ∨ entry.isFile = false) :
    numbers (AList.insert name entry directory) = directory.numbers := by
  refine numbers_congr fun number hpos hlt => ?_
  by_cases heq : attemptName number = name
  · subst heq
    have hfile := h.resolve_left (by rw [attemptNumber_attemptName hpos hlt]; simp)
    rw [AList.lookup_insert, hnone]
    cases entry with
    | file contents => cases hfile
    | directory => simp
    | other => simp
  · rw [AList.lookup_insert_ne heq]

/-- What goes under a name that is no attempt's, or was no file, takes no attempt with it. -/
theorem numbers_erase (h : attemptNumber name = none ∨
    ∀ contents, directory.lookup name ≠ some (.file contents)) :
    numbers (AList.erase name directory) = directory.numbers := by
  refine numbers_congr fun number hpos hlt => ?_
  by_cases heq : attemptName number = name
  · subst heq
    have hfile := h.resolve_left (by rw [attemptNumber_attemptName hpos hlt]; simp)
    rw [AList.lookup_erase]
    simp [hfile]
  · rw [AList.lookup_erase_ne heq]

theorem numbers_insert_log (hpos : 0 < number) (hlt : number < 10000) (contents : Text) :
    numbers (AList.insert (attemptName number) (.file contents) directory) =
      insert number directory.numbers := by
  ext other
  rw [Finset.mem_insert, mem_numbers, mem_numbers]
  by_cases heq : other = number
  · subst heq
    simp [hpos, hlt, AList.lookup_insert]
  · simp only [heq, false_or]
    constructor
    · rintro ⟨hother, hbound, hfile⟩
      rw [AList.lookup_insert_ne (attemptName_ne heq hother hbound hpos hlt)] at hfile
      exact ⟨hother, hbound, hfile⟩
    · rintro ⟨hother, hbound, hfile⟩
      have hne := attemptName_ne heq hother hbound hpos hlt
      exact ⟨hother, hbound, hfile.imp fun _ => (AList.lookup_insert_ne hne).trans⟩

theorem numbers_erase_log (hpos : 0 < number) (hlt : number < 10000) :
    numbers (AList.erase (attemptName number) directory) = directory.numbers.erase number := by
  ext other
  rw [Finset.mem_erase, mem_numbers, mem_numbers]
  by_cases heq : other = number
  · subst heq
    simp [AList.lookup_erase]
  · constructor
    · rintro ⟨hother, hbound, hfile⟩
      rw [AList.lookup_erase_ne (attemptName_ne heq hother hbound hpos hlt)] at hfile
      exact ⟨heq, hother, hbound, hfile⟩
    · rintro ⟨-, hother, hbound, hfile⟩
      rw [← AList.lookup_erase_ne (attemptName_ne heq hother hbound hpos hlt)] at hfile
      exact ⟨hother, hbound, hfile⟩

end Directory

/-! ## What a run keeps -/

/-- The contents and the number of a call whose file is written. -/
def Phase.holds : Phase → Option (Text × ℕ)
  | .written contents number | .pruning contents number _ | .returned contents number =>
    some (contents, number)
  | .idle | .called _ | .trying _ _ | .claimed _ _ | .failed => none

section Runs

variable {κ : Type} (redact : Text → Text)

namespace World

def claimed (s : World κ) : Finset ℕ := (s.claims.map Prod.snd).toFinset

/-- So many logs of greater numbers are there. -/
def Superseded (s : World κ) (number : ℕ) : Prop :=
  preservedLogAttempts ≤ (newer s.directory.numbers number).card

/-- A call may still try the number. -/
def Tries (s : World κ) (number : ℕ) : Prop :=
  ∃ call contents next, s.phase call = .trying contents next ∧ next ≤ number

/-- A step neither reads the highest number off a directory that cannot be listed, nor removes
anything but a log whose number no call may still try, nor has somebody else leave a file under
the name of an attempt. -/
def Orderly (s : World κ) : Label κ → Prop
  | .act _ (.read listed) => listed = true ∨ s.directory.highest = 0
  | .act call (.remove true) => ∀ contents number name rest,
      s.phase call = .pruning contents number (name :: rest) →
        (∃ written, s.directory.lookup name = some (.file written)) ∧
          ∀ oldest, attemptNumber name = some oldest → ¬ s.Tries oldest
  | .place name entry => attemptNumber name = none ∨ entry.isFile = false
  | _ => True

/-- The file of an attempt holds what its call wrote, unless ten are newer. -/
def Preserves (s : World κ) (held : Text × ℕ) : Prop :=
  s.directory.lookup (attemptName held.2) = some (.file (redact held.1)) ∨ s.Superseded held.2

/-- What holds of a call where it stands. -/
def Stands (s : World κ) (call : κ) : Phase → Prop
  | .idle | .called _ => ∀ number, (call, number) ∉ s.claims
  | .trying _ next => 0 < next ∧ (∀ number, (call, number) ∉ s.claims) ∧
      ∀ number ∈ s.claimed, next ≤ number → number ∈ s.directory.numbers
  | .claimed _ number => (call, number) ∈ s.claims
  | .written contents number | .returned contents number =>
    (call, number) ∈ s.claims ∧ s.Preserves redact (contents, number)
  | .pruning contents number doomed =>
    (call, number) ∈ s.claims ∧ s.Preserves redact (contents, number) ∧
      ∀ name ∈ doomed, ∃ oldest, attemptNumber name = some oldest ∧
        preservedLogAttempts ≤ (newer s.claimed oldest).card
  | .failed => True

/-- What every step of an orderly run keeps. -/
structure Invariant (s : World κ) : Prop where
  once : (s.claims.map Prod.snd).Nodup
  range : ∀ number ∈ s.claimed, 0 < number ∧ number < 10000
  ours : s.directory.numbers ⊆ s.claimed
  retains : Retains preservedLogAttempts s.claimed s.directory.numbers
  stands : ∀ call, s.Stands redact call (s.phase call)

variable {redact} {s s' : World κ} {call other : κ} {phase : Phase} {number : ℕ} {contents : Text}

theorem mem_claimed : number ∈ s.claimed ↔ ∃ call, (call, number) ∈ s.claims := by
  simp [claimed]

theorem Stands.claim (h : s.Stands redact call phase) {held : Text × ℕ}
    (hholds : phase.holds = some held) : (call, held.2) ∈ s.claims ∧ s.Preserves redact held := by
  cases phase with
  | written contents number =>
    obtain rfl := Option.some.inj hholds
    exact h
  | pruning contents number doomed =>
    obtain rfl := Option.some.inj hholds
    exact ⟨h.1, h.2.1⟩
  | returned contents number =>
    obtain rfl := Option.some.inj hholds
    exact h
  | idle => cases hholds
  | called contents => cases hholds
  | trying contents next => cases hholds
  | claimed contents number => cases hholds
  | failed => cases hholds

/-- What holds of a call goes on holding, where another claims a number, or files come and go. -/
theorem Stands.mono (h : s.Stands redact call phase)
    (hclaims : ∀ number, (call, number) ∈ s'.claims ↔ (call, number) ∈ s.claims)
    (hclaimed : s.claimed ⊆ s'.claimed)
    (htried : ∀ contents next, phase = .trying contents next → ∀ number ∈ s'.claimed,
      next ≤ number → number ∉ s'.directory.numbers →
        number ∈ s.claimed ∧ number ∉ s.directory.numbers)
    (hheld : ∀ held, phase.holds = some held → s.Preserves redact held →
      s'.Preserves redact held) : s'.Stands redact call phase := by
  cases phase with
  | idle => exact fun number hmem => h number ((hclaims number).mp hmem)
  | called contents => exact fun number hmem => h number ((hclaims number).mp hmem)
  | trying contents next =>
    obtain ⟨hpos, hnone, hthere⟩ := h
    refine ⟨hpos, fun number hmem => hnone number ((hclaims number).mp hmem), ?_⟩
    intro number hmem hle
    by_contra hgone
    obtain ⟨hbefore, hout⟩ := htried contents next rfl number hmem hle hgone
    exact hout (hthere number hbefore hle)
  | claimed contents number => exact (hclaims number).mpr h
  | written contents number => exact ⟨(hclaims number).mpr h.1, hheld _ rfl h.2⟩
  | returned contents number => exact ⟨(hclaims number).mpr h.1, hheld _ rfl h.2⟩
  | pruning contents number doomed =>
    refine ⟨(hclaims number).mpr h.1, hheld _ rfl h.2.1, fun name hname => ?_⟩
    obtain ⟨oldest, holdest, hnewer⟩ := h.2.2 name hname
    exact ⟨oldest, holdest, hnewer.trans (Finset.card_le_card (newer_subset hclaimed))⟩
  | failed => trivial

theorem Invariant.within (h : s.Invariant redact) {directory : Directory}
    (hours : directory.numbers ⊆ s.claimed)
    (hretains : Retains preservedLogAttempts s.claimed directory.numbers)
    (htried : ∀ number ∈ s.directory.numbers, number ∉ directory.numbers → ¬ s.Tries number)
    (hheld : ∀ call held, (s.phase call).holds = some held → s.Preserves redact held →
      { s with directory := directory }.Preserves redact held) :
    { s with directory := directory }.Invariant redact := by
  refine ⟨h.once, h.range, hours, hretains, fun call => ?_⟩
  refine (h.stands call).mono (fun _ => Iff.rfl) (Finset.Subset.refl _) ?_ (hheld call)
  intro contents next hphase number hmem hle hgone
  refine ⟨hmem, fun hthere => htried number hthere hgone ⟨call, contents, next, hphase, hle⟩⟩

theorem Invariant.place (h : s.Invariant redact) {name : Text} {entry : Entry}
    (hnone : s.directory.lookup name = none)
    (hentry : attemptNumber name = none ∨ entry.isFile = false) :
    { s with directory := s.directory.insert name entry }.Invariant redact := by
  have hnumbers := Directory.numbers_insert hnone hentry
  refine h.within (by rw [hnumbers]; exact h.ours) (by rw [hnumbers]; exact h.retains)
    (fun number hthere hgone => absurd (hnumbers ▸ hthere) hgone) fun call held _ hpreserves => ?_
  refine hpreserves.imp (fun hfile => ?_) fun hnewer => ?_
  · have hne : attemptName held.2 ≠ name := by
      rintro rfl
      cases hnone.symm.trans hfile
    exact (AList.lookup_insert_ne hne).trans hfile
  · rw [Superseded, hnumbers]
    exact hnewer

theorem Invariant.clear (h : s.Invariant redact) {name : Text}
    (hentry : attemptNumber name = none ∨
      ∀ contents, s.directory.lookup name ≠ some (.file contents)) :
    { s with directory := s.directory.erase name }.Invariant redact := by
  have hnumbers := Directory.numbers_erase hentry
  refine h.within (by rw [hnumbers]; exact h.ours) (by rw [hnumbers]; exact h.retains)
    (fun number hthere hgone => absurd (hnumbers ▸ hthere) hgone)
    fun call held hholds hpreserves => ?_
  refine hpreserves.imp (fun hfile => ?_) fun hnewer => ?_
  · have hne : attemptName held.2 ≠ name := by
      rintro rfl
      obtain ⟨hclaim, -⟩ := (h.stands call).claim hholds
      obtain ⟨hpos, hlt⟩ := h.range held.2 (mem_claimed.mpr ⟨call, hclaim⟩)
      rcases hentry with hnone | hother
      · cases hnone.symm.trans (attemptNumber_attemptName hpos hlt)
      · exact hother _ hfile
    exact (AList.lookup_erase_ne hne).trans hfile
  · rw [Superseded, hnumbers]
    exact hnewer

theorem Invariant.unlink (h : s.Invariant redact) (hpos : 0 < number) (hlt : number < 10000)
    (hnewer : s.Superseded number) (htries : ¬ s.Tries number) :
    { s with directory := s.directory.erase (attemptName number) }.Invariant redact := by
  have hnumbers : Directory.numbers (s.directory.erase (attemptName number)) =
      s.directory.numbers.erase number := Directory.numbers_erase_log hpos hlt
  refine h.within ?_ ?_ ?_ ?_
  · rw [hnumbers]
    exact (Finset.erase_subset _ _).trans h.ours
  · rw [hnumbers]
    exact h.retains.erase hnewer
  · intro other hthere hgone
    rw [hnumbers, Finset.mem_erase, not_and'] at hgone
    rwa [not_not.mp (hgone hthere)]
  · intro call held hholds hpreserves
    by_cases heq : held.2 = number
    · refine .inr ?_
      rw [Superseded, hnumbers, heq]
      exact le_card_newer_erase hnewer hnewer
    · obtain ⟨hclaim, -⟩ := (h.stands call).claim hholds
      obtain ⟨hpos', hlt'⟩ := h.range held.2 (mem_claimed.mpr ⟨call, hclaim⟩)
      refine hpreserves.imp (fun hfile => ?_) fun hheld => ?_
      · exact (AList.lookup_erase_ne (attemptName_ne heq hpos' hlt' hpos hlt)).trans hfile
      · rw [Superseded, hnumbers]
        exact le_card_newer_erase hnewer hheld

/-- What is written under a number a call claimed is its own. -/
theorem Invariant.write (h : s.Invariant redact) (hphase : s.phase call = .claimed contents number) :
    { s with directory :=
      s.directory.insert (attemptName number) (.file (redact contents)) }.Invariant redact := by
  have hclaim : (call, number) ∈ s.claims := by
    have hstands := h.stands call
    rwa [hphase] at hstands
  have hmem := mem_claimed.mpr ⟨call, hclaim⟩
  obtain ⟨hpos, hlt⟩ := h.range number hmem
  have hnumbers : Directory.numbers
      (s.directory.insert (attemptName number) (.file (redact contents))) =
      insert number s.directory.numbers := Directory.numbers_insert_log hpos hlt (redact contents)
  refine h.within ?_ ?_ ?_ ?_
  · rw [hnumbers]
    exact Finset.insert_subset hmem h.ours
  · rw [hnumbers]
    exact h.retains.mono (Finset.subset_insert _ _)
  · intro other hthere hgone
    rw [hnumbers] at hgone
    exact absurd (Finset.mem_insert_of_mem hthere) hgone
  · intro other held hholds hpreserves
    obtain ⟨hother, -⟩ := (h.stands other).claim hholds
    obtain ⟨hpos', hlt'⟩ := h.range held.2 (mem_claimed.mpr ⟨other, hother⟩)
    have hne : held.2 ≠ number := by
      intro heq
      -- the number is this call's alone, and this call holds nothing yet
      have hsame := List.inj_on_of_nodup_map h.once hother hclaim heq
      rw [(Prod.mk.inj hsame).1, hphase] at hholds
      cases hholds
    refine hpreserves.imp (fun hfile => ?_) fun hheld => ?_
    · exact (AList.lookup_insert_ne (attemptName_ne hne hpos' hlt' hpos hlt)).trans hfile
    · rw [Superseded, hnumbers]
      exact hheld.trans (Finset.card_le_card (newer_subset (Finset.subset_insert _ _)))

theorem lookup_ne_of_claimed (h : s.Invariant redact) {next : ℕ} (hpos : 0 < next)
    (hlt : next < 10000) (hfresh : next ∉ s.claimed) (hmem : (other, number) ∈ s.claims) :
    attemptName number ≠ attemptName next := by
  have hclaimed := mem_claimed.mpr ⟨other, hmem⟩
  obtain ⟨hpos', hlt'⟩ := h.range number hclaimed
  refine attemptName_ne ?_ hpos' hlt' hpos hlt
  rintro rfl
  exact hfresh hclaimed

theorem Invariant.le_highest (h : s.Invariant redact) (hmem : number ∈ s.claimed) :
    number ≤ s.directory.highest := by
  obtain ⟨there, hthere, hle⟩ := h.retains.exists_ge (by decide) hmem
  obtain ⟨hpos, hlt, contents, hfile⟩ := Directory.mem_numbers.mp hthere
  exact hle.trans (Directory.le_highest (attemptNumber_attemptName hpos hlt) hfile)

theorem Invariant.superseded (h : s.Invariant redact) {doomed : List Text} {name : Text}
    (hphase : s.phase call = .pruning contents number doomed) (hname : name ∈ doomed) :
    ∃ oldest, attemptNumber name = some oldest ∧ s.Superseded oldest := by
  have hstands := h.stands call
  rw [hphase] at hstands
  obtain ⟨oldest, holdest, hnewer⟩ := hstands.2.2 name hname
  exact ⟨oldest, holdest, h.retains.newer_of_made hnewer⟩

theorem Invariant.start (hdirectory : s.directory = ∅) (hclaims : s.claims = [])
    (hidle : ∀ call, s.phase call = .idle) : s.Invariant redact := by
  have hnone : s.claimed = ∅ := by
    rw [claimed, hclaims]
    rfl
  refine ⟨by rw [hclaims]; exact List.nodup_nil, ?_, ?_, ?_, fun call => ?_⟩
  · rw [hnone]
    intro number hmem
    cases hmem
  · intro number hmem
    obtain ⟨-, -, contents, hfile⟩ := Directory.mem_numbers.mp hmem
    rw [hdirectory] at hfile
    cases hfile
  · rw [hnone]
    intro number hmem
    cases hmem
  · rw [hidle call]
    intro number hmem
    rw [hclaims] at hmem
    cases hmem

variable [DecidableEq κ]

theorem Invariant.goto (h : s.Invariant redact) (hstands : s.Stands redact call phase) :
    (s.goto call phase).Invariant redact := by
  refine ⟨h.once, h.range, h.ours, h.retains, fun other => ?_⟩
  have hsame : ∀ phase', s.Stands redact other phase' → (s.goto call phase).Stands redact other phase' :=
    fun _ hother => hother
  by_cases heq : other = call
  · subst heq
    exact hsame _ (by rwa [goto_phase_self])
  · exact hsame _ (by rw [goto_phase_of_ne heq]; exact h.stands other)

/-- The world with a number claimed, and its file there. -/
def claim (s : World κ) (call : κ) (contents : Text) (next : ℕ) : World κ :=
  { s with
    directory := s.directory.insert (attemptName next) (.file [])
    claims := (call, next) :: s.claims }.goto call (.claimed contents next)

/-- A number is claimed that is free, and was never claimed before. -/
theorem Invariant.claim (h : s.Invariant redact) {next : ℕ}
    (hphase : s.phase call = .trying contents next) (hlt : next < 10000)
    (hnone : s.directory.lookup (attemptName next) = none) :
    (s.claim call contents next).Invariant redact := by
  have hstands := h.stands call
  rw [hphase] at hstands
  obtain ⟨hpos, hnothing, hthere⟩ := hstands
  have hfresh : next ∉ s.claimed := by
    intro hmem
    obtain ⟨-, -, contents, hfile⟩ := Directory.mem_numbers.mp (hthere next hmem le_rfl)
    cases hnone.symm.trans hfile
  have hnumbers : (s.claim call contents next).directory.numbers = insert next s.directory.numbers :=
    Directory.numbers_insert_log hpos hlt []
  have hclaimed : (s.claim call contents next).claimed = insert next s.claimed := by
    change (next :: s.claims.map Prod.snd).toFinset = _
    rw [List.toFinset_cons]
    rfl
  refine ⟨?_, ?_, ?_, ?_, fun other => ?_⟩
  · refine List.nodup_cons.mpr ⟨fun hmem => hfresh (List.mem_toFinset.mpr hmem), h.once⟩
  · intro number hmem
    rw [hclaimed, Finset.mem_insert] at hmem
    rcases hmem with rfl | hmem
    · exact ⟨hpos, hlt⟩
    · exact h.range number hmem
  · rw [hnumbers, hclaimed]
    exact Finset.insert_subset_insert _ h.ours
  · rw [hnumbers, hclaimed]
    exact h.retains.insert (Finset.subset_insert _ _) (Finset.mem_insert_self _ _)
  · by_cases heq : other = call
    · subst heq
      rw [World.claim, goto_phase_self]
      exact List.mem_cons_self
    · rw [World.claim, goto_phase_of_ne heq]
      change (s.claim call contents next).Stands redact other (s.phase other)
      refine (h.stands other).mono ?_ ?_ ?_ ?_
      · intro number
        refine ⟨fun hmem => ?_, List.mem_cons_of_mem _⟩
        rcases List.mem_cons.mp hmem with hsame | hmem
        · exact absurd (Prod.mk.inj hsame).1 heq
        · exact hmem
      · rw [hclaimed]
        exact Finset.subset_insert _ _
      · intro _ _ _ number hmem _ hgone
        rw [hnumbers, Finset.mem_insert, not_or] at hgone
        rw [hclaimed, Finset.mem_insert] at hmem
        exact ⟨hmem.resolve_left hgone.1, hgone.2⟩
      · intro held hholds hpreserves
        obtain ⟨hclaim, -⟩ := (h.stands other).claim hholds
        refine hpreserves.imp (fun hfile => ?_) fun hheld => ?_
        · exact (AList.lookup_insert_ne
            (lookup_ne_of_claimed h hpos hlt hfresh hclaim)).trans hfile
        · rw [Superseded, hnumbers]
          exact hheld.trans (Finset.card_le_card (newer_subset (Finset.subset_insert _ _)))

omit [DecidableEq κ] in
theorem highest_of_orderly {listed : Bool} (horderly : s.Orderly (.act call (.read listed))) :
    (if listed then s.directory.highest else 0) = s.directory.highest := by
  rcases horderly with rfl | hzero
  · rfl
  · rw [hzero, ite_self]

theorem Invariant.create (h : s.Invariant redact) {next : ℕ} {writable : Bool}
    (hphase : s.phase call = .trying contents next) :
    (s.create call contents next writable).Invariant redact := by
  unfold World.create
  split
  · next hlt =>
    split
    · next entry hentry =>
      refine h.goto ?_
      have hstands := h.stands call
      rw [hphase] at hstands
      exact ⟨Nat.succ_pos _, hstands.2.1, fun number hmem hle =>
        hstands.2.2 number hmem (Nat.le_of_succ_le hle)⟩
    · next hnone =>
      split
      · exact h.claim hphase hlt hnone
      · exact h.goto trivial
  · exact h.goto trivial

theorem Invariant.wrote (h : s.Invariant redact) (hphase : s.phase call = .claimed contents number)
    (hstep : s.write redact call contents number = some s') : s'.Invariant redact := by
  have hclaim : (call, number) ∈ s.claims := by
    have hstands := h.stands call
    rwa [hphase] at hstands
  unfold World.write at hstep
  split at hstep
  · cases hstep
  · next hother =>
    obtain rfl := Option.some.inj hstep
    refine h.goto ⟨hclaim, .inr ?_⟩
    -- what is no file was put there after ten newer had the log removed
    refine (h.retains number (mem_claimed.mpr ⟨call, hclaim⟩)).resolve_left fun hthere => ?_
    obtain ⟨-, -, contents, hfile⟩ := Directory.mem_numbers.mp hthere
    cases hother.symm.trans hfile
  all_goals
    obtain rfl := Option.some.inj hstep
    exact (h.write hphase).goto ⟨hclaim, .inl (AList.lookup_insert _)⟩

theorem Invariant.removed (h : s.Invariant redact) {name : Text} {rest : List Text}
    (hphase : s.phase call = .pruning contents number (name :: rest))
    (hfile : ∃ written, s.directory.lookup name = some (.file written))
    (htries : ∀ oldest, attemptNumber name = some oldest → ¬ s.Tries oldest)
    {next : World κ} (hunlink : s.unlink name = some next) :
    (next.goto call (.pruning contents number rest)).Invariant redact := by
  obtain ⟨written, hfile⟩ := hfile
  obtain ⟨oldest, holdest, hsuperseded⟩ := h.superseded hphase List.mem_cons_self
  obtain ⟨hpos, hlt, rfl⟩ := attemptNumber_eq_some_iff.mp holdest
  simp only [World.unlink, hfile, Option.some.injEq] at hunlink
  subst hunlink
  have hunlinked := h.unlink hpos hlt hsuperseded (htries oldest holdest)
  have hstands := hunlinked.stands call
  rw [show ({ s with directory := s.directory.erase (attemptName oldest) } : World κ).phase call =
    .pruning contents number (attemptName oldest :: rest) from hphase] at hstands
  exact hunlinked.goto ⟨hstands.1, hstands.2.1, fun name hname =>
    hstands.2.2 name (List.mem_cons_of_mem _ hname)⟩

theorem Invariant.act (h : s.Invariant redact) {act : Act} (horderly : s.Orderly (.act call act))
    (hstep : s.act redact call act = some s') : s'.Invariant redact := by
  have hstands := h.stands call
  cases act with
  | call contents =>
    simp only [World.act] at hstep
    split at hstep
    · next hphase =>
      obtain rfl := Option.some.inj hstep
      rw [hphase] at hstands
      exact h.goto hstands
    · cases hstep
  | read listed =>
    simp only [World.act] at hstep
    split at hstep
    · next contents hphase =>
      obtain rfl := Option.some.inj hstep
      rw [hphase] at hstands
      refine h.goto ⟨Nat.succ_pos _, hstands, fun number hmem hle => ?_⟩
      -- what is read is the highest number there is, and that is the highest ever claimed
      rw [highest_of_orderly horderly] at hle
      exact absurd (h.le_highest hmem) (by omega)
    · cases hstep
  | create writable =>
    simp only [World.act] at hstep
    split at hstep
    · next contents next hphase =>
      obtain rfl := Option.some.inj hstep
      exact h.create hphase
    · cases hstep
  | write ok =>
    simp only [World.act] at hstep
    split at hstep
    · next contents number hphase =>
      cases ok with
      | false =>
        obtain rfl := Option.some.inj hstep
        exact h.goto trivial
      | true => exact h.wrote hphase hstep
    · cases hstep
  | list listed =>
    simp only [World.act] at hstep
    split at hstep
    · next contents number hphase =>
      obtain rfl := Option.some.inj hstep
      rw [hphase] at hstands
      refine h.goto ⟨hstands.1, hstands.2, fun name hname => ?_⟩
      cases listed with
      | false => cases hname
      | true =>
        obtain ⟨oldest, holdest, hnewer⟩ := Directory.newer_of_mem_doomed hname
        exact ⟨oldest, holdest, hnewer.trans (Finset.card_le_card (newer_subset h.ours))⟩
    · cases hstep
  | remove ok =>
    simp only [World.act] at hstep
    split at hstep
    · next contents number name rest hphase =>
      cases ok with
      | false =>
        obtain rfl := Option.some.inj hstep
        rw [hphase] at hstands
        exact h.goto ⟨hstands.1, hstands.2.1, fun other hother =>
          hstands.2.2 other (List.mem_cons_of_mem _ hother)⟩
      | true =>
        obtain ⟨hfile, htries⟩ := horderly contents number name rest hphase
        obtain ⟨next, hunlink, rfl⟩ := Option.map_eq_some_iff.mp hstep
        exact h.removed hphase hfile htries hunlink
    · cases hstep
  | finish =>
    simp only [World.act] at hstep
    split at hstep
    · next contents number hphase =>
      obtain rfl := Option.some.inj hstep
      rw [hphase] at hstands
      exact h.goto ⟨hstands.1, hstands.2.1⟩
    · cases hstep

theorem Invariant.step (h : s.Invariant redact) {label : Label κ} (horderly : s.Orderly label)
    (hstep : s.step redact label = some s') : s'.Invariant redact := by
  cases label with
  | act call act => exact h.act horderly hstep
  | place name entry =>
    simp only [World.step] at hstep
    split at hstep
    · next hnone =>
      obtain rfl := Option.some.inj hstep
      exact h.place hnone horderly
    · cases hstep
  | clear name =>
    simp only [World.step] at hstep
    split at hstep
    · next entry hentry =>
      split at hstep
      · cases hstep
      · next htheirs =>
        obtain rfl := Option.some.inj hstep
        refine h.clear ?_
        rw [Bool.and_eq_true, not_and', Option.isSome_iff_ne_none, ne_eq] at htheirs
        refine (Classical.em _).imp_right fun hnumber contents hfile => ?_
        obtain rfl := Option.some.inj (hentry.symm.trans hfile)
        exact htheirs hnumber rfl
    · cases hstep

end World

open World

variable {redact} {s s' : World κ}

theorem invariant_of_reachable [DecidableEq κ]
    (hreach : (preserving redact κ).ReachableBy Orderly s) : s.Invariant redact :=
  hreach.invariant (fun _ h => .start h.1 h.2.1 h.2.2) fun _ _ _ h horderly hstep =>
    h.step horderly hstep

/-! ## Calls that come later -/

/-- What is so of a call that started once a number was claimed: it claims greater ones. -/
structure Later (s : World κ) (earlier : ℕ) (call : κ) : Prop where
  made : earlier ∈ s.claimed
  tries : ∀ contents next, s.phase call = .trying contents next → earlier < next
  claims : ∀ number, (call, number) ∈ s.claims → earlier < number

variable [DecidableEq κ] {call later : κ} {earlier : ℕ}

theorem Later.goto (hlater : Later s earlier later) {t : World κ} {phase : Phase}
    (hclaims : t.claims = s.claims) (hphases : t.phase = s.phase)
    (htries : later = call → ∀ contents next, phase = .trying contents next → earlier < next) :
    Later (t.goto call phase) earlier later := by
  refine ⟨?_, fun contents next hphase => ?_, fun number hmem => ?_⟩
  · rw [mem_claimed, show (t.goto call phase).claims = s.claims from hclaims, ← mem_claimed]
    exact hlater.made
  · by_cases heq : later = call
    · subst heq
      rw [goto_phase_self] at hphase
      exact htries rfl contents next hphase
    · rw [goto_phase_of_ne heq, hphases] at hphase
      exact hlater.tries contents next hphase
  · rw [show (t.goto call phase).claims = s.claims from hclaims] at hmem
    exact hlater.claims number hmem

theorem Later.create (hlater : Later s earlier later) {contents : Text} {next : ℕ} {writable : Bool}
    (hphase : s.phase call = .trying contents next) :
    Later (s.create call contents next writable) earlier later := by
  have htries : later = call → earlier < next := by
    rintro rfl
    exact hlater.tries contents next hphase
  unfold World.create
  split
  · split
    · refine hlater.goto rfl rfl fun heq contents' next' hsame => ?_
      obtain ⟨-, rfl⟩ := Phase.trying.inj hsame
      exact Nat.lt_succ_of_lt (htries heq)
    · split
      · refine ⟨?_, fun contents' next' htrying => ?_, fun number hmem => ?_⟩
        · obtain ⟨first, hfirst⟩ := mem_claimed.mp hlater.made
          exact mem_claimed.mpr ⟨first, List.mem_cons_of_mem _ hfirst⟩
        · by_cases heq : later = call
          · subst heq
            rw [goto_phase_self] at htrying
            cases htrying
          · rw [goto_phase_of_ne heq] at htrying
            exact hlater.tries contents' next' htrying
        · rcases List.mem_cons.mp hmem with hsame | hmem
          · obtain ⟨rfl, rfl⟩ := Prod.mk.inj hsame
            exact htries rfl
          · exact hlater.claims number hmem
      · exact hlater.goto rfl rfl fun _ _ _ hsame => nomatch hsame
  · exact hlater.goto rfl rfl fun _ _ _ hsame => nomatch hsame

theorem Later.wrote (hlater : Later s earlier later) {contents : Text} {number : ℕ}
    (hstep : s.write redact call contents number = some s') : Later s' earlier later := by
  unfold World.write at hstep
  split at hstep
  · cases hstep
  all_goals
    obtain rfl := Option.some.inj hstep
    exact hlater.goto rfl rfl fun _ _ _ hsame => nomatch hsame

theorem Later.unlinked (hlater : Later s earlier later) {name : Text} {next : World κ}
    (hunlink : s.unlink name = some next) {phase : Phase}
    (hphase : ∀ contents tried, phase ≠ .trying contents tried) :
    Later (next.goto call phase) earlier later := by
  unfold World.unlink at hunlink
  split at hunlink
  · cases hunlink
  · cases hunlink
  all_goals
    obtain rfl := Option.some.inj hunlink
    exact hlater.goto rfl rfl fun _ contents tried hsame => absurd hsame (hphase contents tried)

theorem Later.act (hlater : Later s earlier later) (h : s.Invariant redact) {act : Act}
    (horderly : s.Orderly (.act call act)) (hstep : s.act redact call act = some s') :
    Later s' earlier later := by
  cases act with
  | call contents =>
    simp only [World.act] at hstep
    split at hstep
    · obtain rfl := Option.some.inj hstep
      exact hlater.goto rfl rfl fun _ _ _ hsame => nomatch hsame
    · cases hstep
  | read listed =>
    simp only [World.act] at hstep
    split at hstep
    · obtain rfl := Option.some.inj hstep
      refine hlater.goto rfl rfl fun _ contents next hsame => ?_
      obtain ⟨-, rfl⟩ := Phase.trying.inj hsame
      rw [highest_of_orderly horderly]
      exact Nat.lt_succ_of_le (h.le_highest hlater.made)
    · cases hstep
  | create writable =>
    simp only [World.act] at hstep
    split at hstep
    · next contents next hphase =>
      obtain rfl := Option.some.inj hstep
      exact hlater.create hphase
    · cases hstep
  | write ok =>
    simp only [World.act] at hstep
    split at hstep
    · cases ok with
      | false =>
        obtain rfl := Option.some.inj hstep
        exact hlater.goto rfl rfl fun _ _ _ hsame => nomatch hsame
      | true => exact hlater.wrote hstep
    · cases hstep
  | list listed =>
    simp only [World.act] at hstep
    split at hstep
    · obtain rfl := Option.some.inj hstep
      exact hlater.goto rfl rfl fun _ _ _ hsame => nomatch hsame
    · cases hstep
  | remove ok =>
    simp only [World.act] at hstep
    split at hstep
    · cases ok with
      | false =>
        obtain rfl := Option.some.inj hstep
        exact hlater.goto rfl rfl fun _ _ _ hsame => nomatch hsame
      | true =>
        obtain ⟨next, hunlink, rfl⟩ := Option.map_eq_some_iff.mp hstep
        exact hlater.unlinked hunlink fun _ _ hsame => nomatch hsame
    · cases hstep
  | finish =>
    simp only [World.act] at hstep
    split at hstep
    · obtain rfl := Option.some.inj hstep
      exact hlater.goto rfl rfl fun _ _ _ hsame => nomatch hsame
    · cases hstep

theorem Later.step (hlater : Later s earlier later) (h : s.Invariant redact) {label : Label κ}
    (horderly : s.Orderly label) (hstep : s.step redact label = some s') :
    Later s' earlier later := by
  cases label with
  | act call act => exact hlater.act h horderly hstep
  | place name entry =>
    simp only [World.step] at hstep
    split at hstep
    · obtain rfl := Option.some.inj hstep
      exact ⟨hlater.made, hlater.tries, hlater.claims⟩
    · cases hstep
  | clear name =>
    simp only [World.step] at hstep
    split at hstep
    · split at hstep
      · cases hstep
      · obtain rfl := Option.some.inj hstep
        exact ⟨hlater.made, hlater.tries, hlater.claims⟩
    · cases hstep

theorem Later.run {labels : List (Label κ)} (hlater : Later s earlier later)
    (h : s.Invariant redact) (hmeets : (preserving redact κ).RunMeets Orderly s labels)
    (hrun : (preserving redact κ).run s labels = some s') :
    Later s' earlier later ∧ s'.Invariant redact := by
  induction labels generalizing s with
  | nil =>
    obtain rfl := Option.some.inj hrun
    exact ⟨hlater, h⟩
  | cons label rest ih =>
    obtain ⟨next, hnext, hrest⟩ := Option.bind_eq_some_iff.mp hrun
    exact ih (hlater.step h hmeets.1 hnext) (h.step hmeets.1 hnext) (hmeets.2 next hnext) hrest

omit [DecidableEq κ] in
theorem lookup_insert_ne_none {directory : Directory} {name other : Text} {entry : Entry}
    (h : directory.lookup name ≠ none) :
    (AList.insert other entry directory).lookup name ≠ none := by
  rw [Ne, AList.lookup_insert_eq_none, not_and]
  exact fun _ => h

/-- Only what a call has left to remove goes at a step of the call. -/
theorem gone_of_act {act : Act} (hstep : s.act redact call act = some s') {name : Text}
    (hfound : s.directory.lookup name ≠ none) (hgone : s'.directory.lookup name = none) :
    act = .remove true ∧ ∃ contents number rest,
      s.phase call = .pruning contents number (name :: rest) := by
  unfold World.act at hstep
  split at hstep
  case h_1 =>
    split at hstep
    · obtain rfl := Option.some.inj hstep
      exact absurd hgone hfound
    · cases hstep
  case h_2 =>
    split at hstep
    · obtain rfl := Option.some.inj hstep
      exact absurd hgone hfound
    · cases hstep
  case h_3 =>
    split at hstep
    · obtain rfl := Option.some.inj hstep
      unfold World.create at hgone
      split at hgone
      · split at hgone
        · exact absurd hgone hfound
        · split at hgone
          · exact absurd hgone (lookup_insert_ne_none hfound)
          · exact absurd hgone hfound
      · exact absurd hgone hfound
    · cases hstep
  case h_4 =>
    split at hstep
    · split at hstep
      · unfold World.write at hstep
        split at hstep
        · cases hstep
        · obtain rfl := Option.some.inj hstep
          exact absurd hgone hfound
        all_goals
          obtain rfl := Option.some.inj hstep
          exact absurd hgone (lookup_insert_ne_none hfound)
      · obtain rfl := Option.some.inj hstep
        exact absurd hgone hfound
    · cases hstep
  case h_5 =>
    split at hstep
    · obtain rfl := Option.some.inj hstep
      exact absurd hgone hfound
    · cases hstep
  case h_6 ok =>
    split at hstep
    · next contents number oldest rest hphase =>
      split at hstep
      · next hok =>
        obtain ⟨next, hunlink, rfl⟩ := Option.map_eq_some_iff.mp hstep
        have hdirectory : next.directory = s.directory.erase oldest := by
          unfold World.unlink at hunlink
          split at hunlink
          · cases hunlink
          · cases hunlink
          all_goals
            obtain rfl := Option.some.inj hunlink
            rfl
        obtain rfl : name = oldest := by
          by_contra hne
          refine hfound ((AList.lookup_erase_ne hne).symm.trans ?_)
          rw [← hdirectory]
          exact hgone
        exact ⟨by rw [hok], contents, number, rest, hphase⟩
      · obtain rfl := Option.some.inj hstep
        exact absurd hgone hfound
    · cases hstep
  case h_7 =>
    split at hstep
    · obtain rfl := Option.some.inj hstep
      exact absurd hgone hfound
    · cases hstep

/-- In a run whose steps are orderly no number is claimed twice, a call that starts after another
returned claims a greater number, the file a call returned stays as it wrote it until ten newer are
there, and a call's step removes nothing but a log of a claimed number that ten are newer than. -/
theorem attempts_kept (redact : Text → Text) {s s' : World κ} {labels : List (Label κ)}
    (hreach : (preserving redact κ).ReachableBy Orderly s)
    (hmeets : (preserving redact κ).RunMeets Orderly s labels)
    (hrun : (preserving redact κ).run s labels = some s') :
    (s'.claims.map Prod.snd).Nodup ∧
      (∀ before call contents number next, s.phase before = .returned contents number →
        s.phase call = .idle → (call, next) ∈ s'.claims → number < next) ∧
      (∀ call contents number, s'.phase call = .returned contents number →
        (call, number) ∈ s'.claims ∧
          (s'.directory.lookup (attemptName number) = some (.file (redact contents)) ∨
            preservedLogAttempts ≤ (newer s'.directory.numbers number).card)) ∧
      ∀ call act after, s'.Orderly (.act call act) → s'.act redact call act = some after →
        ∀ name entry, s'.directory.lookup name = some entry → after.directory.lookup name = none →
          ∃ number contents, attemptNumber name = some number ∧ entry = .file contents ∧
            (∃ owner, (owner, number) ∈ s'.claims) ∧
            preservedLogAttempts ≤ (newer s'.directory.numbers number).card := by
  have hinv := invariant_of_reachable hreach
  have hinv' : s'.Invariant redact := invariant_of_reachable (hreach.run hmeets hrun)
  refine ⟨hinv'.once, ?_, ?_, ?_⟩
  · intro before call contents number next hreturned hidle hmem
    have hbefore := hinv.stands before
    have hcall := hinv.stands call
    rw [hreturned] at hbefore
    rw [hidle] at hcall
    have hlater : Later s number call := by
      refine ⟨mem_claimed.mpr ⟨before, hbefore.1⟩, fun contents next htrying => ?_,
        fun other hother => absurd hother (hcall other)⟩
      cases hidle.symm.trans htrying
    exact (hlater.run hinv hmeets hrun).1.claims next hmem
  · intro call contents number hreturned
    have hstands := hinv'.stands call
    rwa [hreturned] at hstands
  · intro call act after horderly hstep name entry hfound hgone
    obtain ⟨rfl, contents, number, rest, hphase⟩ := gone_of_act hstep (by simp [hfound]) hgone
    obtain ⟨⟨written, hfile⟩, -⟩ := horderly contents number name rest hphase
    obtain ⟨oldest, holdest, hnewer⟩ := hinv'.superseded hphase List.mem_cons_self
    obtain ⟨hpos, hlt, rfl⟩ := attemptNumber_eq_some_iff.mp holdest
    refine ⟨oldest, written, holdest, Option.some.inj (hfound.symm.trans hfile), ?_, hnewer⟩
    exact mem_claimed.mp (hinv'.ours (Directory.mem_numbers.mpr ⟨hpos, hlt, written, hfile⟩))

end Runs

def untouched : World ℕ := ⟨∅, fun _ => .idle, []⟩

/-- One whole call, with nothing to remove. -/
def keeps (call : ℕ) : List (Label ℕ) :=
  [.act call (.call "red".toList), .act call (.read true), .act call (.create true),
    .act call (.write true), .act call (.list true)]

theorem keeps_orderly (call : ℕ) (s : World ℕ) :
    (preserving id ℕ).RunMeets World.Orderly s (keeps call ++ [.act call .finish]) := by
  refine System.runMeets_of_forall ?_ s
  simp [keeps, World.Orderly]

def keptOnce : World ℕ :=
  ((preserving id ℕ).run untouched (keeps 1 ++ [.act 1 .finish])).get (by decide +kernel)

def keptTwice : World ℕ :=
  ((preserving id ℕ).run keptOnce (keeps 2 ++ [.act 2 .finish])).get (by decide +kernel)

theorem attempts_kept_twice : (keptTwice.claims.map Prod.snd).Nodup ∧ 1 < 2 ∧
    (keptTwice.directory.lookup (attemptName 2) = some (.file "red".toList) ∨
      preservedLogAttempts ≤ (newer keptTwice.directory.numbers 2).card) := by
  have hreach : (preserving id ℕ).ReachableBy World.Orderly keptOnce :=
    System.reachableBy_of_run ⟨rfl, rfl, fun _ => rfl⟩ (keeps_orderly 1 _) (Option.some_get _).symm
  have hrun : (preserving id ℕ).run keptOnce (keeps 2 ++ [.act 2 .finish]) = some keptTwice :=
    (Option.some_get _).symm
  obtain ⟨hnodup, hlater, hreturned, -⟩ := attempts_kept id hreach (keeps_orderly 2 _) hrun
  exact ⟨hnodup, hlater 1 2 "red".toList 1 2 (by decide +kernel) (by decide +kernel)
    (by decide +kernel), (hreturned 2 "red".toList 2 (by decide +kernel)).2⟩

/-- A call reads the highest number before eleven others keep their logs, the last of which removes
the first's. -/
def overtaken : List (Label ℕ) :=
  [.act 0 (.call "slow".toList), .act 0 (.read true)] ++
    (List.range 11).flatMap (fun n => keeps (n + 1)) ++
    [.act 11 (.remove true), .act 0 (.create true)]

/-- The slow call claims the first's number again. -/
theorem claimed_again : ∃ s, (preserving id ℕ).Reachable s ∧ ¬ (s.claims.map Prod.snd).Nodup := by
  have hruns : ((preserving id ℕ).run untouched overtaken).any (fun s =>
      decide ¬ (s.claims.map Prod.snd).Nodup) = true := by decide +kernel
  obtain ⟨s, hrun, hagain⟩ := (Option.any_eq_true _ _).mp hruns
  exact ⟨s, System.reachable_of_run ⟨rfl, rfl, fun _ => rfl⟩ hrun, of_decide_eq_true hagain⟩

end Onevcs.MergePath
