import Onevcs.Foundations.Wildcards
import Onevcs.Rules.Policy

/-!
# What a rule's pattern matches

`policy::glob` finds the literal pieces between the stars one after the other, each as early as it
can. It matches exactly the values that the pattern becomes once each star is replaced by some
string.
-/

namespace Onevcs.Rules

open Foundations (Piece Spells anything word spells_anything_iff spells_word_iff
  spells_word_append_iff)

variable {part value rest : List Char} {parts : List (List Char)}

theorem afterFirst_eq_some (h : afterFirst part value = some rest) :
    (∃ before, value = before ++ part ++ rest) ∧
      ∀ before after, value = before ++ part ++ after → after <:+ rest := by
  induction value with
  | nil =>
    unfold afterFirst at h
    split at h
    case isTrue hempty =>
      obtain rfl := Option.some.inj h
      obtain rfl := List.isEmpty_iff.mp hempty
      refine ⟨⟨[], rfl⟩, fun before after heq => ?_⟩
      obtain ⟨-, rfl⟩ := List.append_eq_nil_iff.mp heq.symm
      exact List.suffix_rfl
    case isFalse => cases h
  | cons c tail ih =>
    rw [afterFirst] at h
    split at h
    case isTrue hprefix =>
      obtain ⟨after, hafter⟩ := List.isPrefixOf_iff_prefix.mp hprefix
      obtain rfl := Option.some.inj h
      rw [← hafter, List.drop_left]
      refine ⟨⟨[], rfl⟩, fun before other heq => ?_⟩
      -- an occurrence further on leaves less
      refine List.suffix_of_suffix_length_le ⟨before ++ part, heq.symm⟩ ⟨part, rfl⟩ ?_
      have hlength := congrArg List.length heq
      simp only [List.length_append] at hlength
      omega
    case isFalse hprefix =>
      obtain ⟨⟨before, hbefore⟩, hleast⟩ := ih h
      refine ⟨⟨c :: before, congrArg (c :: ·) hbefore⟩, fun other after heq => ?_⟩
      cases other with
      | nil => exact absurd (List.isPrefixOf_iff_prefix.mpr ⟨after, heq.symm⟩) hprefix
      | cons d other => exact hleast other after (List.cons.inj heq).2

theorem afterFirst_isSome {before after : List Char} (h : value = before ++ part ++ after) :
    ∃ rest, afterFirst part value = some rest := by
  induction value generalizing before with
  | nil =>
    obtain ⟨hfront, -⟩ := List.append_eq_nil_iff.mp h.symm
    obtain ⟨-, rfl⟩ := List.append_eq_nil_iff.mp hfront
    exact ⟨[], rfl⟩
  | cons c tail ih =>
    rw [afterFirst]
    split
    case isTrue => exact ⟨_, rfl⟩
    case isFalse hprefix =>
      cases before with
      | nil => exact absurd (List.isPrefixOf_iff_prefix.mpr ⟨after, h.symm⟩) hprefix
      | cons d before => exact ih (List.cons.inj h).2

/-- A pattern's pieces, from the literal parts between its stars. -/
def starred : List (List Char) → List (Piece Char)
  | [] => []
  | [last] => word last
  | part :: parts => word part ++ anything :: starred parts

theorem globParts_cons (last next : List Char) :
    globParts (last :: next :: parts) rest =
      match afterFirst last rest with
      | some rest => globParts (next :: parts) rest
      | none => false := rfl

theorem globParts_iff {last : List Char} :
    globParts (last :: parts) rest = true ↔ Spells (anything :: starred (last :: parts)) rest := by
  induction parts generalizing last rest with
  | nil =>
    rw [globParts, List.isSuffixOf_iff_suffix, spells_anything_iff]
    simp only [starred, spells_word_iff]
    constructor
    · exact fun h => ⟨last, h, rfl⟩
    · rintro ⟨_, h, rfl⟩
      exact h
  | cons next parts ih =>
    rw [globParts_cons, spells_anything_iff]
    simp only [starred, spells_word_append_iff]
    constructor
    · intro h
      split at h
      case h_1 left hleft =>
        obtain ⟨⟨before, hbefore⟩, -⟩ := afterFirst_eq_some hleft
        refine ⟨last ++ left, ⟨before, ?_⟩, left, rfl, ih.mp h⟩
        rw [hbefore, List.append_assoc]
      case h_2 => cases h
    · rintro ⟨_, ⟨before, hbefore⟩, after, rfl, hspells⟩
      rw [← List.append_assoc] at hbefore
      obtain ⟨left, hleft⟩ := afterFirst_isSome hbefore.symm
      rw [hleft]
      -- the star takes up what lies between the first occurrence and this one
      exact ih.mpr (hspells.anything_mono
        ((afterFirst_eq_some hleft).2 before after hbefore.symm))

/-- What one character of a pattern stands for. -/
def globPiece (c : Char) : Piece Char := if c = '*' then anything else .one (c == ·)

theorem starred_modifyHead {c : Char} (hparts : parts ≠ []) :
    starred (parts.modifyHead (c :: ·)) = .one (c == ·) :: starred parts := by
  match parts, hparts with
  | [_], _ => rfl
  | _ :: _ :: _, _ => rfl

theorem starred_splitOn (pattern : List Char) :
    starred (pattern.splitOn '*') = pattern.map globPiece := by
  induction pattern with
  | nil => rfl
  | cons c pattern ih =>
    rw [List.splitOn_cons_eq_if_modifyHead, List.map_cons, globPiece, ← ih]
    split
    case isTrue hstar =>
      rw [if_pos (beq_iff_eq.mp hstar)]
      obtain ⟨first, rest, hsplit⟩ := List.exists_cons_of_ne_nil (List.splitOn_ne_nil '*' pattern)
      rw [hsplit]
      rfl
    case isFalse hstar =>
      rw [if_neg fun heq => hstar (beq_iff_eq.mpr heq),
        starred_modifyHead (List.splitOn_ne_nil '*' pattern)]

theorem glob_iff_spells (pattern value : String) :
    glob pattern value = true ↔ Spells (pattern.toList.map globPiece) value.toList := by
  rw [← starred_splitOn]
  unfold glob
  split
  case h_1 hnil => exact absurd hnil (List.splitOn_ne_nil '*' _)
  case h_2 first parts hparts =>
    rw [hparts, Bool.and_eq_true, List.isPrefixOf_iff_prefix]
    match parts with
    | [] =>
      rw [globParts, List.isEmpty_iff]
      simp only [starred, spells_word_iff]
      constructor
      · rintro ⟨⟨rest, hrest⟩, hdrop⟩
        rw [← hrest, List.drop_left] at hdrop
        rw [← hrest, hdrop, List.append_nil]
      · rintro hvalue
        exact ⟨hvalue ▸ List.prefix_rfl, by rw [hvalue, List.drop_length]⟩
    | last :: parts =>
      rw [globParts_iff]
      simp only [starred, spells_word_append_iff]
      constructor
      · rintro ⟨⟨rest, hrest⟩, hspells⟩
        rw [← hrest, List.drop_left] at hspells
        exact ⟨rest, hrest.symm, hspells⟩
      · rintro ⟨rest, hrest, hspells⟩
        rw [hrest, List.drop_left]
        exact ⟨List.prefix_append _ _, hspells⟩

/-- The pattern with its stars replaced by the strings given, in order. -/
def replaced : List Char → List (List Char) → List Char
  | [], _ => []
  | c :: pattern, fills =>
    if c = '*' then fills.headD [] ++ replaced pattern fills.tail
    else c :: replaced pattern fills

theorem spells_iff_replaced {pattern : List Char} :
    Spells (pattern.map globPiece) value ↔
      ∃ fills : List (List Char), fills.length = pattern.count '*' ∧
        value = replaced pattern fills := by
  induction pattern generalizing value with
  | nil => simp [replaced, Foundations.spells_nil_iff, List.length_eq_zero_iff]
  | cons c pattern ih =>
    rw [List.map_cons, globPiece]
    by_cases hstar : c = '*'
    · rw [if_pos hstar, anything, Foundations.spells_run_iff, hstar, List.count_cons_self]
      constructor
      · rintro ⟨taken, rest, rfl, -, hrest⟩
        obtain ⟨fills, hlength, rfl⟩ := ih.mp hrest
        exact ⟨taken :: fills, by rw [List.length_cons, hlength], rfl⟩
      · rintro ⟨fills, hlength, rfl⟩
        obtain ⟨taken, fills, rfl⟩ := List.exists_cons_of_length_eq_add_one hlength
        exact ⟨taken, _, rfl, fun _ _ => rfl, ih.mpr ⟨fills, Nat.succ.inj hlength, rfl⟩⟩
    · rw [if_neg hstar, Foundations.spells_one_iff, List.count_cons_of_ne hstar]
      simp only [replaced, if_neg hstar, beq_iff_eq]
      constructor
      · rintro ⟨_, rest, rfl, rfl, hrest⟩
        obtain ⟨fills, hlength, rfl⟩ := ih.mp hrest
        exact ⟨fills, hlength, rfl⟩
      · rintro ⟨fills, hlength, rfl⟩
        exact ⟨c, _, rfl, rfl, ih.mpr ⟨fills, hlength, rfl⟩⟩

/-- The value matches exactly where it is the pattern with each star replaced by some string. -/
theorem glob_iff_replaced (pattern value : String) :
    glob pattern value = true ↔
      ∃ fills : List (List Char), fills.length = pattern.toList.count '*' ∧
        value.toList = replaced pattern.toList fills := by
  rw [glob_iff_spells, spells_iff_replaced]

/-- A prefix and a suffix do not share a character. -/
example : glob "ab*ba" "aba" = false := by decide +kernel

end Onevcs.Rules
