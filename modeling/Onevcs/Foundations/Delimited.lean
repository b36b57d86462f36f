import Mathlib.Data.List.Basic
import Mathlib.Data.List.Infix

/-!
# Delimited parts

Parts that are free of a mark can be written one behind the other, each with the mark behind it, and
be told from what was written. A text that is being written ends in the middle of a part; the parts
it holds whole are those whose mark it has.
-/

namespace Foundations

variable {α : Type*} {mark : α} {left right behind ahead : List α} {parts others : List (List α)}

/-- A text is cut at its first mark in one way. -/
theorem cut_inj (hleft : mark ∉ left) (hright : mark ∉ right)
    (h : left ++ mark :: ahead = right ++ mark :: behind) : left = right ∧ ahead = behind := by
  induction left generalizing right with
  | nil =>
    cases right with
    | nil => exact ⟨rfl, (List.cons.inj h).2⟩
    | cons first rest =>
      obtain ⟨rfl, -⟩ := List.cons.inj h
      exact absurd List.mem_cons_self hright
  | cons first rest ih =>
    cases right with
    | nil =>
      obtain ⟨rfl, -⟩ := List.cons.inj h
      exact absurd List.mem_cons_self hleft
    | cons other more =>
      obtain ⟨rfl, hrest⟩ := List.cons.inj h
      obtain ⟨rfl, hbehind⟩ := ih (List.not_mem_of_not_mem_cons hleft)
        (List.not_mem_of_not_mem_cons hright) hrest
      exact ⟨rfl, hbehind⟩

/-- Parts, each with the mark behind it. -/
def delimited (mark : α) (parts : List (List α)) : List α := parts.flatMap fun part => part ++ [mark]

@[simp] theorem delimited_nil : delimited mark [] = [] := rfl

@[simp] theorem delimited_cons (part : List α) (parts : List (List α)) :
    delimited mark (part :: parts) = part ++ mark :: delimited mark parts := by
  rw [delimited, List.flatMap_cons, List.append_assoc]
  rfl

/-- Parts that are free of the mark are told from what they are written as. -/
theorem delimited_injective (hparts : ∀ part ∈ parts, mark ∉ part)
    (hothers : ∀ part ∈ others, mark ∉ part) (h : delimited mark parts = delimited mark others) :
    parts = others := by
  induction parts generalizing others with
  | nil =>
    cases others with
    | nil => rfl
    | cons first rest =>
      rw [delimited_cons] at h
      exact absurd h.symm (List.append_ne_nil_of_right_ne_nil _ (List.cons_ne_nil _ _))
  | cons first rest ih =>
    cases others with
    | nil =>
      rw [delimited_cons] at h
      exact absurd h (List.append_ne_nil_of_right_ne_nil _ (List.cons_ne_nil _ _))
    | cons other more =>
      rw [delimited_cons, delimited_cons] at h
      obtain ⟨rfl, hrest⟩ := cut_inj (hparts _ List.mem_cons_self) (hothers _ List.mem_cons_self) h
      rw [ih (fun part hpart => hparts part (List.mem_cons_of_mem _ hpart))
        (fun part hpart => hothers part (List.mem_cons_of_mem _ hpart)) hrest]

/-! ## The complete parts of a text -/

variable {text front tail : List α}

/-- A text with nothing behind its last mark. -/
def Closed (mark : α) (text : List α) : Prop := text = [] ∨ text.getLast? = some mark

theorem closed_nil : Closed mark [] := .inl rfl

theorem closed_concat (front : List α) : Closed mark (front ++ [mark]) := .inr (by simp)

theorem Closed.of_cons {a : α} (h : Closed mark (a :: text)) : Closed mark text := by
  cases text with
  | nil => exact closed_nil
  | cons b rest =>
    rcases h with h | h
    · cases h
    · rw [List.getLast?_cons_cons] at h
      exact .inr h

theorem Closed.append (hfront : Closed mark front) (htext : Closed mark text) :
    Closed mark (front ++ text) := by
  rcases htext with rfl | htext
  · rwa [List.append_nil]
  · exact .inr (by rw [List.getLast?_append, htext]; rfl)

theorem Closed.drop (h : Closed mark text) (n : ℕ) : Closed mark (text.drop n) := by
  induction n generalizing text with
  | zero => exact h
  | succ n ih =>
    cases text with
    | nil => exact closed_nil
    | cons a rest => exact ih h.of_cons

/-- A place in a text with no part begun before it and not ended. -/
def AtBoundary (mark : α) (text : List α) (offset : ℕ) : Prop :=
  offset ≤ text.length ∧ Closed mark (text.take offset)

theorem atBoundary_zero : AtBoundary mark text 0 := ⟨Nat.zero_le _, closed_nil⟩

/-- A boundary is told by the character before it. -/
theorem atBoundary_iff {offset : ℕ} :
    AtBoundary mark text offset ↔
      offset ≤ text.length ∧ (offset = 0 ∨ text[offset - 1]? = some mark) := by
  refine and_congr_right fun hle => ?_
  cases offset with
  | zero => exact iff_of_true closed_nil (.inl rfl)
  | succ n =>
    have hlast : (text.take (n + 1)).getLast? = text[n]? := by
      rw [List.getLast?_take, if_neg (Nat.succ_ne_zero n), Nat.add_sub_cancel,
        List.getElem?_eq_getElem hle]
      rfl
    have hne : text.take (n + 1) ≠ [] := by
      rw [Ne, List.take_eq_nil_iff]
      rintro (h | rfl)
      · cases h
      · cases hle
    unfold Closed
    rw [hlast, Nat.add_sub_cancel]
    exact or_congr_left (iff_of_false hne (Nat.succ_ne_zero n))

theorem AtBoundary.append {offset : ℕ} (h : AtBoundary mark text offset) (more : List α) :
    AtBoundary mark (text ++ more) offset := by
  refine ⟨h.1.trans (by rw [List.length_append]; omega), ?_⟩
  rw [List.take_append_of_le_length h.1]
  exact h.2

section Complete

variable [DecidableEq α]

/-- A text cut after each mark, which stays at the end of its part. -/
@[grind] def splitInclusive (mark : α) : List α → List (List α)
  | [] => []
  | a :: rest =>
    if a = mark then [a] :: splitInclusive mark rest
    else
      match splitInclusive mark rest with
      | [] => [[a]]
      | part :: parts => (a :: part) :: parts

/-- The parts of a text whose mark is written. -/
def completeParts (mark : α) (text : List α) : List (List α) :=
  (splitInclusive mark text).takeWhile fun part => part.getLast? = some mark

/-- A text is what stands up to its last mark and what stands behind it. -/
theorem exists_closed_append (mark : α) (text : List α) :
    ∃ front tail, text = front ++ tail ∧ Closed mark front ∧ mark ∉ tail := by
  induction text using List.reverseRecOn with
  | nil => exact ⟨[], [], rfl, closed_nil, List.not_mem_nil⟩
  | append_singleton text a ih =>
    by_cases ha : a = mark
    · subst ha
      exact ⟨text ++ [a], [], by simp, closed_concat text, List.not_mem_nil⟩
    · obtain ⟨front, tail, rfl, hfront, htail⟩ := ih
      refine ⟨front, tail ++ [a], by simp, hfront, ?_⟩
      rw [List.mem_append, List.mem_singleton]
      exact not_or.mpr ⟨htail, Ne.symm ha⟩

@[simp] theorem splitInclusive_nil : splitInclusive mark [] = [] := rfl

theorem flatten_splitInclusive (mark : α) (text : List α) :
    (splitInclusive mark text).flatten = text := by
  induction text with
  | nil => rfl
  | cons a rest ih =>
    unfold splitInclusive
    split
    · rw [List.flatten_cons, ih]
      rfl
    · split
      · next hparts =>
        rw [hparts] at ih
        rw [← ih]
        rfl
      · next hparts =>
        rw [hparts] at ih
        rw [← ih]
        rfl

theorem splitInclusive_ne_nil (h : text ≠ []) : splitInclusive mark text ≠ [] := by
  intro hparts
  have hflatten := flatten_splitInclusive mark text
  rw [hparts] at hflatten
  exact h hflatten.symm

/-- A text is cut behind a mark whatever follows it. -/
theorem splitInclusive_append (hfront : Closed mark front) (text : List α) :
    splitInclusive mark (front ++ text) = splitInclusive mark front ++ splitInclusive mark text := by
  induction front with
  | nil => rfl
  | cons a rest ih =>
    have hrest := ih hfront.of_cons
    rw [List.cons_append, splitInclusive, splitInclusive, hrest]
    split
    · rfl
    · next ha =>
      -- what the first character belongs to is a part of the rest already
      have hne : rest ≠ [] := by
        rintro rfl
        rcases hfront with h | h
        · cases h
        · exact ha (Option.some.inj h)
      cases hparts : splitInclusive mark rest with
      | nil => exact absurd hparts (splitInclusive_ne_nil hne)
      | cons part parts => rfl

theorem splitInclusive_of_not_mem (h : mark ∉ text) (hne : text ≠ []) :
    splitInclusive mark text = [text] := by
  induction text with
  | nil => exact absurd rfl hne
  | cons a rest ih =>
    rw [List.mem_cons, not_or] at h
    rw [splitInclusive, if_neg (Ne.symm h.1)]
    cases rest with
    | nil => rfl
    | cons b more => rw [ih h.2 (List.cons_ne_nil b more)]

/-- Each part of a closed text has its mark. -/
theorem getLast?_of_mem_splitInclusive (htext : Closed mark text) :
    ∀ part ∈ splitInclusive mark text, part.getLast? = some mark := by
  induction text with
  | nil => exact fun part hpart => nomatch hpart
  | cons a rest ih =>
    have hrest := ih htext.of_cons
    intro part hpart
    unfold splitInclusive at hpart
    split at hpart
    · next ha =>
      rcases List.mem_cons.mp hpart with rfl | hpart
      · rw [ha]
        rfl
      · exact hrest part hpart
    · next ha =>
      split at hpart
      · next hparts =>
        have hnil : rest = [] := by
          by_contra hne
          exact splitInclusive_ne_nil hne hparts
        subst hnil
        rcases htext with h | h
        · cases h
        · exact absurd (Option.some.inj h) ha
      · next first more hparts =>
        have hfirst := hrest first (by rw [hparts]; exact List.mem_cons_self)
        rcases List.mem_cons.mp hpart with rfl | hpart
        · rw [List.getLast?_cons, hfirst]
          rfl
        · exact hrest part (by rw [hparts]; exact List.mem_cons_of_mem _ hpart)

/-- The complete parts of a text are the parts of what stands up to its last mark. -/
theorem completeParts_append_tail (hfront : Closed mark front) (htail : mark ∉ tail) :
    completeParts mark (front ++ tail) = splitInclusive mark front := by
  have hall : ∀ part ∈ splitInclusive mark front, decide (part.getLast? = some mark) = true :=
    fun part hpart => decide_eq_true (getLast?_of_mem_splitInclusive hfront part hpart)
  rw [completeParts, splitInclusive_append hfront, List.takeWhile_append_of_pos hall]
  cases tail with
  | nil => simp
  | cons a rest =>
    have hlast : ¬(a :: rest).getLast? = some mark := fun h => htail (List.mem_of_getLast? h)
    rw [splitInclusive_of_not_mem htail (List.cons_ne_nil a rest),
      List.takeWhile_cons_of_neg (by rw [decide_eq_true_iff]; exact hlast), List.append_nil]

theorem completeParts_of_closed (htext : Closed mark text) :
    completeParts mark text = splitInclusive mark text := by
  have hnil : mark ∉ ([] : List α) := List.not_mem_nil
  simpa using completeParts_append_tail htext hnil

/-- What is written behind complete parts leaves them as they are. -/
theorem completeParts_append (hfront : Closed mark front) (text : List α) :
    completeParts mark (front ++ text) = completeParts mark front ++ completeParts mark text := by
  obtain ⟨more, tail, rfl, hmore, htail⟩ := exists_closed_append mark text
  rw [← List.append_assoc, completeParts_append_tail (hfront.append hmore) htail,
    completeParts_append_tail hmore htail, completeParts_of_closed hfront,
    splitInclusive_append hfront]

/-- The complete parts reach from the start of the text to its last mark. -/
theorem flatten_completeParts (mark : α) (text : List α) :
    ∃ tail, text = (completeParts mark text).flatten ++ tail ∧
      Closed mark (completeParts mark text).flatten ∧ mark ∉ tail := by
  obtain ⟨front, tail, rfl, hfront, htail⟩ := exists_closed_append mark text
  have hflatten : (completeParts mark (front ++ tail)).flatten = front := by
    rw [completeParts_append_tail hfront htail, flatten_splitInclusive]
  exact ⟨tail, by rw [hflatten], by rwa [hflatten], htail⟩

/-- The complete parts by themselves are their own complete parts. -/
theorem completeParts_flatten (mark : α) (text : List α) :
    completeParts mark (completeParts mark text).flatten = completeParts mark text := by
  obtain ⟨front, tail, rfl, hfront, htail⟩ := exists_closed_append mark text
  rw [completeParts_append_tail hfront htail, flatten_splitInclusive,
    completeParts_of_closed hfront]

/-- A tail with no mark is no part. -/
example : completeParts 0 [1, 0, 0, 2] = [[1, 0], [0]] := by decide +kernel

/-- How far the complete parts behind a place in a text reach. -/
def reach (mark : α) (text : List α) (offset : ℕ) : ℕ :=
  offset + (completeParts mark (text.drop offset)).flatten.length

variable {offset start : ℕ}

theorem take_reach (mark : α) (text : List α) (offset : ℕ) :
    text.take (reach mark text offset) =
      text.take offset ++ (completeParts mark (text.drop offset)).flatten := by
  obtain ⟨tail, hdrop, -, -⟩ := flatten_completeParts mark (text.drop offset)
  rw [reach, List.take_add, hdrop, List.take_append_of_le_length (by rw [← hdrop]), ← hdrop,
    List.take_length]

/-- From a boundary the complete parts reach to a boundary. -/
theorem AtBoundary.reach (h : AtBoundary mark text offset) :
    AtBoundary mark text (reach mark text offset) := by
  obtain ⟨tail, hdrop, hclosed, -⟩ := flatten_completeParts mark (text.drop offset)
  constructor
  · have hlength := congrArg List.length hdrop
    rw [List.length_drop, List.length_append] at hlength
    have hle := h.1
    unfold Foundations.reach
    omega
  · rw [take_reach mark text offset]
    exact h.2.append hclosed

/-- The complete parts behind a place are those up to a later boundary and those behind it. -/
theorem completeParts_drop (h : AtBoundary mark text offset) (hstart : start ≤ offset) :
    completeParts mark (text.drop start) =
      completeParts mark ((text.take offset).drop start) ++ completeParts mark (text.drop offset) := by
  have hle : start ≤ (text.take offset).length := by
    rw [List.length_take]
    exact le_min hstart (hstart.trans h.1)
  have hdrop : text.drop start = (text.take offset).drop start ++ text.drop offset := by
    rw [← List.drop_append_of_le_length hle, List.take_append_drop]
  rw [hdrop, completeParts_append (h.2.drop start)]

/-- The complete parts up to where they reach are all the complete parts. -/
theorem completeParts_take_reach (h : AtBoundary mark text offset) (hstart : start ≤ offset) :
    completeParts mark ((text.take (reach mark text offset)).drop start) =
      completeParts mark (text.drop start) := by
  have hle : start ≤ (text.take offset).length := by
    rw [List.length_take]
    exact le_min hstart (hstart.trans h.1)
  rw [take_reach mark text offset, List.drop_append_of_le_length hle, completeParts_append (h.2.drop start),
    completeParts_flatten, completeParts_drop h hstart]

end Complete

end Foundations
