import Onevcs.Foundations.Lines
import Onevcs.Foundations.Wildcards
import Onevcs.Store.Normalize

/-!
# The head names a release tool's change requests have

`HeadGlob::matches` walks the pattern and the name with one place in each, and remembers the last
star that it passed and how much of the name that star has taken. Where a character does not fit,
the star takes one more; the stars before it are not tried again, since the last one takes up
whatever they would have left.
-/

namespace Onevcs.Release

open Foundations (Piece Spells Text anything)
open Onevcs.Store (isWhitespace)

/-- A glob over branch names: not empty, and without whitespace. -/
structure HeadGlob where
  glob : Text
  nonempty : glob ≠ []
  noSpace : ∀ c ∈ glob, isWhitespace c = false

/-! ## The walk -/

/-- Where a walk is in the pattern and in the name, and the last star that it passed: where that is
in the pattern, and where what it has taken of the name ends. -/
structure Cursor (glob name : Text) where
  place : ℕ
  start : ℕ
  star : Option (ℕ × ℕ)
  place_le : place ≤ glob.length
  start_le : start ≤ name.length
  star_lt : ∀ held ∈ star, held.1 < place ∧ held.2 ≤ start

namespace Cursor

variable {glob name : Text}

def first (glob name : Text) : Cursor glob name where
  place := 0
  start := 0
  star := none
  place_le := Nat.zero_le _
  start_le := Nat.zero_le _
  star_lt := nofun

/-- Past a star that takes nothing yet. -/
def pass (cursor : Cursor glob name) (h : cursor.place < glob.length) : Cursor glob name where
  place := cursor.place + 1
  start := cursor.start
  star := some (cursor.place, cursor.start)
  place_le := h
  start_le := cursor.start_le
  star_lt held hheld := by
    obtain rfl := Option.some.inj hheld
    exact ⟨Nat.lt_succ_self _, le_rfl⟩

def advance (cursor : Cursor glob name) (h : cursor.place < glob.length)
    (hmore : cursor.start < name.length) : Cursor glob name where
  place := cursor.place + 1
  start := cursor.start + 1
  star := cursor.star
  place_le := h
  start_le := hmore
  star_lt held hheld :=
    have hlt := cursor.star_lt held hheld
    ⟨Nat.lt_succ_of_lt hlt.1, Nat.le_succ_of_le hlt.2⟩

/-- Back to the star, which takes one character more. -/
def retry (cursor : Cursor glob name) (held : ℕ × ℕ) (hheld : cursor.star = some held)
    (hmore : cursor.start < name.length) : Cursor glob name where
  place := held.1 + 1
  start := held.2 + 1
  star := some (held.1, held.2 + 1)
  place_le := (cursor.star_lt held hheld).1.trans_le cursor.place_le
  start_le := (cursor.star_lt held hheld).2.trans_lt hmore
  star_lt other hother := by
    obtain rfl := Option.some.inj hother
    exact ⟨Nat.lt_succ_self _, le_rfl⟩

/-- How many of the pattern's places are left for a later star. -/
def starsLeft (cursor : Cursor glob name) : ℕ :=
  glob.length + 1 - cursor.star.elim 0 (·.1 + 1)

/-- How much of the name the star has left to take. -/
def nameLeft (cursor : Cursor glob name) : ℕ := name.length - cursor.star.elim 0 (·.2)

end Cursor

theorem lt_length_of_getElem? {glob : Text} {place : ℕ} {c : Char} (h : glob[place]? = some c) :
    place < glob.length := (List.getElem?_eq_some_iff.mp h).1

namespace Cursor

variable {glob name : Text} {cursor : Cursor glob name}

theorem starsLeft_pass (h : cursor.place < glob.length) :
    (cursor.pass h).starsLeft < cursor.starsLeft := by
  unfold starsLeft
  cases hstar : cursor.star with
  | none => simp only [pass, Option.elim]; omega
  | some held =>
    have := (cursor.star_lt held hstar).1
    simp only [pass, Option.elim]
    omega

theorem nameLeft_retry {held : ℕ × ℕ} (hheld : cursor.star = some held)
    (hmore : cursor.start < name.length) :
    (cursor.retry held hheld hmore).nameLeft < cursor.nameLeft := by
  have := (cursor.star_lt held hheld).2
  unfold nameLeft
  simp only [retry, hheld, Option.elim]
  omega

theorem starsLeft_retry {held : ℕ × ℕ} (hheld : cursor.star = some held)
    (hmore : cursor.start < name.length) :
    (cursor.retry held hheld hmore).starsLeft = cursor.starsLeft := by
  simp only [starsLeft, retry, hheld, Option.elim]

end Cursor

/-- The walk from a place. A later star, a star that takes more, or a place further on. -/
def matchesFrom {glob name : Text} (cursor : Cursor glob name) : Bool :=
  if hmore : cursor.start < name.length then
    match hwanted : glob[cursor.place]? with
    | some wanted =>
      have hplace := lt_length_of_getElem? hwanted
      if wanted = '*' then matchesFrom (cursor.pass hplace)
      else if wanted = '?' ∨ wanted = name[cursor.start] then
        matchesFrom (cursor.advance hplace hmore)
      else
        match hheld : cursor.star with
        | some held => matchesFrom (cursor.retry held hheld hmore)
        | none => false
    | none =>
      match hheld : cursor.star with
      | some held => matchesFrom (cursor.retry held hheld hmore)
      | none => false
  else (glob.drop cursor.place).all (· == '*')
termination_by (cursor.starsLeft, cursor.nameLeft, glob.length - cursor.place)
decreasing_by
  · exact Prod.Lex.left _ _ (Cursor.starsLeft_pass hplace)
  · exact Prod.Lex.right _ (Prod.Lex.right _ (Nat.sub_lt_sub_left hplace (Nat.lt_succ_self _)))
  · rw [Cursor.starsLeft_retry]
    exact Prod.Lex.right _ (Prod.Lex.left _ _ (Cursor.nameLeft_retry hheld hmore))
  · rw [Cursor.starsLeft_retry]
    exact Prod.Lex.right _ (Prod.Lex.left _ _ (Cursor.nameLeft_retry hheld hmore))

def HeadGlob.matches (head : HeadGlob) (name : Text) : Bool :=
  matchesFrom (Cursor.first head.glob name)

/-! ## What the walk answers -/

/-- What one character of a pattern stands for. -/
def headPiece (c : Char) : Piece Char :=
  if c = '*' then anything else if c = '?' then .one fun _ => true else .one (c == ·)

variable {glob name : Text} {cursor : Cursor glob name}

/-- From one place on, the pattern spells what is left of the name from another. -/
def SpellsFrom (glob name : Text) (place start : ℕ) : Prop :=
  Spells ((glob.drop place).map headPiece) (name.drop start)

theorem spells_nil_iff_all_stars {glob : Text} :
    Spells (glob.map headPiece) [] ↔ glob.all (· == '*') = true := by
  induction glob with
  | nil => simp
  | cons c glob ih =>
    rw [List.map_cons, List.all_cons, Bool.and_eq_true, beq_iff_eq, ← ih]
    unfold headPiece
    by_cases hstar : c = '*'
    · rw [if_pos hstar, Foundations.spells_anything_iff]
      simp only [List.suffix_nil, exists_eq_left, hstar, true_and]
    · rw [if_neg hstar]
      split <;> simp [hstar]

theorem spellsFrom_star (h : glob[cursor.place]? = some '*') {start : ℕ} :
    SpellsFrom glob name cursor.place start ↔
      Spells (anything :: (glob.drop (cursor.place + 1)).map headPiece) (name.drop start) := by
  obtain ⟨hlt, hget⟩ := List.getElem?_eq_some_iff.mp h
  rw [SpellsFrom, List.drop_eq_getElem_cons hlt, List.map_cons, hget]
  rfl

theorem spellsFrom_one {wanted : Char} (h : glob[cursor.place]? = some wanted)
    (hstar : wanted ≠ '*') (hmore : cursor.start < name.length) :
    SpellsFrom glob name cursor.place cursor.start ↔
      (wanted = '?' ∨ wanted = name[cursor.start]) ∧
        SpellsFrom glob name (cursor.place + 1) (cursor.start + 1) := by
  obtain ⟨hlt, hget⟩ := List.getElem?_eq_some_iff.mp h
  rw [SpellsFrom, List.drop_eq_getElem_cons hlt, List.drop_eq_getElem_cons hmore, List.map_cons,
    hget, headPiece, if_neg hstar]
  by_cases hone : wanted = '?'
  · rw [if_pos hone, Foundations.spells_one_cons_iff]
    simp [hone, SpellsFrom]
  · rw [if_neg hone, Foundations.spells_one_cons_iff]
    simp [hone, SpellsFrom]

/-- What is between the star and the place has no star in it, and is what the name has between what
the star has taken and its own place. -/
def Aligned (cursor : Cursor glob name) : Prop :=
  ∀ held ∈ cursor.star, cursor.start + (held.1 + 1) = cursor.place + held.2 ∧
    ∀ k, held.1 < k → k < cursor.place → glob[k]? ≠ some '*'

/-- The star may take more, and the pattern behind it spells what is then left. -/
def Later (cursor : Cursor glob name) : Prop :=
  ∃ held ∈ cursor.star, ∃ k, held.2 < k ∧ k ≤ name.length ∧ SpellsFrom glob name (held.1 + 1) k

theorem headPiece_of_ne {c : Char} (h : c ≠ '*') : ∃ fits, headPiece c = .one fits := by
  unfold headPiece
  rw [if_neg h]
  split
  · exact ⟨_, rfl⟩
  · exact ⟨_, rfl⟩

/-- Where the pattern behind the star spells what is left further on, the pattern from the place
spells what is left as much further on. -/
theorem spellsFrom_of_later (haligned : Aligned cursor) {held : ℕ × ℕ}
    (hheld : cursor.star = some held) {k : ℕ} (hk : k ≤ name.length)
    (h : SpellsFrom glob name (held.1 + 1) k) :
    ∃ length, cursor.start = held.2 + length ∧ k + length ≤ name.length ∧
      SpellsFrom glob name cursor.place (k + length) := by
  obtain ⟨hoffsets, hnone⟩ := haligned held hheld
  have hlt := (cursor.star_lt held hheld).1
  obtain ⟨length, hlength⟩ := Nat.exists_eq_add_of_le (Nat.succ_le_of_lt hlt)
  have hplace : length ≤ (glob.drop (held.1 + 1)).length := by
    have := cursor.place_le
    rw [List.length_drop]
    omega
  have hsplit : glob.drop (held.1 + 1) =
      (glob.drop (held.1 + 1)).take length ++ glob.drop cursor.place := by
    have hdrop : glob.drop cursor.place = (glob.drop (held.1 + 1)).drop length := by
      rw [List.drop_drop, hlength]
    rw [hdrop, List.take_append_drop]
  rw [SpellsFrom, hsplit, List.map_append, Foundations.spells_append_iff] at h
  obtain ⟨first, second, hname, hfirst, hsecond⟩ := h
  -- between the star and the place each character takes one of the name
  have hones : ∀ piece ∈ ((glob.drop (held.1 + 1)).take length).map headPiece,
      ∃ fits, piece = .one fits := by
    intro piece hpiece
    obtain ⟨c, hc, rfl⟩ := List.mem_map.mp hpiece
    obtain ⟨index, hindex, hget⟩ := List.getElem_of_mem hc
    rw [List.length_take, min_eq_left hplace] at hindex
    rw [List.getElem_take, List.getElem_drop] at hget
    have hbound : held.1 + 1 + index < glob.length := by
      rw [List.length_drop] at hplace
      omega
    refine headPiece_of_ne fun hstar => hnone (held.1 + 1 + index) (by omega) (by omega) ?_
    rw [List.getElem?_eq_getElem hbound, hget, hstar]
  have hfirstLength : first.length = length := by
    rw [hfirst.length_eq hones, List.length_map, List.length_take, min_eq_left hplace]
  have hleft := congrArg List.length hname
  rw [List.length_drop, List.length_append] at hleft
  refine ⟨length, by omega, by omega, ?_⟩
  rw [SpellsFrom, ← List.drop_drop, hname, ← hfirstLength, List.drop_left]
  exact hsecond

theorem aligned_first : Aligned (Cursor.first glob name) := nofun

theorem aligned_pass (h : cursor.place < glob.length) : Aligned (cursor.pass h) := by
  intro held hheld
  obtain rfl := Option.some.inj hheld
  refine ⟨Nat.add_comm _ _, fun k hlt hle => ?_⟩
  exact absurd hle (Nat.not_lt.mpr hlt)

theorem aligned_advance (haligned : Aligned cursor) {wanted : Char}
    (hwanted : glob[cursor.place]? = some wanted) (hstar : wanted ≠ '*')
    (h : cursor.place < glob.length) (hmore : cursor.start < name.length) :
    Aligned (cursor.advance h hmore) := by
  intro held hheld
  obtain ⟨hoffsets, hnone⟩ := haligned held hheld
  refine ⟨?_, fun k hlt hle => ?_⟩
  · simp only [Cursor.advance]
    omega
  · rcases Nat.lt_succ_iff_lt_or_eq.mp hle with hle | rfl
    · exact hnone k hlt hle
    · rw [hwanted]
      exact fun heq => hstar (Option.some.inj heq)

theorem aligned_retry {held : ℕ × ℕ} (hheld : cursor.star = some held)
    (hmore : cursor.start < name.length) : Aligned (cursor.retry held hheld hmore) := by
  intro other hother
  obtain rfl := Option.some.inj hother
  refine ⟨Nat.add_comm _ _, fun k hlt hle => ?_⟩
  exact absurd hle (Nat.not_lt.mpr hlt)

/-- The pattern spells what is left from the place, or from where the star may still take more. -/
def Answers (cursor : Cursor glob name) : Prop :=
  SpellsFrom glob name cursor.place cursor.start ∨ Later cursor

/-- A star takes up what the stars before it would have left. -/
theorem answers_pass (haligned : Aligned cursor) (hwanted : glob[cursor.place]? = some '*')
    (h : cursor.place < glob.length) : Answers (cursor.pass h) ↔ Answers cursor := by
  have hlater : Later cursor → SpellsFrom glob name cursor.place cursor.start := by
    rintro ⟨held, hheld, k, hlt, hle, hspells⟩
    obtain ⟨length, hstart, -, hspells⟩ := spellsFrom_of_later haligned hheld hle hspells
    rw [spellsFrom_star hwanted] at hspells ⊢
    refine hspells.anything_mono ?_
    obtain ⟨more, hmore⟩ := Nat.exists_eq_add_of_lt hlt
    rw [show k + length = cursor.start + (more + 1) by omega, ← List.drop_drop]
    exact List.drop_suffix _ _
  constructor
  · rintro (hspells | ⟨held, hheld, k, hlt, hle, hspells⟩)
    · refine .inl ((spellsFrom_star hwanted).mpr ?_)
      exact Foundations.spells_anything_iff.mpr ⟨_, List.suffix_rfl, hspells⟩
    · obtain rfl := Option.some.inj hheld
      refine .inl ((spellsFrom_star hwanted).mpr ?_)
      refine Foundations.spells_anything_iff.mpr ⟨_, ?_, hspells⟩
      obtain ⟨more, rfl⟩ := Nat.exists_eq_add_of_lt hlt
      rw [Nat.add_assoc, ← List.drop_drop]
      exact List.drop_suffix _ _
  · intro hanswers
    have hspells := hanswers.elim id hlater
    rw [spellsFrom_star hwanted, anything, Foundations.spells_run_iff_drop] at hspells
    obtain ⟨taken, htaken, -, hspells⟩ := hspells
    rw [List.drop_drop] at hspells
    rw [List.length_drop] at htaken
    have := cursor.start_le
    rcases Nat.eq_zero_or_pos taken with rfl | hpos
    · exact .inl hspells
    · exact .inr ⟨_, rfl, cursor.start + taken, Nat.lt_add_of_pos_right hpos, by omega, hspells⟩

theorem answers_advance {wanted : Char} (hwanted : glob[cursor.place]? = some wanted)
    (hstar : wanted ≠ '*') (h : cursor.place < glob.length) (hmore : cursor.start < name.length)
    (hfits : wanted = '?' ∨ wanted = name[cursor.start]) :
    Answers (cursor.advance h hmore) ↔ Answers cursor := by
  refine or_congr ?_ Iff.rfl
  rw [spellsFrom_one hwanted hstar hmore]
  exact (and_iff_right hfits).symm

theorem answers_retry {held : ℕ × ℕ} (hheld : cursor.star = some held)
    (hmore : cursor.start < name.length)
    (hnot : ¬ SpellsFrom glob name cursor.place cursor.start) :
    Answers (cursor.retry held hheld hmore) ↔ Answers cursor := by
  have hle := (cursor.star_lt held hheld).2
  constructor
  · rintro (hspells | ⟨other, hother, k, hlt, hk, hspells⟩)
    · exact .inr ⟨held, hheld, held.2 + 1, Nat.lt_succ_self _, by omega, hspells⟩
    · obtain rfl := Option.some.inj hother
      exact .inr ⟨held, hheld, k, Nat.lt_of_succ_lt hlt, hk, hspells⟩
  · rintro (hspells | ⟨other, hother, k, hlt, hk, hspells⟩)
    · exact absurd hspells hnot
    · obtain rfl : held = other := Option.some.inj (hheld.symm.trans hother)
      rcases Nat.eq_or_lt_of_le (Nat.succ_le_of_lt hlt) with rfl | hlt
      · exact .inl hspells
      · exact .inr ⟨_, rfl, k, hlt, hk, hspells⟩

theorem not_answers (hnone : cursor.star = none)
    (hnot : ¬ SpellsFrom glob name cursor.place cursor.start) : ¬ Answers cursor := by
  rintro (hspells | ⟨held, hheld, -⟩)
  · exact hnot hspells
  · rw [hnone] at hheld
    cases hheld

theorem answers_end (haligned : Aligned cursor) (hend : ¬ cursor.start < name.length) :
    (glob.drop cursor.place).all (· == '*') = true ↔ Answers cursor := by
  have hdrop : name.drop cursor.start = [] := List.drop_eq_nil_of_le (Nat.not_lt.mp hend)
  rw [← spells_nil_iff_all_stars, ← hdrop]
  refine (or_iff_left ?_).symm
  rintro ⟨held, hheld, k, hlt, hle, hspells⟩
  obtain ⟨length, hstart, hlength, -⟩ := spellsFrom_of_later haligned hheld hle hspells
  omega

theorem not_spellsFrom_of_ended (hwanted : glob[cursor.place]? = none)
    (hmore : cursor.start < name.length) : ¬ SpellsFrom glob name cursor.place cursor.start := by
  intro h
  rw [SpellsFrom, List.drop_eq_nil_of_le (List.getElem?_eq_none_iff.mp hwanted), List.map_nil,
    Foundations.spells_nil_iff, List.drop_eq_nil_iff] at h
  omega

/-- The walk from a place answers whether the pattern spells what is left there, or what is left
once the star has taken more. -/
theorem matchesFrom_iff (haligned : Aligned cursor) :
    matchesFrom cursor = true ↔ Answers cursor := by
  fun_induction matchesFrom cursor with
  | case1 cursor hmore hwanted hplace ih =>
    rw [ih (aligned_pass hplace), answers_pass haligned hwanted hplace]
  | case2 cursor hmore wanted hwanted hplace hstar hfits ih =>
    rw [ih (aligned_advance haligned hwanted hstar hplace hmore),
      answers_advance hwanted hstar hplace hmore hfits]
  | case3 cursor hmore wanted hwanted hplace hstar hfits held hheld ih =>
    have hnot : ¬ SpellsFrom glob name cursor.place cursor.start := fun h =>
      hfits ((spellsFrom_one hwanted hstar hmore).mp h).1
    rw [ih (aligned_retry hheld hmore), answers_retry hheld hmore hnot]
  | case4 cursor hmore wanted hwanted hplace hstar hfits hnone =>
    have hnot : ¬ SpellsFrom glob name cursor.place cursor.start := fun h =>
      hfits ((spellsFrom_one hwanted hstar hmore).mp h).1
    exact iff_of_false Bool.false_ne_true (not_answers hnone hnot)
  | case5 cursor hmore hwanted held hheld ih =>
    rw [ih (aligned_retry hheld hmore),
      answers_retry hheld hmore (not_spellsFrom_of_ended hwanted hmore)]
  | case6 cursor hmore hwanted hnone =>
    exact iff_of_false Bool.false_ne_true
      (not_answers hnone (not_spellsFrom_of_ended hwanted hmore))
  | case7 cursor hend => exact answers_end haligned hend

/-- A head pattern matches exactly the names it spells: a star any run of characters, a question
mark one, and any other character itself. -/
theorem headGlob_matches_iff (head : HeadGlob) (name : Text) :
    head.matches name = true ↔ Spells (head.glob.map headPiece) name := by
  rw [HeadGlob.matches, matchesFrom_iff aligned_first]
  refine or_iff_left ?_
  rintro ⟨held, hheld, -⟩
  cases hheld

end Onevcs.Release
