import Onevcs.Foundations.Digits
import Onevcs.Store.Normalize

/-!
# Spans of time

`Span` of `workspaces.rs`: the duration every document of this crate spells as digits and one unit
letter, read, turned into seconds and written.

What a text and a character are spelled as in a refusal is the standard library's escaping of
them, an argument here.
-/

namespace Onevcs.Workspaces

open Foundations (Text isNumeral parseUnsigned)

namespace Span

inductive Unit
  | seconds
  | minutes
  | hours
  | days

def Unit.letter : Unit → Char
  | .seconds => 's'
  | .minutes => 'm'
  | .hours => 'h'
  | .days => 'd'

/-- `Unit::seconds`: how many there are in one. -/
def Unit.inSeconds : Unit → ℕ
  | .seconds => 1
  | .minutes => 60
  | .hours => 3600
  | .days => 86400

def Unit.ofLetter : Char → Option Unit
  | 's' => some .seconds
  | 'm' => some .minutes
  | 'h' => some .hours
  | 'd' => some .days
  | _ => none

end Span

structure Span where
  value : UInt64
  unit : Span.Unit

/-- How the standard library escapes what a refusal names. -/
structure Escaping where
  text : Text → Text
  char : Char → Text

namespace Span

/-- `u64::saturating_mul`. -/
def saturatingMul (a b : ℕ) : UInt64 := UInt64.ofNat (min (a * b) (2 ^ 64 - 1))

/-- `u64::checked_mul`. -/
def checkedMul (a b : ℕ) : Option UInt64 :=
  if a * b < 2 ^ 64 then some (UInt64.ofNat (a * b)) else none

/-- `Span::as_duration`, in seconds. -/
def asDuration (span : Span) : UInt64 := saturatingMul span.value.toNat span.unit.inSeconds

/-- `SPAN_GRAMMAR`. -/
def grammar : Text :=
  "a span is one or more digits followed by exactly one unit letter — s, m, h or d — ".toList ++
    "naming a positive duration, such as 7d, 36h, 90m or 600s".toList

/-- A refusal of a text that is not a span. -/
def refuse (escaping : Escaping) (text what : Text) : Except Text Span :=
  .error (escaping.text text ++ " is not a span: ".toList ++ what ++ "; ".toList ++ grammar)

/-- What `Span::from_str` does with the digits before a unit. -/
def ofDigits (escaping : Escaping) (text digits : Text) (unit : Unit) : Except Text Span :=
  if digits.isEmpty then refuse escaping text "it has no number before the unit".toList
  else if digits.head? = some '+' ∨ digits.head? = some '-' then
    refuse escaping text "a span is not signed".toList
  else if '.' ∈ digits then refuse escaping text "a span is a whole number".toList
  else if !digits.all Char.isDigit then
    refuse escaping text "it names more than one unit, or something that is not a number".toList
  else
    match parseUnsigned 64 digits with
    | none => refuse escaping text "the number is too large".toList
    | some value =>
      if value = 0 then refuse escaping text "a span of zero names no duration".toList
      else if (checkedMul value unit.inSeconds).isNone then
        refuse escaping text "the number is too large".toList
      else .ok ⟨UInt64.ofNat value, unit⟩

def fromStr (escaping : Escaping) (text : Text) : Except Text Span :=
  if text.isEmpty then refuse escaping text "it is empty".toList
  else if text.any Store.isWhitespace then refuse escaping text "it contains a space".toList
  else
    match text.getLast? with
    | none => refuse escaping text "it is empty".toList
    | some letter =>
      match Unit.ofLetter letter with
      | some unit => ofDigits escaping text text.dropLast unit
      | none =>
        if letter.isDigit then refuse escaping text "it names no unit".toList
        else refuse escaping text (escaping.char letter ++ " is not a unit letter".toList)

/-- `Span`'s `Display`. -/
def display (span : Span) : Text := Nat.toDigits 10 span.value.toNat ++ [span.unit.letter]

/-! ## What is read -/

variable {escaping : Escaping} {text digits : Text} {unit : Unit} {span : Span}

theorem ofLetter_eq_some_iff {letter : Char} :
    Unit.ofLetter letter = some unit ↔ letter = unit.letter := by
  constructor
  · intro h
    unfold Unit.ofLetter at h
    split at h <;> cases h <;> rfl
  · rintro rfl
    cases unit <;> rfl

theorem isWhitespace_letter (unit : Unit) : Store.isWhitespace unit.letter = false := by
  cases unit <;> rfl

theorem isWhitespace_of_isDigit {c : Char} (h : c.isDigit = true) :
    Store.isWhitespace c = false := by
  obtain ⟨hlow, hhigh⟩ := Char.isDigit_iff_toNat.mp h
  have hlow' : 48 ≤ c.toNat := hlow
  have hhigh' : c.toNat ≤ 57 := hhigh
  simp only [Store.isWhitespace, Bool.or_eq_false_iff, Bool.and_eq_false_iff, decide_eq_false_iff_not,
    List.contains_eq_mem]
  refine ⟨⟨.inr (by omega), .inl (by omega)⟩, ?_⟩
  simp only [List.mem_cons, List.not_mem_nil, or_false]
  omega

/-- The digits of a span, as they were read. -/
structure Reads (digits : Text) (span : Span) : Prop where
  numeral : isNumeral digits = true
  value_eq : Nat.ofDigitChars 10 digits 0 = span.value.toNat
  positive : 0 < span.value.toNat
  fits : span.value.toNat * span.unit.inSeconds < 2 ^ 64

theorem ite_refuse_eq_ok {p : Prop} [Decidable p] {what : Text} {next : Except Text Span} :
    (if p then refuse escaping text what else next) = .ok span ↔ ¬ p ∧ next = .ok span := by
  by_cases hp : p
  · rw [if_pos hp, refuse]
    exact ⟨nofun, fun h => absurd hp h.1⟩
  · rw [if_neg hp]
    exact ⟨fun h => ⟨hp, h⟩, And.right⟩

theorem checkedMul_isNone_iff {a b : ℕ} : (checkedMul a b).isNone = true ↔ 2 ^ 64 ≤ a * b := by
  rw [checkedMul, Option.isNone_iff_eq_none, ite_eq_right_iff, ← Nat.not_lt]
  exact ⟨fun h hlt => (nomatch h hlt), fun h hlt => absurd hlt h⟩

/-- The number before a unit is read where it is above nought, and so many units are a number of
seconds that is a `u64`. -/
theorem ofDigits_of_isNumeral (hnumeral : isNumeral digits = true) :
    ofDigits escaping text digits unit = .ok span ↔ span.unit = unit ∧ Reads digits span := by
  obtain ⟨hne, hdigits⟩ := Foundations.isNumeral_iff.mp hnumeral
  have hempty : ¬ digits.isEmpty = true := by rwa [List.isEmpty_iff]
  have hunsigned : ¬ (digits.head? = some '+' ∨ digits.head? = some '-') := by
    rintro (h | h) <;> cases hdigits _ (List.mem_of_head? h)
  have hwhole : '.' ∉ digits := fun h => by cases hdigits _ h
  have hall : ¬ (!digits.all Char.isDigit) = true := by simpa using hdigits
  rw [ofDigits, if_neg hempty, if_neg hunsigned, if_neg hwhole, if_neg hall,
    Foundations.parseUnsigned_of_isNumeral hnumeral]
  cases hvalue : Foundations.numeralBelow (2 ^ 64) digits with
  | none =>
    refine ⟨nofun, ?_⟩
    rintro ⟨-, hreads⟩
    rw [Foundations.numeralBelow_eq_some_iff.mpr ⟨hnumeral, hreads.value_eq,
      span.value.toNat_lt⟩] at hvalue
    cases hvalue
  | some value =>
    obtain ⟨-, rfl, hlt⟩ := Foundations.numeralBelow_eq_some_iff.mp hvalue
    have hback : (UInt64.ofNat (Nat.ofDigitChars 10 digits 0)).toNat =
        Nat.ofDigitChars 10 digits 0 := UInt64.toNat_ofNat_of_lt' hlt
    simp only [ite_refuse_eq_ok, checkedMul_isNone_iff, Nat.not_le, Except.ok.injEq]
    constructor
    · rintro ⟨hpos, hfits, rfl⟩
      exact ⟨rfl, hnumeral, hback.symm, hback.symm ▸ Nat.pos_of_ne_zero hpos,
        hback.symm ▸ hfits⟩
    · rintro ⟨rfl, hreads⟩
      rw [hreads.value_eq]
      exact ⟨hreads.positive.ne', hreads.fits, by rw [UInt64.ofNat_toNat]⟩

theorem ofDigits_eq_ok_iff :
    ofDigits escaping text digits unit = .ok span ↔ span.unit = unit ∧ Reads digits span := by
  by_cases hnumeral : isNumeral digits = true
  · exact ofDigits_of_isNumeral hnumeral
  · refine ⟨fun h => ?_, fun h => absurd h.2.numeral hnumeral⟩
    simp only [ofDigits, ite_refuse_eq_ok] at h
    obtain ⟨hempty, -, -, hall, -⟩ := h
    refine absurd (Foundations.isNumeral_iff.mpr ⟨?_, ?_⟩) hnumeral
    · rwa [List.isEmpty_iff] at hempty
    · simpa using hall

/-- A text is read as a span where it is digits and a unit letter, and so many units are a number
of seconds above nought that is a `u64`. -/
theorem fromStr_eq_ok_iff :
    fromStr escaping text = .ok span ↔
      ∃ digits, text = digits ++ [span.unit.letter] ∧ Reads digits span := by
  constructor
  · intro h
    simp only [fromStr, ite_refuse_eq_ok] at h
    obtain ⟨-, -, h⟩ := h
    cases hlast : text.getLast? with
    | none => rw [hlast] at h; cases h
    | some letter =>
      rw [hlast] at h
      cases hunit : Unit.ofLetter letter with
      | none =>
        simp only [hunit, ite_refuse_eq_ok] at h
        cases h.2
      | some unit =>
        simp only [hunit, ofDigits_eq_ok_iff] at h
        obtain ⟨rfl, hreads⟩ := h
        refine ⟨text.dropLast, ?_, hreads⟩
        rw [← ofLetter_eq_some_iff.mp hunit]
        exact (List.dropLast_append_getLast? _ hlast).symm
  · rintro ⟨digits, rfl, hreads⟩
    obtain ⟨-, hdigits⟩ := Foundations.isNumeral_iff.mp hreads.numeral
    simp only [fromStr, ite_refuse_eq_ok]
    refine ⟨by simp, ?_, ?_⟩
    · simp only [List.any_append, List.any_cons, List.any_nil, Bool.or_false, isWhitespace_letter,
        Bool.not_eq_true, List.any_eq_false]
      exact fun c hc => Bool.not_eq_true _ ▸ isWhitespace_of_isDigit (hdigits c hc)
    · rw [List.getLast?_concat, List.dropLast_concat]
      simp only [ofLetter_eq_some_iff.mpr rfl]
      exact ofDigits_eq_ok_iff.mpr ⟨rfl, hreads⟩

theorem Reads.asDuration_toNat (h : Reads digits span) :
    span.asDuration.toNat = span.value.toNat * span.unit.inSeconds := by
  have hfits := h.fits
  rw [asDuration, saturatingMul, Nat.min_eq_left (by omega)]
  exact UInt64.toNat_ofNat_of_lt' hfits

/-- A span is what its text says, of a duration above nought in which nothing saturates, and is
written as its text. -/
structure Kept (text : Text) (span : Span) : Prop where
  digits_and_unit : ∃ digits, text = digits ++ [span.unit.letter] ∧ isNumeral digits = true
  positive : 0 < span.value.toNat
  fits : span.value.toNat * span.unit.inSeconds < 2 ^ 64
  exact_duration : span.asDuration.toNat = span.value.toNat * span.unit.inSeconds
  written_back : span.display = text

/-- A text that is read as a span is written back byte for byte exactly where it has no leading
zero; everything else about it is kept whatever it starts with. -/
theorem span_kept_iff (h : fromStr escaping text = .ok span) :
    Kept text span ↔ text.head? ≠ some '0' := by
  obtain ⟨digits, rfl, hreads⟩ := fromStr_eq_ok_iff.mp h
  obtain ⟨hne, -⟩ := Foundations.isNumeral_iff.mp hreads.numeral
  have hback : span.display = digits ++ [span.unit.letter] ↔ digits.head? ≠ some '0' := by
    rw [display, List.append_left_inj, ← hreads.value_eq]
    exact Foundations.toDigits_ofDigitChars_iff hreads.numeral
      (hreads.value_eq ▸ hreads.positive)
  rw [List.head?_append_of_ne_nil _ hne, ← hback]
  exact ⟨Kept.written_back, fun hwritten => ⟨⟨digits, rfl, hreads.numeral⟩, hreads.positive,
    hreads.fits, hreads.asDuration_toNat, hwritten⟩⟩

/-- The escaping of a text that needs none. -/
def plainly : Escaping where
  text text := '"' :: text ++ ['"']
  char c := ['\'', c, '\'']

/-- A week is written back as it was read. -/
theorem span_kept_week : Kept "7d".toList ⟨7, .days⟩ := by
  have hread : fromStr plainly "7d".toList = .ok ⟨7, .days⟩ :=
    fromStr_eq_ok_iff.mpr ⟨['7'], rfl, ⟨by decide, by decide, by decide, by decide⟩⟩
  exact (span_kept_iff hread).mpr (by decide)

/-- A week with a leading zero is read, and written without it. -/
theorem padded_span_unkept :
    ¬ ∀ (escaping : Escaping) (text : Text) (span : Span),
      fromStr escaping text = .ok span → Kept text span := by
  intro hall
  have hkept := hall plainly "07d".toList ⟨7, .days⟩
    (fromStr_eq_ok_iff.mpr ⟨['0', '7'], rfl, ⟨by decide, by decide, by decide, by decide⟩⟩)
  exact absurd hkept.written_back (by decide)

/-- What is written of a span is read back as the same span exactly where the span is above nought
and its seconds are a `u64`. -/
theorem fromStr_display_iff (escaping : Escaping) (span : Span) :
    fromStr escaping span.display = .ok span ↔
      0 < span.value.toNat ∧ span.value.toNat * span.unit.inSeconds < 2 ^ 64 := by
  rw [fromStr_eq_ok_iff]
  constructor
  · rintro ⟨digits, -, hreads⟩
    exact ⟨hreads.positive, hreads.fits⟩
  · rintro ⟨hpos, hfits⟩
    refine ⟨Nat.toDigits 10 span.value.toNat, rfl, ?_⟩
    exact ⟨Foundations.isNumeral_toDigits _, Nat.ofDigitChars_ten_toDigits, hpos, hfits⟩

end Span

end Onevcs.Workspaces
