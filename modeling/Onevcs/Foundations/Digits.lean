import Mathlib.Algebra.Group.Nat.Defs
import Mathlib.Data.Char
import Mathlib.Data.List.Basic
import Mathlib.Data.List.Lex
import Onevcs.Foundations.Lines

/-!
# Decimal digits

A number is read off its decimal digits and written in them. Reading takes any digits, leading
zeros among them; writing gives the one spelling that has none.
-/

namespace Foundations

/-- Digits, and at least one. -/
def isNumeral (text : Text) : Bool := !text.isEmpty && text.all Char.isDigit

/-- The number that digits spell, where it is below a bound. -/
def numeralBelow (bound : ℕ) (text : Text) : Option ℕ :=
  let value := Nat.ofDigitChars 10 text 0
  if isNumeral text = true ∧ value < bound then some value else none

/-- `str::parse`, as an unsigned integer of so many bits: a `+` may stand before the digits. -/
def parseUnsigned (bits : ℕ) : Text → Option ℕ
  | '+' :: digits => numeralBelow (2 ^ bits) digits
  | digits => numeralBelow (2 ^ bits) digits

variable {n bound bits : ℕ} {c : Char} {digits text : Text}

theorem isNumeral_iff : isNumeral text = true ↔ text ≠ [] ∧ ∀ c ∈ text, c.isDigit = true := by
  simp [isNumeral]

theorem isNumeral_toDigits (n : ℕ) : isNumeral (Nat.toDigits 10 n) = true :=
  isNumeral_iff.mpr ⟨Nat.toDigits_ne_nil,
    fun _ hc => Nat.isDigit_of_mem_toDigits (by decide) (by decide) hc⟩

theorem numeralBelow_eq_some_iff {value : ℕ} :
    numeralBelow bound text = some value ↔
      isNumeral text = true ∧ Nat.ofDigitChars 10 text 0 = value ∧ value < bound := by
  simp only [numeralBelow, Option.ite_none_right_eq_some, Option.some.injEq]
  constructor
  · rintro ⟨⟨hnumeral, hbound⟩, rfl⟩
    exact ⟨hnumeral, rfl, hbound⟩
  · rintro ⟨hnumeral, rfl, hbound⟩
    exact ⟨⟨hnumeral, hbound⟩, rfl⟩

theorem parseUnsigned_of_isNumeral (h : isNumeral text = true) :
    parseUnsigned bits text = numeralBelow (2 ^ bits) text := by
  cases text with
  | nil => rfl
  | cons first rest =>
    have hfirst : first ≠ '+' := by
      rintro rfl
      cases (isNumeral_iff.mp h).2 '+' List.mem_cons_self
    unfold parseUnsigned
    split
    · next heq => exact absurd (List.cons.inj heq).1 hfirst
    · rfl

/-- A number that fits is read back. -/
theorem parseUnsigned_toDigits (h : n < 2 ^ bits) :
    parseUnsigned bits (Nat.toDigits 10 n) = some n := by
  rw [parseUnsigned_of_isNumeral (isNumeral_toDigits n)]
  exact numeralBelow_eq_some_iff.mpr
    ⟨isNumeral_toDigits n, Nat.ofDigitChars_ten_toDigits, h⟩

theorem digitChar_eq_ofNat : ∀ k < 10, Nat.digitChar k = Char.ofNat (48 + k) := by decide

/-- A digit is the one its value is written as. -/
theorem digitChar_of_isDigit (h : c.isDigit = true) :
    c.toNat - '0'.toNat < 10 ∧ Nat.digitChar (c.toNat - '0'.toNat) = c := by
  obtain ⟨hlow, hhigh⟩ := Char.isDigit_iff_toNat.mp h
  have hlow' : 48 ≤ c.toNat := hlow
  have hhigh' : c.toNat ≤ 57 := hhigh
  have hlt : c.toNat - '0'.toNat < 10 := by
    change c.toNat - 48 < 10
    omega
  have hval : 48 + (c.toNat - '0'.toNat) = c.toNat := by
    change 48 + (c.toNat - 48) = c.toNat
    omega
  exact ⟨hlt, by rw [digitChar_eq_ofNat _ hlt, hval, Char.ofNat_toNat]⟩

/-- A number above nought is written without a leading zero. -/
theorem head?_toDigits_ne (hn : 0 < n) : (Nat.toDigits 10 n).head? ≠ some '0' := by
  induction n using Nat.strongRecOn with
  | ind n ih =>
    by_cases hlt : n < 10
    · rw [Nat.toDigits_of_lt_base hlt]
      intro hhead
      have hzero : ∀ k < 10, 0 < k → Nat.digitChar k ≠ '0' := by decide
      exact hzero n hlt hn (Option.some.inj hhead)
    · rw [Nat.toDigits_of_base_le (by decide) (by omega),
        List.head?_append_of_ne_nil _ Nat.toDigits_ne_nil]
      exact ih (n / 10) (by omega) (by omega)

/-- Digits that start above nought spell a number above nought. -/
theorem ofDigitChars_pos (hdigits : ∀ c ∈ digits, c.isDigit = true) (hne : digits ≠ [])
    (hzero : digits.head? ≠ some '0') : 0 < Nat.ofDigitChars 10 digits 0 := by
  cases digits with
  | nil => exact absurd rfl hne
  | cons c rest =>
    obtain ⟨-, hc⟩ := digitChar_of_isDigit (hdigits c List.mem_cons_self)
    have hpos : 0 < c.toNat - '0'.toNat := by
      rw [Nat.pos_iff_ne_zero]
      intro heq
      rw [heq] at hc
      exact hzero (congrArg some hc.symm)
    rw [Nat.ofDigitChars_cons, Nat.ofDigitChars_eq_ofDigitChars_zero]
    have hpow : 0 < 10 ^ rest.length := Nat.pow_pos (by decide)
    have hterm := Nat.mul_pos hpow (show 0 < 10 * 0 + (c.toNat - '0'.toNat) by omega)
    omega

/-- Digits without a leading zero are written back as they were read. -/
theorem toDigits_ofDigitChars (hdigits : ∀ c ∈ digits, c.isDigit = true) (hne : digits ≠ [])
    (hzero : digits.head? ≠ some '0') :
    Nat.toDigits 10 (Nat.ofDigitChars 10 digits 0) = digits := by
  induction digits using List.reverseRecOn with
  | nil => exact absurd rfl hne
  | append_singleton start c ih =>
    obtain ⟨hlt, hc⟩ := digitChar_of_isDigit (hdigits c (by simp))
    rw [Nat.ofDigitChars_append, Nat.ofDigitChars_cons, Nat.ofDigitChars_nil]
    by_cases hstart : start = []
    · subst hstart
      rw [Nat.ofDigitChars_nil, Nat.mul_zero, Nat.zero_add, Nat.toDigits_of_lt_base hlt, hc]
      rfl
    · have hfirst : ∀ c ∈ start, c.isDigit = true := fun c hmem =>
        hdigits c (List.mem_append_left _ hmem)
      have hhead : start.head? ≠ some '0' := by
        rwa [List.head?_append_of_ne_nil _ hstart] at hzero
      rw [← Nat.toDigits_append_toDigits (by decide) (ofDigitChars_pos hfirst hstart hhead) hlt,
        ih hfirst hstart hhead, Nat.toDigits_of_lt_base hlt, hc]

/-- Digits of a number above nought are written back as they were read exactly where they have no
leading zero. -/
theorem toDigits_ofDigitChars_iff (hnumeral : isNumeral digits = true)
    (hpos : 0 < Nat.ofDigitChars 10 digits 0) :
    Nat.toDigits 10 (Nat.ofDigitChars 10 digits 0) = digits ↔ digits.head? ≠ some '0' := by
  obtain ⟨hne, hdigits⟩ := isNumeral_iff.mp hnumeral
  refine ⟨fun heq => ?_, toDigits_ofDigitChars hdigits hne⟩
  rw [← heq]
  exact head?_toDigits_ne hpos

/-- A number's digits, with leading zeros up to a width. -/
def padded (width n : ℕ) : Text := (Nat.toDigits 10 n).leftpad width '0'

theorem length_padded {width : ℕ} (hwidth : 0 < width) (h : n < 10 ^ width) :
    (padded width n).length = width := by
  have hlength := (Nat.length_toDigits_le_iff (by decide) hwidth).mpr h
  rw [padded, List.length_leftpad]
  exact Nat.max_eq_left hlength

theorem isDigit_of_mem_padded {width : ℕ} (hc : c ∈ padded width n) : c.isDigit = true := by
  rw [padded, List.leftpad] at hc
  rcases List.mem_append.mp hc with hzero | hdigit
  · rw [List.eq_of_mem_replicate hzero]
    rfl
  · exact Nat.isDigit_of_mem_toDigits (by decide) (by decide) hdigit

theorem ofDigitChars_padded (width n : ℕ) : Nat.ofDigitChars 10 (padded width n) 0 = n := by
  rw [padded, List.leftpad, Nat.ofDigitChars_append, Nat.ofDigitChars_replicate_zero,
    Nat.mul_zero, Nat.ofDigitChars_ten_toDigits]

/-- Digits spell a number of their width. -/
theorem ofDigitChars_lt (hdigits : ∀ c ∈ digits, c.isDigit = true) :
    Nat.ofDigitChars 10 digits 0 < 10 ^ digits.length := by
  induction digits with
  | nil => simp
  | cons c rest ih =>
    obtain ⟨hlt, -⟩ := digitChar_of_isDigit (hdigits c List.mem_cons_self)
    have hrest := ih fun c hc => hdigits c (List.mem_cons_of_mem _ hc)
    rw [Nat.ofDigitChars_cons, Nat.ofDigitChars_eq_ofDigitChars_zero, List.length_cons,
      Nat.pow_succ]
    have hterm := Nat.mul_le_mul_left (10 ^ rest.length)
      (show 10 * 0 + (c.toNat - '0'.toNat) ≤ 9 by omega)
    omega

/-- Of two numerals of one width, the one that starts on the lesser digit spells the less. -/
theorem ofDigitChars_lt_of_head_lt {d : Char} {first second : Text}
    (hlength : first.length = second.length) (hfirst : ∀ c ∈ first, c.isDigit = true)
    (hc : c.isDigit = true) (h : c.toNat < d.toNat) :
    Nat.ofDigitChars 10 (c :: first) 0 < Nat.ofDigitChars 10 (d :: second) 0 := by
  rw [Nat.ofDigitChars_cons, Nat.ofDigitChars_eq_ofDigitChars_zero, Nat.ofDigitChars_cons,
    Nat.ofDigitChars_eq_ofDigitChars_zero (l := second), ← hlength]
  have hlow := ofDigitChars_lt hfirst
  have hdigit : 48 ≤ c.toNat := (Char.isDigit_iff_toNat.mp hc).1
  have hterm := Nat.mul_le_mul_left (10 ^ first.length)
    (show 10 * 0 + (c.toNat - '0'.toNat) + 1 ≤ 10 * 0 + (d.toNat - '0'.toNat) by
      change 10 * 0 + (c.toNat - 48) + 1 ≤ 10 * 0 + (d.toNat - 48)
      omega)
  rw [Nat.mul_succ] at hterm
  omega

/-- Digits of one width are in the order of the numbers they spell, whatever follows them. -/
theorem append_lt_of_ofDigitChars_lt {first second : Text} (tail : Text)
    (hlength : first.length = second.length) (hfirst : ∀ c ∈ first, c.isDigit = true)
    (hsecond : ∀ c ∈ second, c.isDigit = true)
    (h : Nat.ofDigitChars 10 first 0 < Nat.ofDigitChars 10 second 0) :
    first ++ tail < second ++ tail := by
  induction first generalizing second with
  | nil =>
    obtain rfl := List.eq_nil_of_length_eq_zero hlength.symm
    exact absurd h (lt_irrefl _)
  | cons c first ih =>
    cases second with
    | nil => cases hlength
    | cons d second =>
      have hsame : first.length = second.length := by simpa using hlength
      rw [List.forall_mem_cons] at hfirst hsecond
      rcases Nat.lt_trichotomy c.toNat d.toNat with hlt | heq | hgt
      · exact List.Lex.rel hlt
      · obtain rfl : c = d := Char.toNat_inj.mp heq
        rw [Nat.ofDigitChars_cons, Nat.ofDigitChars_eq_ofDigitChars_zero,
          Nat.ofDigitChars_cons, Nat.ofDigitChars_eq_ofDigitChars_zero (l := second),
          hsame] at h
        exact List.Lex.cons (ih hsame hfirst.2 hsecond.2 (by omega))
      · exact absurd (h.trans
          (ofDigitChars_lt_of_head_lt hsame.symm hsecond.2 hsecond.1 hgt)) (lt_irrefl _)

/-- Digits of one width that spell one number are the same. -/
theorem eq_of_ofDigitChars_eq {first second : Text} (hlength : first.length = second.length)
    (hfirst : ∀ c ∈ first, c.isDigit = true) (hsecond : ∀ c ∈ second, c.isDigit = true)
    (h : Nat.ofDigitChars 10 first 0 = Nat.ofDigitChars 10 second 0) : first = second := by
  induction first generalizing second with
  | nil => exact (List.eq_nil_of_length_eq_zero hlength.symm).symm
  | cons c first ih =>
    cases second with
    | nil => cases hlength
    | cons d second =>
      have hsame : first.length = second.length := by simpa using hlength
      rw [List.forall_mem_cons] at hfirst hsecond
      rcases Nat.lt_trichotomy c.toNat d.toNat with hlt | heq | hgt
      · exact absurd h (ofDigitChars_lt_of_head_lt hsame hfirst.2 hfirst.1 hlt).ne
      · obtain rfl : c = d := Char.toNat_inj.mp heq
        rw [Nat.ofDigitChars_cons, Nat.ofDigitChars_eq_ofDigitChars_zero,
          Nat.ofDigitChars_cons, Nat.ofDigitChars_eq_ofDigitChars_zero (l := second),
          hsame] at h
        rw [ih hsame hfirst.2 hsecond.2 (by omega)]
      · exact absurd h.symm
          (ofDigitChars_lt_of_head_lt hsame.symm hsecond.2 hsecond.1 hgt).ne

/-- Digits of one width are written back as they were read. -/
theorem padded_ofDigitChars (hdigits : ∀ c ∈ digits, c.isDigit = true) (hne : digits ≠ []) :
    padded digits.length (Nat.ofDigitChars 10 digits 0) = digits :=
  eq_of_ofDigitChars_eq (length_padded (List.length_pos_iff.mpr hne) (ofDigitChars_lt hdigits))
    (fun _ hc => isDigit_of_mem_padded hc) hdigits (ofDigitChars_padded _ _)

theorem toDigits_injective {b : ℕ} (hb : 1 < b) (hb' : b ≤ 16) :
    Function.Injective (Nat.toDigits b) := by
  have hdigit : ∀ m n : Fin 16, Nat.digitChar m = Nat.digitChar n → m = n := by decide
  have hchar : ∀ {m n : ℕ}, m < b → n < b → Nat.digitChar m = Nat.digitChar n → m = n :=
    fun hm hn h => Fin.mk.inj (hdigit ⟨_, hm.trans_le hb'⟩ ⟨_, hn.trans_le hb'⟩ h)
  have hlast : ∀ {n : ℕ}, n % b < b := fun {n} => Nat.mod_lt n (by omega)
  intro m
  induction m using Nat.strong_induction_on with
  | h m ih =>
    intro n heq
    rcases Nat.lt_or_ge m b with hm | hm <;> rcases Nat.lt_or_ge n b with hn | hn
    · rw [Nat.toDigits_of_lt_base hm, Nat.toDigits_of_lt_base hn] at heq
      exact hchar hm hn (List.cons.inj heq).1
    -- a number below the base has one digit, and any other has more
    · rw [Nat.toDigits_of_lt_base hm, Nat.toDigits_of_base_le hb hn] at heq
      change [] ++ _ = _ ++ _ at heq
      exact absurd (List.append_inj_left' heq rfl).symm Nat.toDigits_ne_nil
    · rw [Nat.toDigits_of_base_le hb hm, Nat.toDigits_of_lt_base hn] at heq
      change _ ++ _ = [] ++ _ at heq
      exact absurd (List.append_inj_left' heq rfl) Nat.toDigits_ne_nil
    · rw [Nat.toDigits_of_base_le hb hm, Nat.toDigits_of_base_le hb hn] at heq
      obtain ⟨hrest, hdigits⟩ := List.append_inj' heq rfl
      have hquotient := ih (m / b) (Nat.div_lt_self (by omega) hb) hrest
      have hremainder := hchar hlast hlast (List.cons.inj hdigits).1
      rw [← Nat.div_add_mod m b, hquotient, hremainder, Nat.div_add_mod n b]

end Foundations
