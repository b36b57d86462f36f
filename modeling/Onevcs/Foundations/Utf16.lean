import Onevcs.Foundations.Utf8

/-!
# UTF-16

Reading UTF-16 of either byte order from the start of any bytes: a character in one unit or in a
pair of surrogates, or a surrogate that stands alone, which is none.
-/

namespace Foundations

/-- The order of the two bytes of a unit. -/
inductive Endian
  | little
  | big

namespace Endian

def unit (endian : Endian) (a b : UInt8) : ℕ :=
  match endian with
  | little => a.toNat + 0x100 * b.toNat
  | big => 0x100 * a.toNat + b.toNat

def bytes (endian : Endian) (u : ℕ) : List UInt8 :=
  match endian with
  | little => [.ofNat (u % 0x100), .ofNat (u / 0x100)]
  | big => [.ofNat (u / 0x100), .ofNat (u % 0x100)]

end Endian

/-- The first unit of a pair. -/
def isHigh (u : ℕ) : Bool := 0xD800 ≤ u && u ≤ 0xDBFF

/-- The second unit of a pair. -/
def isLow (u : ℕ) : Bool := 0xDC00 ≤ u && u ≤ 0xDFFF

/-- The character of a scalar value, where it is one. -/
def charFrom (v : ℕ) : Option Char :=
  if v < 0xD800 ∨ 0xDFFF < v ∧ v < 0x110000 then some (charOf v) else none

def charOfPair (u v : ℕ) : Char := charOf (0x10000 + (u - 0xD800) * 0x400 + (v - 0xDC00))

/-- What stands at the start of the bytes, and the bytes that it takes. -/
def readUtf16 (endian : Endian) : List UInt8 → Option Char × ℕ
  | a :: b :: c :: d :: _ =>
    if isHigh (endian.unit a b) then
      if isLow (endian.unit c d) then
        (some (charOfPair (endian.unit a b) (endian.unit c d)), 4)
      else (none, 2)
    else (charFrom (endian.unit a b), 2)
  | a :: b :: _ => (charFrom (endian.unit a b), 2)
  | _ => (none, 2)

/-- The bytes of a character. -/
def writeUtf16 (endian : Endian) (c : Char) : List UInt8 :=
  if c.toNat < 0x10000 then endian.bytes c.toNat
  else
    endian.bytes (0xD800 + (c.toNat - 0x10000) / 0x400) ++
      endian.bytes (0xDC00 + (c.toNat - 0x10000) % 0x400)

def utf16 (endian : Endian) : Code UInt8 Char where
  stride := 2
  encode := writeUtf16 endian
  next := readUtf16 endian

section

variable {endian : Endian} {a b : UInt8} {u : ℕ}

theorem Endian.unit_lt : endian.unit a b < 0x10000 := by
  have ha := a.toNat_lt
  have hb := b.toNat_lt
  cases endian <;> simp only [Endian.unit] <;> omega

theorem Endian.bytes_unit : endian.bytes (endian.unit a b) = [a, b] := by
  have ha := a.toNat_lt
  have hb := b.toNat_lt
  cases endian with
  | little =>
    simp only [Endian.unit, Endian.bytes]
    rw [ofNat_eq (b := a) (by omega), ofNat_eq (b := b) (by omega)]
  | big =>
    simp only [Endian.unit, Endian.bytes]
    rw [ofNat_eq (b := a) (by omega), ofNat_eq (b := b) (by omega)]

/-- A unit is written in two bytes, which are the unit. -/
theorem Endian.bytes_eq (endian : Endian) (hu : u < 0x10000) :
    ∃ a b, endian.bytes u = [a, b] ∧ endian.unit a b = u := by
  have hlow := toNat_ofNat_of_lt (n := u % 0x100) (by omega)
  have hhigh := toNat_ofNat_of_lt (n := u / 0x100) (by omega)
  cases endian with
  | little => exact ⟨_, _, rfl, by simp only [Endian.unit]; omega⟩
  | big => exact ⟨_, _, rfl, by simp only [Endian.unit]; omega⟩

theorem isHigh_iff : isHigh u = true ↔ 0xD800 ≤ u ∧ u ≤ 0xDBFF := by
  simp [isHigh]

theorem isLow_iff : isLow u = true ↔ 0xDC00 ≤ u ∧ u ≤ 0xDFFF := by
  simp [isLow]

theorem charFrom_eq_some {c : Char} : charFrom u = some c ↔ c.toNat = u := by
  have hvalid := valid_toNat c
  rw [charFrom, Option.ite_none_right_eq_some, Option.some.injEq]
  constructor
  · rintro ⟨hu, rfl⟩
    exact toNat_charOf hu
  · rintro rfl
    exact ⟨hvalid, by rw [charOf, Char.ofNat_toNat]⟩

/-- The bytes of a character are one unit that is no surrogate, or a pair. -/
theorem write_cases (endian : Endian) (c : Char) :
    (∃ a b, writeUtf16 endian c = [a, b] ∧ endian.unit a b = c.toNat) ∨
    ∃ a b d e, writeUtf16 endian c = [a, b, d, e] ∧ isHigh (endian.unit a b) = true ∧
      isLow (endian.unit d e) = true ∧ charOfPair (endian.unit a b) (endian.unit d e) = c := by
  have hvalid := valid_toNat c
  rw [writeUtf16]
  split
  case isTrue hone =>
    obtain ⟨a, b, hbytes, hunit⟩ := endian.bytes_eq hone
    exact .inl ⟨a, b, hbytes, hunit⟩
  case isFalse htwo =>
    obtain ⟨a, b, hbytes, hunit⟩ :=
      endian.bytes_eq (u := 0xD800 + (c.toNat - 0x10000) / 0x400) (by omega)
    obtain ⟨d, e, hbytes', hunit'⟩ :=
      endian.bytes_eq (u := 0xDC00 + (c.toNat - 0x10000) % 0x400) (by omega)
    refine .inr ⟨a, b, d, e, by rw [hbytes, hbytes']; rfl, isHigh_iff.mpr (by omega),
      isLow_iff.mpr (by omega), ?_⟩
    have hvalue : 0x10000 + (endian.unit a b - 0xD800) * 0x400 + (endian.unit d e - 0xDC00) =
        c.toNat := by omega
    rw [charOfPair, hvalue, charOf, Char.ofNat_toNat]

/-- A character does not start with the second unit of a pair. -/
theorem write_head (endian : Endian) (c : Char) :
    ∃ a b more, writeUtf16 endian c = a :: b :: more ∧ isLow (endian.unit a b) = false := by
  have hvalid := valid_toNat c
  obtain ⟨a, b, hwrite, hunit⟩ | ⟨a, b, d, e, hwrite, hhigh, -⟩ := write_cases endian c
  · refine ⟨a, b, [], hwrite, ?_⟩
    by_contra hlow
    have := isLow_iff.mp (by simpa using hlow)
    omega
  · refine ⟨a, b, [d, e], hwrite, ?_⟩
    have := isHigh_iff.mp hhigh
    by_contra hlow
    have := isLow_iff.mp (by simpa using hlow)
    omega

/-- What is read where no pair stands. -/
theorem read_single {rest : List UInt8} (h : isHigh (endian.unit a b) = false) :
    readUtf16 endian (a :: b :: rest) = (charFrom (endian.unit a b), 2) := by
  obtain _ | ⟨d, _ | ⟨e, rest⟩⟩ := rest
  · rfl
  · rfl
  · simp [readUtf16, h]

theorem read_pair {d e : UInt8} {rest : List UInt8} (hhigh : isHigh (endian.unit a b) = true)
    (hlow : isLow (endian.unit d e) = true) :
    readUtf16 endian (a :: b :: d :: e :: rest) =
      (some (charOfPair (endian.unit a b) (endian.unit d e)), 4) := by
  simp [readUtf16, hhigh, hlow]

/-- A pair is written as it was read. -/
theorem write_pair {v : ℕ} (hhigh : isHigh u = true) (hlow : isLow v = true) :
    writeUtf16 endian (charOfPair u v) = endian.bytes u ++ endian.bytes v := by
  rw [isHigh_iff] at hhigh
  rw [isLow_iff] at hlow
  have hvalue := toNat_charOf (v := 0x10000 + (u - 0xD800) * 0x400 + (v - 0xDC00)) (by omega)
  have hfirst : 0xD800 + (0x10000 + (u - 0xD800) * 0x400 + (v - 0xDC00) - 0x10000) / 0x400 = u := by
    omega
  have hsecond : 0xDC00 + (0x10000 + (u - 0xD800) * 0x400 + (v - 0xDC00) - 0x10000) % 0x400 = v := by
    omega
  rw [writeUtf16, charOfPair, hvalue, if_neg (by omega), hfirst, hsecond]

/-- What is read takes two bytes, or the four of a pair. -/
theorem read_width (endian : Endian) {bytes : List UInt8} (hlength : 2 ≤ bytes.length) :
    (readUtf16 endian bytes).2 = 2 ∨ (readUtf16 endian bytes).2 = 4 ∧ ∃ a b d e rest,
      bytes = a :: b :: d :: e :: rest ∧ isLow (endian.unit d e) = true := by
  fun_cases readUtf16 endian bytes <;> simp_all

end

/-- What is read as a character was written as one. -/
theorem write_of_read {endian : Endian} {bytes : List UInt8} {c : Char} {width : ℕ}
    (hlength : 2 ≤ bytes.length) (h : readUtf16 endian bytes = (some c, width)) :
    ∃ rest, bytes = writeUtf16 endian c ++ rest ∧ width = (writeUtf16 endian c).length := by
  have hsingle : ∀ {a b : UInt8} {rest : List UInt8}, bytes = a :: b :: rest →
      charFrom (endian.unit a b) = some c → width = 2 →
      ∃ rest, bytes = writeUtf16 endian c ++ rest ∧ width = (writeUtf16 endian c).length := by
    intro a b rest hbytes hchar hwidth
    have hvalue := charFrom_eq_some.mp hchar
    have hwrite : writeUtf16 endian c = [a, b] := by
      rw [writeUtf16, if_pos (hvalue ▸ endian.unit_lt), hvalue, Endian.bytes_unit]
    exact ⟨rest, by rw [hbytes, hwrite]; rfl, by rw [hwrite, hwidth]; rfl⟩
  revert h
  fun_cases readUtf16 endian bytes <;> intro h <;>
    simp only [Prod.mk.injEq, Option.some.injEq, reduceCtorEq, false_and] at h
  case case1 a b d e rest hhigh hlow =>
    have hwrite : writeUtf16 endian c = [a, b, d, e] := by
      rw [← h.1, write_pair hhigh hlow, Endian.bytes_unit, Endian.bytes_unit]
      rfl
    exact ⟨rest, by rw [hwrite]; rfl, by rw [hwrite, ← h.2]; rfl⟩
  case case3 a b d e rest hhigh => exact hsingle rfl h.1 h.2.symm
  case case4 a b rest hrest => exact hsingle rfl h.1 h.2.symm

/-- UTF-16 reads back what it writes, and is synchronised in steps of two bytes: only the first unit
of a pair is read with what follows it, and no character starts with the second. -/
theorem utf16_lawful (endian : Endian) : (utf16 endian).Lawful where
  stride_pos := Nat.two_pos
  stride_le c := by
    obtain ⟨a, b, more, hwrite, -⟩ := write_head endian c
    simp only [utf16, hwrite]
    exact Nat.le_add_left 2 _
  width_pos hlength := by
    obtain hwidth | ⟨hwidth, -⟩ := read_width endian hlength
    all_goals
      simp only [utf16, hwidth]
      omega
  width_le hlength := by
    obtain hwidth | ⟨hwidth, a, b, d, e, rest, rfl, -⟩ := read_width endian hlength
    · simp only [utf16, hwidth]
      exact hlength
    · simp only [utf16, hwidth, List.length_cons]
      omega
  width_dvd hlength := by
    obtain hwidth | ⟨hwidth, -⟩ := read_width endian hlength
    all_goals
      simp only [utf16, hwidth]
      omega
  next_encode c rest := by
    have hvalid := valid_toNat c
    simp only [utf16]
    obtain ⟨a, b, hwrite, hunit⟩ | ⟨a, b, d, e, hwrite, hhigh, hlow, hpair⟩ := write_cases endian c
    · have hhigh : isHigh (endian.unit a b) = false := by
        by_contra hhigh
        have := isHigh_iff.mp (by simpa using hhigh)
        omega
      rw [hwrite, List.cons_append, List.cons_append, List.nil_append, read_single hhigh,
        charFrom_eq_some.mpr hunit.symm]
      rfl
    · rw [hwrite, List.cons_append, List.cons_append, List.cons_append, List.cons_append,
        List.nil_append, read_pair hhigh hlow, hpair]
      rfl
  of_next hlength hnext := write_of_read hlength hnext
  synchronised := by
    intro before c rest hbefore haligned
    obtain ⟨a, b, more, hwrite, hlow⟩ := write_head endian c
    have hpos : 0 < before.length := List.length_pos_iff.mpr hbefore
    simp only [utf16] at haligned ⊢
    have hlength : 2 ≤ (before ++ (writeUtf16 endian c ++ rest)).length := by
      rw [List.length_append]
      omega
    obtain hwidth | ⟨hwidth, u, v, d, e, others, hbytes, hsecond⟩ :=
      read_width endian hlength
    · omega
    · by_contra hover
      -- two bytes before the character, and the character read as the second unit of a pair
      obtain ⟨first, second, rfl⟩ := List.length_eq_two.mp (by omega : before.length = 2)
      rw [hwrite] at hbytes
      simp only [List.cons_append, List.nil_append, List.cons.injEq] at hbytes
      obtain ⟨-, -, rfl, rfl, -⟩ := hbytes
      rw [hlow] at hsecond
      cases hsecond

end Foundations
