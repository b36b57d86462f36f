import Onevcs.Foundations.Scanning

/-!
# UTF-8

Reading UTF-8 from the start of any bytes: a character, a sequence that is ill-formed, with the
length of what of it was well-formed, or a sequence that the bytes end in.
-/

namespace Foundations

/-- What stands at the start of bytes. -/
inductive Utf8Read
  | char (c : Char) (width : ℕ)
  /-- ill-formed after so many bytes -/
  | invalid (length : ℕ)
  /-- the bytes end within a character -/
  | truncated
  deriving DecidableEq

/-- A byte that continues a character. -/
def isTail (b : UInt8) : Bool := 0x80 ≤ b.toNat && b.toNat ≤ 0xBF

/-- The bytes that may come second in a character of three or four. -/
def isSecond (a b : UInt8) : Bool :=
  if a.toNat = 0xE0 then 0xA0 ≤ b.toNat && b.toNat ≤ 0xBF
  else if a.toNat = 0xED then 0x80 ≤ b.toNat && b.toNat ≤ 0x9F
  else if a.toNat = 0xF0 then 0x90 ≤ b.toNat && b.toNat ≤ 0xBF
  else if a.toNat = 0xF4 then 0x80 ≤ b.toNat && b.toNat ≤ 0x8F
  else isTail b

def charOf (v : ℕ) : Char := Char.ofNat v

/-- What stands at the start of the bytes. -/
def readUtf8 : List UInt8 → Utf8Read
  | [] => .truncated
  | a :: rest =>
    if a.toNat < 0x80 then .char (charOf a.toNat) 1
    else if 0xC2 ≤ a.toNat ∧ a.toNat ≤ 0xDF then
      match rest with
      | [] => .truncated
      | b :: _ =>
        if !isTail b then .invalid 1
        else .char (charOf ((a.toNat - 0xC0) * 0x40 + (b.toNat - 0x80))) 2
    else if 0xE0 ≤ a.toNat ∧ a.toNat ≤ 0xEF then
      match rest with
      | [] => .truncated
      | [b] => if !isSecond a b then .invalid 1 else .truncated
      | b :: c :: _ =>
        if !isSecond a b then .invalid 1
        else if !isTail c then .invalid 2
        else .char (charOf ((a.toNat - 0xE0) * 0x1000 + (b.toNat - 0x80) * 0x40 +
          (c.toNat - 0x80))) 3
    else if 0xF0 ≤ a.toNat ∧ a.toNat ≤ 0xF4 then
      match rest with
      | [] => .truncated
      | [b] => if !isSecond a b then .invalid 1 else .truncated
      | [b, c] =>
        if !isSecond a b then .invalid 1 else if !isTail c then .invalid 2 else .truncated
      | b :: c :: d :: _ =>
        if !isSecond a b then .invalid 1
        else if !isTail c then .invalid 2
        else if !isTail d then .invalid 3
        else .char (charOf ((a.toNat - 0xF0) * 0x40000 + (b.toNat - 0x80) * 0x1000 +
          (c.toNat - 0x80) * 0x40 + (d.toNat - 0x80))) 4
    else .invalid 1

/-- UTF-8. What is ill-formed or cut short is stepped over. -/
def utf8 : Code UInt8 Char where
  stride := 1
  encode := String.utf8EncodeChar
  next bytes :=
    match readUtf8 bytes with
    | .char c width => (some c, width)
    | .invalid length => (none, length)
    | .truncated => (none, bytes.length)

/-! ## Writing and reading a character -/

theorem toNat_charOf {v : ℕ} (hv : v < 0xD800 ∨ 0xDFFF < v ∧ v < 0x110000) : (charOf v).toNat = v := by
  rw [charOf, Char.ofNat, dif_pos hv]
  rfl

theorem valid_toNat (c : Char) : c.toNat < 0xD800 ∨ 0xDFFF < c.toNat ∧ c.toNat < 0x110000 := c.valid

theorem toNat_ofNat_of_lt {n : ℕ} (hn : n < 256) : (UInt8.ofNat n).toNat = n := by
  rw [UInt8.toNat_ofNat', Nat.mod_eq_of_lt hn]

theorem ofNat_eq {n : ℕ} {b : UInt8} (h : n = b.toNat) : UInt8.ofNat n = b := by
  rw [h, UInt8.ofNat_toNat]

section Encode

variable {c : Char}

theorem utf8_encode (c : Char) : utf8.encode c = String.utf8EncodeChar c := rfl

theorem encode_one (h : c.toNat < 0x80) : utf8.encode c = [.ofNat c.toNat] := by
  rw [utf8_encode, String.utf8EncodeChar]
  simp only [Char.toNat_val]
  rw [if_pos (by omega)]

theorem encode_two (h : 0x80 ≤ c.toNat ∧ c.toNat < 0x800) :
    utf8.encode c = [.ofNat (c.toNat / 0x40 + 0xC0), .ofNat (c.toNat % 0x40 + 0x80)] := by
  rw [utf8_encode, String.utf8EncodeChar]
  simp only [Char.toNat_val]
  rw [if_neg (by omega), if_pos (by omega), Nat.mod_eq_of_lt (by omega : c.toNat / 64 < 32)]

theorem encode_three (h : 0x800 ≤ c.toNat ∧ c.toNat < 0x10000) :
    utf8.encode c = [.ofNat (c.toNat / 0x1000 + 0xE0), .ofNat (c.toNat / 0x40 % 0x40 + 0x80),
      .ofNat (c.toNat % 0x40 + 0x80)] := by
  rw [utf8_encode, String.utf8EncodeChar]
  simp only [Char.toNat_val]
  rw [if_neg (by omega), if_neg (by omega), if_pos (by omega),
    Nat.mod_eq_of_lt (by omega : c.toNat / 4096 < 16)]

theorem encode_four (h : 0x10000 ≤ c.toNat) :
    utf8.encode c = [.ofNat (c.toNat / 0x40000 + 0xF0), .ofNat (c.toNat / 0x1000 % 0x40 + 0x80),
      .ofNat (c.toNat / 0x40 % 0x40 + 0x80), .ofNat (c.toNat % 0x40 + 0x80)] := by
  have hvalid := valid_toNat c
  rw [utf8_encode, String.utf8EncodeChar]
  simp only [Char.toNat_val]
  rw [if_neg (by omega), if_neg (by omega), if_neg (by omega),
    Nat.mod_eq_of_lt (by omega : c.toNat / 262144 < 8)]

end Encode

section Read

variable {a b c d : UInt8} {rest : List UInt8}

theorem isTail_iff : isTail b = true ↔ 0x80 ≤ b.toNat ∧ b.toNat ≤ 0xBF := by
  simp [isTail]

theorem isTail_of_isSecond (h : isSecond a b = true) : isTail b = true := by
  rw [isTail_iff]
  simp only [isSecond, isTail] at h
  split at h
  · simp at h
    omega
  split at h
  · simp at h
    omega
  split at h
  · simp at h
    omega
  split at h
  · simp at h
    omega
  · simpa using h

/-- What a second byte says of the value, where it comes second. -/
theorem isSecond_iff : isSecond a b = true ↔ (0x80 ≤ b.toNat ∧ b.toNat ≤ 0xBF) ∧
    (a.toNat = 0xE0 → 0xA0 ≤ b.toNat) ∧ (a.toNat = 0xED → b.toNat ≤ 0x9F) ∧
    (a.toNat = 0xF0 → 0x90 ≤ b.toNat) ∧ (a.toNat = 0xF4 → b.toNat ≤ 0x8F) := by
  simp only [isSecond, isTail]
  split_ifs <;> simp <;> omega

theorem read_one (ha : a.toNat < 0x80) : readUtf8 (a :: rest) = .char (charOf a.toNat) 1 := by
  simp only [readUtf8, if_pos ha]

theorem read_two (ha : 0xC2 ≤ a.toNat ∧ a.toNat ≤ 0xDF) (hb : isTail b = true) :
    readUtf8 (a :: b :: rest) =
      .char (charOf ((a.toNat - 0xC0) * 0x40 + (b.toNat - 0x80))) 2 := by
  simp only [readUtf8]
  rw [if_neg (by omega), if_pos ha, hb]
  rfl

theorem read_three (ha : 0xE0 ≤ a.toNat ∧ a.toNat ≤ 0xEF) (hb : isSecond a b = true)
    (hc : isTail c = true) :
    readUtf8 (a :: b :: c :: rest) = .char (charOf ((a.toNat - 0xE0) * 0x1000 +
      (b.toNat - 0x80) * 0x40 + (c.toNat - 0x80))) 3 := by
  simp only [readUtf8]
  rw [if_neg (by omega), if_neg (by omega), if_pos ha, hb, hc]
  rfl

theorem read_four (ha : 0xF0 ≤ a.toNat ∧ a.toNat ≤ 0xF4) (hb : isSecond a b = true)
    (hc : isTail c = true) (hd : isTail d = true) :
    readUtf8 (a :: b :: c :: d :: rest) = .char (charOf ((a.toNat - 0xF0) * 0x40000 +
      (b.toNat - 0x80) * 0x1000 + (c.toNat - 0x80) * 0x40 + (d.toNat - 0x80))) 4 := by
  simp only [readUtf8]
  rw [if_neg (by omega), if_neg (by omega), if_neg (by omega), if_pos ha, hb, hc, hd]
  rfl

/-- What is read as a character was written as one. -/
theorem encode_of_read {bytes : List UInt8} {v : Char} {width : ℕ}
    (h : readUtf8 bytes = .char v width) :
    ∃ rest, bytes = utf8.encode v ++ rest ∧ width = (utf8.encode v).length := by
  revert h
  fun_cases readUtf8 bytes <;> intro h <;> simp only [Utf8Read.char.injEq, reduceCtorEq] at h
  all_goals obtain ⟨rfl, rfl⟩ := h
  case case2 a rest ha =>
    have hv := toNat_charOf (v := a.toNat) (by omega)
    have hencode : utf8.encode (charOf a.toNat) = [a] := by
      rw [encode_one (by omega), ofNat_eq hv]
    exact ⟨rest, by rw [hencode]; rfl, by rw [hencode]; rfl⟩
  case case5 a _ ha b rest hb =>
    obtain ⟨hb, hb'⟩ := isTail_iff.mp (by simpa using hb)
    have hv := toNat_charOf (v := (a.toNat - 0xC0) * 0x40 + (b.toNat - 0x80)) (by omega)
    have hencode : utf8.encode (charOf ((a.toNat - 0xC0) * 0x40 + (b.toNat - 0x80))) = [a, b] := by
      rw [encode_two (by omega), hv, ofNat_eq (b := a) (by omega), ofNat_eq (b := b) (by omega)]
    exact ⟨rest, by rw [hencode]; rfl, by rw [hencode]; rfl⟩
  case case11 a _ _ ha b c rest hb hc =>
    obtain ⟨⟨hb, hb'⟩, hsecond⟩ := isSecond_iff.mp (by simpa using hb)
    obtain ⟨hc, hc'⟩ := isTail_iff.mp (by simpa using hc)
    have hv := toNat_charOf (v := (a.toNat - 0xE0) * 0x1000 + (b.toNat - 0x80) * 0x40 +
      (c.toNat - 0x80)) (by omega)
    have hencode : utf8.encode (charOf ((a.toNat - 0xE0) * 0x1000 + (b.toNat - 0x80) * 0x40 +
        (c.toNat - 0x80))) = [a, b, c] := by
      rw [encode_three (by omega), hv, ofNat_eq (b := a) (by omega), ofNat_eq (b := b) (by omega),
        ofNat_eq (b := c) (by omega)]
    exact ⟨rest, by rw [hencode]; rfl, by rw [hencode]; rfl⟩
  case case21 a _ _ _ ha b c d rest hb hc hd =>
    obtain ⟨⟨hb, hb'⟩, hsecond⟩ := isSecond_iff.mp (by simpa using hb)
    obtain ⟨hc, hc'⟩ := isTail_iff.mp (by simpa using hc)
    obtain ⟨hd, hd'⟩ := isTail_iff.mp (by simpa using hd)
    have hv := toNat_charOf (v := (a.toNat - 0xF0) * 0x40000 + (b.toNat - 0x80) * 0x1000 +
      (c.toNat - 0x80) * 0x40 + (d.toNat - 0x80)) (by omega)
    have hencode : utf8.encode (charOf ((a.toNat - 0xF0) * 0x40000 + (b.toNat - 0x80) * 0x1000 +
        (c.toNat - 0x80) * 0x40 + (d.toNat - 0x80))) = [a, b, c, d] := by
      rw [encode_four (by omega), hv, ofNat_eq (b := a) (by omega), ofNat_eq (b := b) (by omega),
        ofNat_eq (b := c) (by omega), ofNat_eq (b := d) (by omega)]
    exact ⟨rest, by rw [hencode]; rfl, by rw [hencode]; rfl⟩

/-- What is written as a character is read as one. -/
theorem read_encode (c : Char) (rest : List UInt8) :
    readUtf8 (utf8.encode c ++ rest) = .char c (utf8.encode c).length := by
  have hvalid := valid_toNat c
  have hchar : ∀ {n : ℕ}, n = c.toNat → charOf n = c := by
    intro n hn
    rw [charOf, hn, Char.ofNat_toNat]
  by_cases hone : c.toNat < 0x80
  · rw [encode_one hone, List.cons_append, List.nil_append,
      read_one (by rw [toNat_ofNat_of_lt (by omega)]; omega), toNat_ofNat_of_lt (by omega),
      hchar rfl]
    rfl
  by_cases htwo : c.toNat < 0x800
  · have ha := toNat_ofNat_of_lt (n := c.toNat / 0x40 + 0xC0) (by omega)
    have hb := toNat_ofNat_of_lt (n := c.toNat % 0x40 + 0x80) (by omega)
    rw [encode_two (by omega), List.cons_append, List.cons_append, List.nil_append,
      read_two (by omega) (isTail_iff.mpr (by omega)), hchar (by omega)]
    rfl
  by_cases hthree : c.toNat < 0x10000
  · have ha := toNat_ofNat_of_lt (n := c.toNat / 0x1000 + 0xE0) (by omega)
    have hb := toNat_ofNat_of_lt (n := c.toNat / 0x40 % 0x40 + 0x80) (by omega)
    have hc := toNat_ofNat_of_lt (n := c.toNat % 0x40 + 0x80) (by omega)
    rw [encode_three (by omega), List.cons_append, List.cons_append, List.cons_append,
      List.nil_append, read_three (by omega) (isSecond_iff.mpr (by omega))
        (isTail_iff.mpr (by omega)), hchar (by omega)]
    rfl
  · have ha := toNat_ofNat_of_lt (n := c.toNat / 0x40000 + 0xF0) (by omega)
    have hb := toNat_ofNat_of_lt (n := c.toNat / 0x1000 % 0x40 + 0x80) (by omega)
    have hc := toNat_ofNat_of_lt (n := c.toNat / 0x40 % 0x40 + 0x80) (by omega)
    have hd := toNat_ofNat_of_lt (n := c.toNat % 0x40 + 0x80) (by omega)
    rw [encode_four (by omega), List.cons_append, List.cons_append, List.cons_append,
      List.cons_append, List.nil_append, read_four (by omega) (isSecond_iff.mpr (by omega))
        (isTail_iff.mpr (by omega)) (isTail_iff.mpr (by omega)), hchar (by omega)]
    rfl

/-- What is read takes a byte at least, no more than there are, and goes on with tails. -/
theorem read_takes {bytes : List UInt8} (hbytes : bytes ≠ []) :
    0 < (utf8.next bytes).2 ∧ (utf8.next bytes).2 ≤ bytes.length ∧
      ∀ b ∈ (bytes.take (utf8.next bytes).2).drop 1, isTail b = true := by
  have hnext : utf8.next bytes = match readUtf8 bytes with
    | .char c width => (some c, width)
    | .invalid length => (none, length)
    | .truncated => (none, bytes.length) := rfl
  rw [hnext]
  clear hnext
  fun_cases readUtf8 bytes <;> simp_all
  -- a second byte is a tail, whatever comes first
  all_goals exact isTail_of_isSecond ‹isSecond _ _ = true›

/-- A character does not start with a tail. -/
theorem encode_head (c : Char) : ∃ a more, utf8.encode c = a :: more ∧ isTail a = false := by
  have hvalid := valid_toNat c
  have htail : ∀ {n : ℕ}, n < 256 → (n < 0x80 ∨ 0xBF < n) → isTail (UInt8.ofNat n) = false := by
    intro n hn hrange
    have hvalue := toNat_ofNat_of_lt hn
    by_contra h
    have := isTail_iff.mp (by simpa using h)
    omega
  by_cases hone : c.toNat < 0x80
  · exact ⟨_, _, encode_one hone, htail (by omega) (by omega)⟩
  by_cases htwo : c.toNat < 0x800
  · exact ⟨_, _, encode_two (by omega), htail (by omega) (by omega)⟩
  by_cases hthree : c.toNat < 0x10000
  · exact ⟨_, _, encode_three (by omega), htail (by omega) (by omega)⟩
  · exact ⟨_, _, encode_four (by omega), htail (by omega) (by omega)⟩

theorem next_eq_some {bytes : List UInt8} {c : Char} {width : ℕ}
    (h : utf8.next bytes = (some c, width)) : readUtf8 bytes = .char c width := by
  cases hread : readUtf8 bytes with
  | char d more =>
    rw [utf8] at h
    simp only [hread, Prod.mk.injEq, Option.some.injEq] at h
    rw [h.1, h.2]
  | invalid length => simp [utf8, hread] at h
  | truncated => simp [utf8, hread] at h

/-- UTF-8 reads back what it writes, and is synchronised: what is read goes on with tails, and no
character starts with one. -/
theorem utf8_lawful : utf8.Lawful where
  stride_pos := Nat.one_pos
  stride_le c := by
    obtain ⟨a, more, hencode, -⟩ := encode_head c
    rw [hencode]
    exact Nat.le_add_left 1 _
  width_pos hlength := (read_takes (List.length_pos_iff.mp hlength)).1
  width_le hlength := (read_takes (List.length_pos_iff.mp hlength)).2.1
  width_dvd _ := Nat.one_dvd _
  next_encode c rest := by
    have hread := read_encode c rest
    simp only [utf8] at hread ⊢
    rw [hread]
  of_next _ hnext := encode_of_read (next_eq_some hnext)
  synchronised := by
    intro before c rest hbefore _
    obtain ⟨a, more, hencode, htail⟩ := encode_head c
    by_contra hwidth
    rw [Nat.not_le] at hwidth
    have hne : before ++ (utf8.encode c ++ rest) ≠ [] := by simp [hbefore]
    have htails := (read_takes hne).2.2
    have hpos : 0 < before.length := List.length_pos_iff.mpr hbefore
    have hplace : (before ++ (utf8.encode c ++ rest))[before.length]? = some a := by
      rw [List.getElem?_append_right (Nat.le_refl _), Nat.sub_self, hencode]
      rfl
    have hmem : a ∈ ((before ++ (utf8.encode c ++ rest)).take
        (utf8.next (before ++ (utf8.encode c ++ rest))).2).drop 1 := by
      refine List.mem_of_getElem? (i := before.length - 1) ?_
      rw [List.getElem?_drop, Nat.add_sub_cancel' hpos, List.getElem?_take, if_pos hwidth, hplace]
    rw [htails a hmem] at htail
    cases htail

end Read

end Foundations
