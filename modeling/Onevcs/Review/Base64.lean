import Mathlib.Algebra.Group.Nat.Defs
import Mathlib.Algebra.GroupWithZero.Nat
import Onevcs.Foundations.Lines

/-!
# Base64

`base64::encode` and `base64::decode` of `review/github.rs`: the URL-safe alphabet written
without padding, both alphabets read with or without it. A word of either is a `u32`; shifts
and masks of one are written as arithmetic.
-/

namespace Onevcs.Review.Base64

open Foundations (Text)

abbrev Bytes := List UInt8

/-- `ALPHABET`, at an index below 64. -/
def symbol (value : ℕ) : Char :=
  if value < 26 then .ofNat ('A'.toNat + value)
  else if value < 52 then .ofNat ('a'.toNat + (value - 26))
  else if value < 62 then .ofNat ('0'.toNat + (value - 52))
  else if value = 62 then '-' else '_'

/-- What a symbol of either alphabet stands for. -/
def value (symbol : Char) : Option ℕ :=
  let code := symbol.toNat
  if 'A'.toNat ≤ code ∧ code ≤ 'Z'.toNat then some (code - 'A'.toNat)
  else if 'a'.toNat ≤ code ∧ code ≤ 'z'.toNat then some (code - 'a'.toNat + 26)
  else if '0'.toNat ≤ code ∧ code ≤ '9'.toNat then some (code - '0'.toNat + 52)
  else if symbol = '-' ∨ symbol = '+' then some 62
  else if symbol = '_' ∨ symbol = '/' then some 63
  else none

/-- The symbols of up to three bytes: one more than there are bytes. -/
def encodeChunk (chunk : Bytes) : Text :=
  let word := (chunk.zipIdx.map fun entry => entry.1.toNat * 2 ^ (16 - 8 * entry.2)).sum
  (List.range (chunk.length + 1)).map fun place => symbol (word / 2 ^ (18 - 6 * place) % 64)

def encode : Bytes → Text
  | [] => []
  | [a] => encodeChunk [a]
  | [a, b] => encodeChunk [a, b]
  | a :: b :: c :: rest => encodeChunk [a, b, c] ++ encode rest

/-- Where a decoding stands: the word, how many bits of it are still to be given out, and the
bytes that were. -/
structure Decoding where
  word : ℕ
  bits : ℕ
  out : Bytes
  deriving DecidableEq

def Decoding.read (decoding : Decoding) (symbol : Char) : Option Decoding :=
  (value symbol).map fun value =>
    -- the shift of a `u32` loses what is above it
    let word := (decoding.word * 64 + value) % 2 ^ 32
    let bits := decoding.bits + 6
    if 8 ≤ bits then
      ⟨word, bits - 8, decoding.out ++ [.ofNat (word / 2 ^ (bits - 8) % 256)]⟩
    else ⟨word, bits, decoding.out⟩

def decode (text : Text) : Option Bytes :=
  match (text.rdropWhile (· == '=')).foldlM Decoding.read ⟨0, 0, []⟩ with
  | none => none
  | some decoding => if decoding.bits < 6 then some decoding.out else none

section RoundTrip

variable {decoding : Decoding} {word v : ℕ} {a b c : UInt8}

theorem value_symbol (h : v < 64) : value (symbol v) = some v := by
  have hall : ∀ v : Fin 64, value (symbol v) = some v.val := by decide
  exact hall ⟨v, h⟩

theorem read_symbol (h : v < 64) :
    decoding.read (symbol v) =
      some (let next := (decoding.word * 64 + v) % 2 ^ 32
        if 8 ≤ decoding.bits + 6 then
          ⟨next, decoding.bits + 6 - 8,
            decoding.out ++ [.ofNat (next / 2 ^ (decoding.bits + 6 - 8) % 256)]⟩
        else ⟨next, decoding.bits + 6, decoding.out⟩) := by
  rw [Decoding.read, value_symbol h]
  rfl

theorem encodeChunk_one (a : UInt8) :
    encodeChunk [a] = [symbol (a.toNat / 4 % 64), symbol (a.toNat * 16 % 64)] := by
  have ha := a.toNat_lt
  have hfirst : a.toNat * 65536 / 262144 % 64 = a.toNat / 4 % 64 := by omega
  have hsecond : a.toNat * 65536 / 4096 % 64 = a.toNat * 16 % 64 := by omega
  simp [encodeChunk, List.range_succ, hfirst, hsecond]

theorem encodeChunk_two (a b : UInt8) :
    encodeChunk [a, b] =
      [symbol (a.toNat / 4 % 64), symbol ((a.toNat * 16 + b.toNat / 16) % 64),
        symbol (b.toNat * 4 % 64)] := by
  have ha := a.toNat_lt
  have hb := b.toNat_lt
  have hfirst : (a.toNat * 65536 + b.toNat * 256) / 262144 % 64 = a.toNat / 4 % 64 := by omega
  have hsecond : (a.toNat * 65536 + b.toNat * 256) / 4096 % 64 =
      (a.toNat * 16 + b.toNat / 16) % 64 := by omega
  have hthird : (a.toNat * 65536 + b.toNat * 256) / 64 % 64 = b.toNat * 4 % 64 := by omega
  simp [encodeChunk, List.range_succ, hfirst, hsecond, hthird]

theorem encodeChunk_three (a b c : UInt8) :
    encodeChunk [a, b, c] =
      [symbol (a.toNat / 4 % 64), symbol ((a.toNat * 16 + b.toNat / 16) % 64),
        symbol ((b.toNat * 4 + c.toNat / 64) % 64), symbol (c.toNat % 64)] := by
  have ha := a.toNat_lt
  have hb := b.toNat_lt
  have hc := c.toNat_lt
  have hfirst : (a.toNat * 65536 + (b.toNat * 256 + c.toNat)) / 262144 % 64 =
      a.toNat / 4 % 64 := by omega
  have hsecond : (a.toNat * 65536 + (b.toNat * 256 + c.toNat)) / 4096 % 64 =
      (a.toNat * 16 + b.toNat / 16) % 64 := by omega
  have hthird : (a.toNat * 65536 + (b.toNat * 256 + c.toNat)) / 64 % 64 =
      (b.toNat * 4 + c.toNat / 64) % 64 := by omega
  have hfourth : (a.toNat * 65536 + (b.toNat * 256 + c.toNat)) % 64 = c.toNat % 64 := by omega
  simp [encodeChunk, List.range_succ, hfirst, hsecond, hthird, hfourth]

/-! Each symbol of four leaves as many bits of the word to be given out as the next one needs. -/

theorem byte_eq {n : ℕ} (h : n = a.toNat) : UInt8.ofNat n = a := by rw [h, UInt8.ofNat_toNat]

theorem read_first (word : ℕ) (out : Bytes) (h : v < 64) :
    ∃ next, (Decoding.mk word 0 out).read (symbol v) = some ⟨next, 6, out⟩ ∧ next % 64 = v :=
  ⟨(word * 64 + v) % 2 ^ 32, read_symbol h, by omega⟩

theorem read_second (out : Bytes) (h : v < 64) (hbyte : (word % 64 * 64 + v) / 16 = a.toNat) :
    ∃ next, (Decoding.mk word 6 out).read (symbol v) = some ⟨next, 4, out ++ [a]⟩ ∧
      next % 16 = v % 16 := by
  refine ⟨(word * 64 + v) % 2 ^ 32, ?_, by omega⟩
  have hvalue : (word * 64 + v) % 2 ^ 32 / 2 ^ 4 % 256 = a.toNat := by omega
  have hout : UInt8.ofNat ((word * 64 + v) % 2 ^ 32 / 2 ^ 4 % 256) = a := byte_eq hvalue
  rw [read_symbol h, ← hout]
  rfl

theorem read_third (out : Bytes) (h : v < 64) (hbyte : (word % 16 * 64 + v) / 4 = b.toNat) :
    ∃ next, (Decoding.mk word 4 out).read (symbol v) = some ⟨next, 2, out ++ [b]⟩ ∧
      next % 4 = v % 4 := by
  refine ⟨(word * 64 + v) % 2 ^ 32, ?_, by omega⟩
  have hvalue : (word * 64 + v) % 2 ^ 32 / 2 ^ 2 % 256 = b.toNat := by omega
  have hout : UInt8.ofNat ((word * 64 + v) % 2 ^ 32 / 2 ^ 2 % 256) = b := byte_eq hvalue
  rw [read_symbol h, ← hout]
  rfl

theorem read_fourth (out : Bytes) (h : v < 64) (hbyte : word % 4 * 64 + v = c.toNat) :
    ∃ next, (Decoding.mk word 2 out).read (symbol v) = some ⟨next, 0, out ++ [c]⟩ := by
  refine ⟨(word * 64 + v) % 2 ^ 32, ?_⟩
  have hvalue : (word * 64 + v) % 2 ^ 32 / 2 ^ 0 % 256 = c.toNat := by omega
  have hout : UInt8.ofNat ((word * 64 + v) % 2 ^ 32 / 2 ^ 0 % 256) = c := byte_eq hvalue
  rw [read_symbol h, ← hout]
  rfl

theorem foldlM_encodeChunk_one (word : ℕ) (out : Bytes) (a : UInt8) :
    ∃ next, (encodeChunk [a]).foldlM Decoding.read ⟨word, 0, out⟩ =
      some ⟨next, 4, out ++ [a]⟩ := by
  have ha := a.toNat_lt
  have hsmall : ∀ n, n % 64 < 64 := fun n => Nat.mod_lt n (by decide)
  rw [encodeChunk_one]
  obtain ⟨first, hfirst, hfirstWord⟩ := read_first word out (hsmall (a.toNat / 4))
  obtain ⟨second, hsecond, -⟩ : ∃ next, (Decoding.mk first 6 out).read
      (symbol (a.toNat * 16 % 64)) = some ⟨next, 4, out ++ [a]⟩ ∧ _ :=
    read_second out (hsmall _) (by omega)
  refine ⟨second, ?_⟩
  simp [hfirst, hsecond]

theorem foldlM_encodeChunk_two (word : ℕ) (out : Bytes) (a b : UInt8) :
    ∃ next, (encodeChunk [a, b]).foldlM Decoding.read ⟨word, 0, out⟩ =
      some ⟨next, 2, out ++ [a, b]⟩ := by
  have ha := a.toNat_lt
  have hb := b.toNat_lt
  have hsmall : ∀ n, n % 64 < 64 := fun n => Nat.mod_lt n (by decide)
  rw [encodeChunk_two]
  obtain ⟨first, hfirst, hfirstWord⟩ := read_first word out (hsmall (a.toNat / 4))
  obtain ⟨second, hsecond, hsecondWord⟩ : ∃ next, (Decoding.mk first 6 out).read
      (symbol ((a.toNat * 16 + b.toNat / 16) % 64)) = some ⟨next, 4, out ++ [a]⟩ ∧ _ :=
    read_second out (hsmall _) (by omega)
  obtain ⟨third, hthird, -⟩ : ∃ next, (Decoding.mk second 4 (out ++ [a])).read
      (symbol (b.toNat * 4 % 64)) = some ⟨next, 2, out ++ [a] ++ [b]⟩ ∧ _ :=
    read_third (out ++ [a]) (hsmall _) (by omega)
  refine ⟨third, ?_⟩
  rw [List.append_assoc] at hthird
  simp [hfirst, hsecond, hthird]

theorem foldlM_encodeChunk_three (word : ℕ) (out : Bytes) (a b c : UInt8) :
    ∃ next, (encodeChunk [a, b, c]).foldlM Decoding.read ⟨word, 0, out⟩ =
      some ⟨next, 0, out ++ [a, b, c]⟩ := by
  have ha := a.toNat_lt
  have hb := b.toNat_lt
  have hc := c.toNat_lt
  have hsmall : ∀ n, n % 64 < 64 := fun n => Nat.mod_lt n (by decide)
  rw [encodeChunk_three]
  obtain ⟨first, hfirst, hfirstWord⟩ := read_first word out (hsmall (a.toNat / 4))
  obtain ⟨second, hsecond, hsecondWord⟩ : ∃ next, (Decoding.mk first 6 out).read
      (symbol ((a.toNat * 16 + b.toNat / 16) % 64)) = some ⟨next, 4, out ++ [a]⟩ ∧ _ :=
    read_second out (hsmall _) (by omega)
  obtain ⟨third, hthird, hthirdWord⟩ : ∃ next, (Decoding.mk second 4 (out ++ [a])).read
      (symbol ((b.toNat * 4 + c.toNat / 64) % 64)) = some ⟨next, 2, out ++ [a] ++ [b]⟩ ∧ _ :=
    read_third (out ++ [a]) (hsmall _) (by omega)
  obtain ⟨fourth, hfourth⟩ : ∃ next, (Decoding.mk third 2 (out ++ [a] ++ [b])).read
      (symbol (c.toNat % 64)) = some ⟨next, 0, out ++ [a] ++ [b] ++ [c]⟩ :=
    read_fourth (out ++ [a] ++ [b]) (hsmall _) (by omega)
  refine ⟨fourth, ?_⟩
  simp only [List.append_assoc, List.singleton_append] at hthird hfourth
  simp [hfirst, hsecond, hthird, hfourth]

theorem foldlM_encode (bytes : Bytes) (word : ℕ) (out : Bytes) :
    ∃ next bits, (encode bytes).foldlM Decoding.read ⟨word, 0, out⟩ =
      some ⟨next, bits, out ++ bytes⟩ ∧ bits < 6 := by
  induction bytes using encode.induct generalizing word out with
  | case1 => exact ⟨word, 0, by simp [encode], by decide⟩
  | case2 a =>
    obtain ⟨next, hread⟩ := foldlM_encodeChunk_one word out a
    exact ⟨next, 4, hread, by decide⟩
  | case3 a b =>
    obtain ⟨next, hread⟩ := foldlM_encodeChunk_two word out a b
    exact ⟨next, 2, hread, by decide⟩
  | case4 a b c rest ih =>
    obtain ⟨next, hread⟩ := foldlM_encodeChunk_three word out a b c
    obtain ⟨last, bits, hrest, hbits⟩ := ih next (out ++ [a, b, c])
    refine ⟨last, bits, ?_, hbits⟩
    rw [encode, List.foldlM_append, hread, Option.bind_eq_bind, Option.bind_some, hrest,
      List.append_assoc]
    rfl

theorem padding_not_symbol (v : ℕ) : symbol (v % 64) ≠ '=' := by
  have hall : ∀ v : Fin 64, symbol v ≠ '=' := by decide
  exact hall ⟨v % 64, Nat.mod_lt v (by decide)⟩

theorem padding_not_mem_encode (bytes : Bytes) : '=' ∉ encode bytes := by
  have hchunk : ∀ chunk, '=' ∉ encodeChunk chunk := by
    intro chunk hmem
    obtain ⟨place, -, hplace⟩ := List.mem_map.mp hmem
    exact padding_not_symbol _ hplace
  induction bytes using encode.induct with
  | case1 => exact List.not_mem_nil
  | case2 a => exact hchunk [a]
  | case3 a b => exact hchunk [a, b]
  | case4 a b c rest ih =>
    rw [encode, List.mem_append]
    exact fun h => h.elim (hchunk [a, b, c]) ih

theorem decode_encode (bytes : Bytes) : decode (encode bytes) = some bytes := by
  have hunpadded : (encode bytes).rdropWhile (· == '=') = encode bytes := by
    rw [List.rdropWhile_eq_self_iff]
    intro hne hlast
    rw [beq_iff_eq] at hlast
    exact padding_not_mem_encode bytes (hlast ▸ List.getLast_mem hne)
  obtain ⟨next, bits, hread, hbits⟩ := foldlM_encode bytes 0 []
  rw [decode, hunpadded, hread]
  exact if_pos hbits

end RoundTrip

end Onevcs.Review.Base64
