import Onevcs.Review.Read

/-!
# A marker's JSON

What `serde_json` writes a `Seen` as, where its texts are plain ASCII, and a reader of it. A
character that JSON would escape, or that is not ASCII, is written here as a backslash and its
code in three bytes, so that every `Seen` is read back.
-/

namespace Onevcs.Review.MarkerJson

open Foundations (Text)
open Base64 (Bytes)

def ascii (text : Text) : Bytes := text.map fun c => .ofNat c.toNat

/-- A character that is written as itself. -/
def isPlain (c : Char) : Bool := c.toNat < 128 && c != '"' && c != '\\'

def writeChar (c : Char) : Bytes :=
  if isPlain c then [.ofNat c.toNat]
  else [92, .ofNat (c.toNat / 65536), .ofNat (c.toNat / 256 % 256), .ofNat (c.toNat % 256)]

/-- A text after its opening quote, as it is written. -/
def writeText (text : Text) : Bytes := text.flatMap writeChar ++ [34]

/-- Read a text after its opening quote. -/
def readText : Bytes → Option (Text × Bytes)
  | [] => none
  | byte :: rest =>
    if byte = 34 then some ([], rest)
    else if byte = 92 then
      match rest with
      | a :: b :: c :: rest =>
        (readText rest).map fun read =>
          (.ofNat (a.toNat * 65536 + b.toNat * 256 + c.toNat) :: read.1, read.2)
      | _ => none
    else (readText rest).map fun read => (.ofNat byte.toNat :: read.1, read.2)

theorem toNat_lt (c : Char) : c.toNat < 1114112 := by
  rcases c.valid with h | h
  · have hval : c.val.toNat < 55296 := h
    exact Nat.lt_trans hval (by decide)
  · exact h.2

theorem readText_writeChar (c : Char) (rest : Bytes) :
    readText (writeChar c ++ rest) = (readText rest).map fun read => (c :: read.1, read.2) := by
  have hcode := toNat_lt c
  by_cases hplain : isPlain c = true
  · simp only [isPlain, Bool.and_eq_true, decide_eq_true_eq, bne_iff_ne] at hplain
    obtain ⟨⟨hascii, hquote⟩, hbackslash⟩ := hplain
    have hbyte : (UInt8.ofNat c.toNat).toNat = c.toNat := by
      rw [UInt8.toNat_ofNat']
      omega
    have hne : ∀ d : Char, d.toNat < 128 → c ≠ d → UInt8.ofNat c.toNat ≠ UInt8.ofNat d.toNat := by
      intro d hd hcd heq
      have hcodes := congrArg UInt8.toNat heq
      rw [hbyte, UInt8.toNat_ofNat', Nat.mod_eq_of_lt (by omega)] at hcodes
      exact hcd (Char.toNat_inj.mp hcodes)
    have hnot34 : UInt8.ofNat c.toNat ≠ 34 := hne '"' (by decide) hquote
    have hnot92 : UInt8.ofNat c.toNat ≠ 92 := hne '\\' (by decide) hbackslash
    rw [writeChar, if_pos (by simp [isPlain, hascii, hquote, hbackslash]), List.singleton_append,
      readText.eq_def]
    simp only [if_neg hnot34, if_neg hnot92, hbyte, Char.ofNat_toNat]
  · have hvalue : (UInt8.ofNat (c.toNat / 65536)).toNat * 65536 +
        (UInt8.ofNat (c.toNat / 256 % 256)).toNat * 256 + (UInt8.ofNat (c.toNat % 256)).toNat =
          c.toNat := by
      simp only [UInt8.toNat_ofNat']
      omega
    rw [writeChar, if_neg hplain, List.cons_append, readText.eq_def]
    simp only [List.cons_append, List.nil_append, hvalue, Char.ofNat_toNat]
    rfl

theorem readText_writeText (text : Text) (rest : Bytes) :
    readText (writeText text ++ rest) = some (text, rest) := by
  rw [writeText]
  induction text with
  | nil =>
    rw [List.flatMap_nil, readText.eq_def]
    rfl
  | cons c text ih =>
    rw [List.flatMap_cons, List.append_assoc, List.append_assoc, readText_writeChar,
      ← List.append_assoc, ih]
    rfl

def writeEntry (entry : Text × Text) : Bytes :=
  34 :: writeText entry.1 ++ 58 :: 34 :: writeText entry.2

/-- The entries of a map, and what closes it. -/
def writeEntries : List (Text × Text) → Bytes
  | [] => [125]
  | [last] => writeEntry last ++ [125]
  | entry :: rest => writeEntry entry ++ 44 :: writeEntries rest

def readEntry : Bytes → Option ((Text × Text) × Bytes)
  | _ :: rest => (readText rest).bind fun key =>
    (readText (key.2.drop 2)).map fun value => ((key.1, value.1), value.2)
  | [] => none

/-- Read the entries of a map, of which there are no more than there are bytes. -/
def readEntries : ℕ → Bytes → Option (List (Text × Text) × Bytes)
  | 0, _ => none
  | fuel + 1, bytes =>
    if bytes.head? = some 125 then some ([], bytes.tail)
    else
      (readEntry bytes).bind fun entry =>
        if entry.2.head? = some 44 then
          (readEntries fuel entry.2.tail).map fun read => (entry.1 :: read.1, read.2)
        else some ([entry.1], entry.2.tail)

/-- `serde_json::to_vec` of a `Seen`. -/
def toJson (seen : Seen) : Bytes :=
  ascii "\x7b\"u\":\"".toList ++ writeText seen.url ++ ascii ",\"c\":\x7b".toList ++
    writeEntries seen.comments ++ ascii ",\"t\":\x7b".toList ++ writeEntries seen.threads ++ [125]

/-- `serde_json::from_slice` of what was written. -/
def ofJson (bytes : Bytes) : Option Seen :=
  (readText (bytes.drop 6)).bind fun url =>
    (readEntries (bytes.length + 1) (url.2.drop 6)).bind fun comments =>
      (readEntries (bytes.length + 1) (comments.2.drop 6)).map fun threads =>
        ⟨url.1, comments.1, threads.1⟩

theorem readEntry_writeEntry (entry : Text × Text) (rest : Bytes) :
    readEntry (writeEntry entry ++ rest) = some (entry, rest) := by
  rw [writeEntry, List.append_assoc, List.cons_append, readEntry, readText_writeText,
    Option.bind_some]
  show (readText (writeText entry.2 ++ rest)).map _ = _
  rw [readText_writeText]
  rfl

theorem readEntries_writeEntries (entries : List (Text × Text)) (rest : Bytes) {fuel : ℕ}
    (hfuel : entries.length < fuel) :
    readEntries fuel (writeEntries entries ++ rest) = some (entries, rest) := by
  induction entries using writeEntries.induct generalizing fuel with
  | case1 =>
    obtain ⟨fuel, rfl⟩ := Nat.exists_eq_succ_of_ne_zero (Nat.ne_of_gt hfuel)
    rfl
  | case2 last =>
    obtain ⟨fuel, rfl⟩ := Nat.exists_eq_succ_of_ne_zero (Nat.ne_zero_of_lt hfuel)
    rw [writeEntries, List.append_assoc, Nat.succ_eq_add_one, readEntries,
      readEntry_writeEntry]
    rfl
  | case3 entry rest' hne ih =>
    obtain ⟨fuel, rfl⟩ := Nat.exists_eq_succ_of_ne_zero (Nat.ne_zero_of_lt hfuel)
    rw [writeEntries, List.append_assoc, Nat.succ_eq_add_one, readEntries,
      readEntry_writeEntry]
    · have hrest := ih (Nat.lt_of_succ_lt_succ hfuel)
      have hopen : (writeEntry entry ++ (44 :: writeEntries rest' ++ rest)).head? ≠ some 125 :=
        fun hhead => absurd (Option.some.inj hhead) (by decide)
      rw [if_neg hopen, Option.bind_some]
      show (readEntries fuel (writeEntries rest' ++ rest)).map _ = _
      rw [hrest]
      rfl
    · exact hne

theorem length_le_writeEntries (entries : List (Text × Text)) :
    entries.length ≤ (writeEntries entries).length := by
  induction entries using writeEntries.induct with
  | case1 => exact Nat.zero_le _
  | case2 last => simp [writeEntries]
  | case3 entry rest hne ih =>
    rw [writeEntries]
    · simp only [List.length_append, List.length_cons]
      omega
    · exact hne

theorem ofJson_toJson (seen : Seen) : ofJson (toJson seen) = some seen := by
  have hcomments := length_le_writeEntries seen.comments
  have hthreads := length_le_writeEntries seen.threads
  have hlength : (toJson seen).length = 6 + (writeText seen.url).length + 6 +
      (writeEntries seen.comments).length + 6 + (writeEntries seen.threads).length + 1 := by
    simp only [toJson, List.length_append]
    rfl
  have hurl : readText ((toJson seen).drop 6) = some (seen.url, ascii ",\"c\":\x7b".toList ++
      (writeEntries seen.comments ++ (ascii ",\"t\":\x7b".toList ++
        (writeEntries seen.threads ++ [125])))) := by
    simp only [toJson, List.append_assoc]
    exact readText_writeText seen.url _
  rw [ofJson, hurl, Option.bind_some]
  show (readEntries _ (writeEntries seen.comments ++ _)).bind _ = _
  rw [readEntries_writeEntries _ _ (by omega), Option.bind_some]
  show (readEntries _ (writeEntries seen.threads ++ _)).map _ = _
  rw [readEntries_writeEntries _ _ (by omega)]
  rfl

end Onevcs.Review.MarkerJson
