import Onevcs.Export.ScanExact
import Onevcs.Review.Base64
import Onevcs.Review.Comments

/-!
# Node ids

`node_id::decode` of `review/github.rs`: the kind of comment a node id names, and the comment's
database id. An id is a type prefix and the base64 of a MessagePack array of a version, the id of
a repository and that of the comment; or, as ids were issued before, the base64 of a text.
-/

namespace Onevcs.Review.NodeId

open Foundations (Text)
open Base64 (Bytes)
open Export (fromUtf8 fromUtf8_ok_iff)
open Store (stripPrefix splitOnce)

inductive Kind
  | reviewComment
  | issueComment
  | review
  deriving DecidableEq

def Kind.typePrefix : Kind → Text
  | .reviewComment => "PRRC".toList
  | .issueComment => "IC".toList
  | .review => "PRR".toList

/-- The type's name, in an id of the old form. -/
def Kind.typeName : Kind → Text
  | .reviewComment => "PullRequestReviewComment".toList
  | .issueComment => "IssueComment".toList
  | .review => "PullRequestReview".toList

/-- The kinds, in the order they are looked for. -/
def kinds : List Kind := [.reviewComment, .issueComment, .review]

def byte : Bytes → Option (UInt8 × Bytes)
  | [] => none
  | first :: rest => some (first, rest)

/-- How many bytes a number takes after a byte that announces it. -/
def widthOf (first : UInt8) : Option ℕ :=
  if first = 0xcc then some 1
  else if first = 0xcd then some 2
  else if first = 0xce then some 4
  else if first = 0xcf then some 8
  else none

/-- The `u64` of big-endian bytes. -/
def ofBigEndian (bytes : Bytes) : ℕ :=
  bytes.foldl (fun sum byte => (sum * 2 ^ 8 + byte.toNat) % 2 ^ 64) 0

def number (bytes : Bytes) : Option (ℕ × Bytes) :=
  (byte bytes).bind fun (first, rest) =>
    if first.toNat ≤ 0x7f then some (first.toNat, rest)
    else
      (widthOf first).bind fun width =>
        if rest.length < width then none
        else some (ofBigEndian (rest.take width), rest.drop width)

/-- The database id in the bytes of an id of today's form. -/
def unpacked (bytes : Bytes) : Option ℕ :=
  (byte bytes).bind fun (first, rest) =>
    if first ≠ 0x93 then none
    else
      (number rest).bind fun (version, rest) =>
        if version ≠ 0 then none
        else
          (number rest).bind fun (_, rest) =>
            (number rest).bind fun (object, rest) => if rest.isEmpty then some object else none

/-- `str::parse` of digits, as a `u64`. -/
def parseU64 (digits : Text) : Option ℕ :=
  let value := Nat.ofDigitChars 10 digits 0
  if value < 2 ^ 64 then some value else none

/-- The digits that follow the name of a kind. -/
def digitsAfter (named : Text) (kind : Kind) : Option (Kind × Text) :=
  ((stripPrefix kind.typeName named).filter fun rest =>
    !rest.isEmpty && rest.all Char.isDigit).map fun rest => (kind, rest)

/-- The kind and the database id in the text of an id of the old form. -/
def namedIn (text : Text) : Option (Kind × ℕ) :=
  (splitOnce ':' text).bind fun (_, named) =>
    (kinds.findSome? (digitsAfter named)).bind fun (kind, digits) =>
      (parseU64 digits).map fun object => (kind, object)

def decode (id : Text) : Option (Kind × ℕ) :=
  match splitOnce '_' id with
  | some (start, payload) =>
    (kinds.find? fun kind => kind.typePrefix = start).bind fun kind =>
      ((Base64.decode payload).bind unpacked).map fun object => (kind, object)
  | none =>
    (Base64.decode id).bind fun bytes =>
      match fromUtf8 bytes with
      | .ok text => namedIn text
      | .error _ => none

/-! ## The two forms -/

/-- A number, as so many big-endian bytes. -/
def bigEndian : ℕ → ℕ → Bytes
  | 0, _ => []
  | width + 1, n => bigEndian width (n / 2 ^ 8) ++ [.ofNat (n % 2 ^ 8)]

/-- A number of a MessagePack array, as short as it may be. -/
def pack (n : ℕ) : Bytes :=
  if n < 0x80 then [.ofNat n]
  else if n < 2 ^ 8 then 0xcc :: bigEndian 1 n
  else if n < 2 ^ 16 then 0xcd :: bigEndian 2 n
  else if n < 2 ^ 32 then 0xce :: bigEndian 4 n
  else 0xcf :: bigEndian 8 n

def packedId (kind : Kind) (repository object : UInt64) : Text :=
  kind.typePrefix ++ '_' ::
    Base64.encode (0x93 :: 0x00 :: (pack repository.toNat ++ pack object.toNat))

def standard (symbol : Char) : Char :=
  if symbol = '-' then '+' else if symbol = '_' then '/' else symbol

/-- The standard, padded base64 of bytes. -/
def encodeStandard (bytes : Bytes) : Text :=
  (Base64.encode bytes).map standard ++ List.replicate ((3 - bytes.length % 3) % 3) '='

/-- An id of the old form, with what it starts with before the colon. -/
def namedId (start : Text) (kind : Kind) (object : UInt64) : Text :=
  encodeStandard (Foundations.utf8.encodeAll
    (start ++ ':' :: (kind.typeName ++ Nat.toDigits 10 object.toNat)))

/-- The kind an id says it names: by its prefix, or, where there is no underscore in it, by the
text it is the base64 of. -/
def Names (id : Text) (kind : Kind) : Prop :=
  (∃ payload, id = kind.typePrefix ++ '_' :: payload) ∨
    ('_' ∉ id ∧ ∃ start digits,
      Base64.decode id = some (Foundations.utf8.encodeAll
        (start ++ ':' :: (kind.typeName ++ digits))) ∧
      ':' ∉ start ∧ digits ≠ [] ∧ digits.all Char.isDigit = true)

section Numbers

variable {n width : ℕ} {rest bytes : Bytes}

theorem length_bigEndian (width n : ℕ) : (bigEndian width n).length = width := by
  induction width generalizing n with
  | zero => rfl
  | succ width ih => rw [bigEndian, List.length_append, ih, List.length_singleton]

theorem ofBigEndian_bigEndian (hwidth : width ≤ 8) (n : ℕ) :
    ofBigEndian (bigEndian width n) = n % 2 ^ (8 * width) := by
  induction width generalizing n with
  | zero => simp [bigEndian, ofBigEndian, Nat.mod_one]
  | succ width ih =>
    have hrest : ofBigEndian (bigEndian width (n / 2 ^ 8)) = n / 2 ^ 8 % 2 ^ (8 * width) :=
      ih (by omega) _
    have hlast : (UInt8.ofNat (n % 2 ^ 8)).toNat = n % 2 ^ 8 := by
      rw [UInt8.toNat_ofNat']
      omega
    have hvalue : n / 2 ^ 8 % 2 ^ (8 * width) * 2 ^ 8 + n % 2 ^ 8 = n % 2 ^ (8 * (width + 1)) := by
      rw [Nat.mul_add, Nat.add_comm, Nat.mul_one, Nat.pow_add, Nat.mul_comm (2 ^ (8 * width)),
        Nat.mod_mul]
      ring
    have hsmall : n % 2 ^ (8 * (width + 1)) < 2 ^ 64 :=
      (Nat.mod_lt _ (by positivity)).trans_le (Nat.pow_le_pow_right (by decide) (by omega))
    unfold ofBigEndian at hrest ⊢
    rw [bigEndian, List.foldl_append, hrest, List.foldl_cons, List.foldl_nil, hlast, hvalue,
      Nat.mod_eq_of_lt hsmall]

theorem number_announced {first : UInt8} (hfirst : 0x7f < first.toNat)
    (hwidth : widthOf first = some width) (hle : width ≤ 8) (h : n < 2 ^ (8 * width)) :
    number (first :: (bigEndian width n ++ rest)) = some (n, rest) := by
  have hlength := length_bigEndian width n
  rw [number, byte, Option.bind_some]
  simp only [if_neg (not_le.mpr hfirst), hwidth, Option.bind_some]
  rw [if_neg (by simp [hlength]), List.take_left' hlength, List.drop_left' hlength,
    ofBigEndian_bigEndian hle, Nat.mod_eq_of_lt h]

theorem number_pack (h : n < 2 ^ 64) (rest : Bytes) :
    number (pack n ++ rest) = some (n, rest) := by
  unfold pack
  split
  · next hsmall =>
    have hvalue : (UInt8.ofNat n).toNat = n := by
      rw [UInt8.toNat_ofNat']
      omega
    rw [List.singleton_append, number, byte, Option.bind_some]
    simp only [hvalue]
    rw [if_pos (by omega)]
  · split
    · exact number_announced (by decide) rfl (by decide) (by omega)
    · split
      · exact number_announced (by decide) rfl (by decide) (by omega)
      · split
        · exact number_announced (by decide) rfl (by decide) (by omega)
        · exact number_announced (by decide) rfl (by decide) (by omega)

theorem unpacked_pack (repository object : UInt64) :
    unpacked (0x93 :: 0x00 :: (pack repository.toNat ++ pack object.toNat)) =
      some object.toNat := by
  have hversion : number (0x00 :: (pack repository.toNat ++ pack object.toNat)) =
      some (0, pack repository.toNat ++ pack object.toNat) := rfl
  have hrepository : number (pack repository.toNat ++ pack object.toNat) =
      some (repository.toNat, pack object.toNat) := number_pack repository.toNat_lt _
  have hobject : number (pack object.toNat) = some (object.toNat, []) := by
    have hnil := number_pack object.toNat_lt []
    rwa [List.append_nil] at hnil
  rw [unpacked, byte, Option.bind_some]
  simp only [hversion, hrepository, hobject, Option.bind_some]
  rfl

end Numbers

section Standard

variable {c : Char} {bytes : Bytes}

theorem value_standard (c : Char) : Base64.value (standard c) = Base64.value c := by
  unfold standard
  split
  · next h =>
    subst h
    decide
  · split
    · next h =>
      subst h
      decide
    · rfl

theorem standard_ne_padding (h : c ≠ '=') : standard c ≠ '=' := by
  unfold standard
  split
  · decide
  · split
    · decide
    · exact h

theorem standard_ne_underscore (c : Char) : standard c ≠ '_' := by
  unfold standard
  split
  · decide
  · split
    · decide
    · assumption

theorem underscore_not_mem_encodeStandard (bytes : Bytes) : '_' ∉ encodeStandard bytes := by
  intro h
  rcases List.mem_append.mp h with h | h
  · obtain ⟨c, -, hc⟩ := List.mem_map.mp h
    exact standard_ne_underscore c hc
  · cases List.eq_of_mem_replicate h

theorem decode_encodeStandard (bytes : Bytes) :
    Base64.decode (encodeStandard bytes) = some bytes := by
  have hread : (fun decoding c => Base64.Decoding.read decoding (standard c)) =
      Base64.Decoding.read := by
    funext decoding c
    rw [Base64.Decoding.read, Base64.Decoding.read, value_standard]
  have hsame : Base64.decode ((Base64.encode bytes).map standard) =
      Base64.decode (Base64.encode bytes) := by
    have hunpadded : ∀ text : Text, '=' ∉ text → text.rdropWhile (· == '=') = text := by
      intro text hnot
      rw [List.rdropWhile_eq_self_iff]
      intro hne hlast
      exact hnot (beq_iff_eq.mp hlast ▸ List.getLast_mem hne)
    have hpadding := Base64.padding_not_mem_encode bytes
    have hmapped : '=' ∉ (Base64.encode bytes).map standard := by
      intro hmem
      obtain ⟨c, hc, heq⟩ := List.mem_map.mp hmem
      exact standard_ne_padding (fun h => hpadding (h ▸ hc)) heq
    rw [Base64.decode, Base64.decode, hunpadded _ hmapped, hunpadded _ hpadding, List.foldlM_map,
      hread]
  have hdropped : (encodeStandard bytes).rdropWhile (· == '=') =
      ((Base64.encode bytes).map standard).rdropWhile (· == '=') := by
    rw [encodeStandard, List.rdropWhile, List.rdropWhile, List.reverse_append,
      List.dropWhile_append_of_pos]
    intro c hc
    rw [beq_iff_eq]
    exact List.eq_of_mem_replicate (List.mem_reverse.mp hc)
  rw [← Base64.decode_encode bytes, ← hsame, Base64.decode, hdropped]
  rfl

end Standard

section Named

variable {id start text named digits : Text} {kind other : Kind} {object : ℕ}

theorem digitsAfter_eq_some_iff :
    digitsAfter named kind = some (other, digits) ↔
      other = kind ∧ named = kind.typeName ++ digits ∧ digits ≠ [] ∧
        digits.all Char.isDigit = true := by
  unfold digitsAfter
  rw [Option.map_eq_some_iff]
  constructor
  · rintro ⟨rest, hrest, heq⟩
    obtain ⟨rfl, rfl⟩ := Prod.mk.inj heq
    obtain ⟨hstrip, hdigits⟩ := Option.filter_eq_some_iff.mp hrest
    rw [Bool.and_eq_true, Bool.not_eq_true', List.isEmpty_eq_false_iff] at hdigits
    refine ⟨rfl, ?_, hdigits⟩
    exact stripPrefix_eq_some_iff.mp hstrip
  · rintro ⟨rfl, rfl, hne, hdigits⟩
    refine ⟨digits, Option.filter_eq_some_iff.mpr ⟨stripPrefix_append _ _, ?_⟩, rfl⟩
    simp [hne, hdigits]

/-- The name of a review comment starts with that of a review, and no digit follows there. -/
theorem typeName_comment_ne {digits' : Text} (hne : digits ≠ [])
    (hdigits : digits.all Char.isDigit = true) :
    Kind.review.typeName ++ digits ≠ Kind.reviewComment.typeName ++ digits' := by
  intro h
  have hname : Kind.reviewComment.typeName = Kind.review.typeName ++ "Comment".toList := rfl
  rw [hname, List.append_assoc, List.append_cancel_left_eq] at h
  obtain ⟨c, rest, rfl⟩ := List.exists_cons_of_ne_nil hne
  obtain ⟨rfl, -⟩ := List.cons.inj h
  rw [List.all_cons, Bool.and_eq_true] at hdigits
  exact absurd hdigits.1 (by decide)

theorem typeName_issue_ne {digits' : Text} (h : other ≠ .issueComment) :
    Kind.issueComment.typeName ++ digits ≠ other.typeName ++ digits' := by
  intro heq
  cases other with
  | reviewComment => exact absurd (List.cons.inj heq).1 (by decide)
  | issueComment => exact h rfl
  | review => exact absurd (List.cons.inj heq).1 (by decide)

theorem eq_of_typeName {digits' : Text}
    (h : kind.typeName ++ digits = other.typeName ++ digits')
    (hne : digits ≠ []) (hdigits : digits.all Char.isDigit = true)
    (hne' : digits' ≠ []) (hdigits' : digits'.all Char.isDigit = true) :
    kind = other ∧ digits = digits' := by
  have hkind : kind = other := by
    cases kind with
    | issueComment =>
      by_contra hother
      exact typeName_issue_ne (Ne.symm hother) h
    | reviewComment =>
      cases other with
      | reviewComment => rfl
      | issueComment => exact absurd h.symm (typeName_issue_ne nofun)
      | review => exact absurd h.symm (typeName_comment_ne hne' hdigits')
    | review =>
      cases other with
      | reviewComment => exact absurd h (typeName_comment_ne hne hdigits)
      | issueComment => exact absurd h.symm (typeName_issue_ne nofun)
      | review => rfl
  subst hkind
  exact ⟨rfl, List.append_cancel_left h⟩

theorem findSome?_digitsAfter (hne : digits ≠ []) (hdigits : digits.all Char.isDigit = true) :
    kinds.findSome? (digitsAfter (kind.typeName ++ digits)) = some (kind, digits) := by
  cases hfound : kinds.findSome? (digitsAfter (kind.typeName ++ digits)) with
  | none =>
    rw [List.findSome?_eq_none_iff] at hfound
    have hmem : kind ∈ kinds := by cases kind <;> decide
    have hsome : digitsAfter (kind.typeName ++ digits) kind = some (kind, digits) :=
      digitsAfter_eq_some_iff.mpr ⟨rfl, rfl, hne, hdigits⟩
    rw [hfound kind hmem] at hsome
    cases hsome
  | some found =>
    obtain ⟨other, digits'⟩ := found
    obtain ⟨kind', -, hafter⟩ := List.exists_of_findSome?_eq_some hfound
    obtain ⟨rfl, hnamed, hne', hdigits'⟩ := digitsAfter_eq_some_iff.mp hafter
    obtain ⟨rfl, rfl⟩ := eq_of_typeName hnamed hne hdigits hne' hdigits'
    rfl

theorem digits_toDigits (n : ℕ) : (Nat.toDigits 10 n).all Char.isDigit = true :=
  List.all_eq_true.mpr fun _ hc => Nat.isDigit_of_mem_toDigits (by decide) (by decide) hc

theorem underscore_not_mem_typePrefix (kind : Kind) : '_' ∉ kind.typePrefix := by
  cases kind <;> decide

theorem typePrefix_inj (h : kind.typePrefix = other.typePrefix) : kind = other := by
  revert h
  cases kind <;> cases other <;> decide

theorem find?_typePrefix (kind : Kind) :
    kinds.find? (fun other => other.typePrefix = kind.typePrefix) = some kind := by
  cases kind <;> decide

theorem decode_packedId (kind : Kind) (repository object : UInt64) :
    decode (packedId kind repository object) = some (kind, object.toNat) := by
  have hsplit : splitOnce '_' (packedId kind repository object) =
      some (kind.typePrefix, _) := splitOnce_append (underscore_not_mem_typePrefix kind)
  rw [decode, hsplit]
  simp only [find?_typePrefix, Base64.decode_encode, unpacked_pack, Option.bind_some,
    Option.map_some]

example : decode "PRRC_kwDOT1Igdc78pjmC".toList = some (.reviewComment, 4238752130) := by
  decide +kernel

theorem decode_namedId (hstart : ':' ∉ start) (kind : Kind) (object : UInt64) :
    decode (namedId start kind object) = some (kind, object.toNat) := by
  have hsplit : splitOnce '_' (namedId start kind object) = none := by
    rw [namedId, splitOnce, if_neg (underscore_not_mem_encodeStandard _)]
  have htext : fromUtf8 (Foundations.utf8.encodeAll
        (start ++ ':' :: (kind.typeName ++ Nat.toDigits 10 object.toNat))) =
      .ok (start ++ ':' :: (kind.typeName ++ Nat.toDigits 10 object.toNat)) :=
    fromUtf8_ok_iff.mpr rfl
  have hparse : parseU64 (Nat.toDigits 10 object.toNat) = some object.toNat := by
    rw [parseU64, Nat.ofDigitChars_ten_toDigits]
    exact if_pos object.toNat_lt
  rw [decode, hsplit]
  simp only [namedId, decode_encodeStandard, Option.bind_some, htext, namedIn,
    splitOnce_append hstart,
    findSome?_digitsAfter Nat.toDigits_ne_nil (digits_toDigits object.toNat), hparse,
    Option.map_some]

/-- An id that is decoded names the kind it decodes to, and no other. -/
theorem names_iff_of_decode (h : decode id = some (kind, object)) :
    Names id other ↔ other = kind := by
  unfold decode at h
  cases hsplit : splitOnce '_' id with
  | some cut =>
    obtain ⟨start, payload⟩ := cut
    simp only [hsplit] at h
    obtain ⟨found, hfound, h⟩ := Option.bind_eq_some_iff.mp h
    obtain ⟨_, -, heq⟩ := Option.map_eq_some_iff.mp h
    obtain ⟨rfl, -⟩ := Prod.mk.inj heq
    have hstart : found.typePrefix = start := by simpa using List.find?_some hfound
    obtain ⟨rfl, -⟩ := splitOnce_eq_some_iff.mp hsplit
    constructor
    · rintro (⟨payload', hid⟩ | ⟨hnot, -⟩)
      · rw [hid, splitOnce_append (underscore_not_mem_typePrefix other)] at hsplit
        obtain ⟨hsame, -⟩ := Prod.mk.inj (Option.some.inj hsplit)
        exact typePrefix_inj (hsame.trans hstart.symm)
      · exact absurd (List.mem_append_right _ List.mem_cons_self) hnot
    · rintro rfl
      exact .inl ⟨payload, by rw [hstart]⟩
  | none =>
    have hnot : '_' ∉ id := by
      intro hmem
      rw [splitOnce, if_pos hmem] at hsplit
      cases hsplit
    simp only [hsplit] at h
    obtain ⟨bytes, hbytes, h⟩ := Option.bind_eq_some_iff.mp h
    split at h
    · next text htext =>
      obtain ⟨⟨start, named⟩, hcolon, h⟩ := Option.bind_eq_some_iff.mp h
      obtain ⟨⟨found, digits⟩, hfound, h⟩ := Option.bind_eq_some_iff.mp h
      obtain ⟨_, -, heq⟩ := Option.map_eq_some_iff.mp h
      obtain ⟨rfl, -⟩ := Prod.mk.inj heq
      obtain ⟨kind', -, hafter⟩ := List.exists_of_findSome?_eq_some hfound
      obtain ⟨rfl, rfl, hne, hdigits⟩ := digitsAfter_eq_some_iff.mp hafter
      obtain ⟨rfl, hstart⟩ := splitOnce_eq_some_iff.mp hcolon
      have hutf8 := fromUtf8_ok_iff.mp htext
      constructor
      · rintro (⟨payload, rfl⟩ | ⟨-, start', digits', hnamed, hstart', hne', hdigits'⟩)
        · exact absurd (List.mem_append_right _ List.mem_cons_self) hnot
        · have hsame := Option.some.inj (hnamed.symm.trans hbytes)
          rw [fromUtf8_ok_iff.mpr hsame.symm] at htext
          have hcut : splitOnce ':' (start' ++ ':' :: (other.typeName ++ digits')) =
              some (start', other.typeName ++ digits') := splitOnce_append hstart'
          rw [Except.ok.inj htext, splitOnce_append hstart] at hcut
          obtain ⟨-, htypes⟩ := Prod.mk.inj (Option.some.inj hcut)
          exact (eq_of_typeName htypes hne hdigits hne' hdigits').1.symm
      · rintro rfl
        exact .inr ⟨hnot, start, digits, by rw [hbytes, hutf8], hstart, hne, hdigits⟩
    · cases h

end Named

/-- Every marker that was checked reads back off what it was composed with; all bytes decode from
their base64; every id of either form decodes to its kind and its object; and an id that decodes
names the kind it decodes to, and no other. -/
theorem markers_and_ids_kept :
    (∀ marker : ReplyMarker, marker.checked = true → ∀ body,
      parseMarker (compose body marker) = some marker) ∧
      (∀ bytes, Base64.decode (Base64.encode bytes) = some bytes) ∧
      (∀ kind repository object,
        decode (packedId kind repository object) = some (kind, object.toNat)) ∧
      (∀ start kind object, ':' ∉ start →
        decode (namedId start kind object) = some (kind, object.toNat)) ∧
      ∀ id kind object, decode id = some (kind, object) →
        ∀ other, Names id other ↔ other = kind :=
  ⟨fun _ h body => parseMarker_compose h [] body, Base64.decode_encode, decode_packedId,
    fun _ kind object h => decode_namedId h kind object, fun _ _ _ h _ => names_iff_of_decode h⟩

end Onevcs.Review.NodeId
