import Mathlib.Data.List.Nodup
import Mathlib.Data.List.TakeWhile
import Onevcs.Audit.GitScan

/-!
# The records of a scanned history

What the scan passes of one record of a listing, and what it loses: a record of the log ends at
a byte a message may hold, and what follows that byte is read only where it happens to have the
fields of a record. A cell of a text stands in its record once, so what the framing loses of it
no other piece makes up for.
-/

namespace Onevcs.Audit

open Foundations

/-! ## Cells -/

def Cell.separates (cell : Cell) : Bool := isSeparator cell.byte

section Cells

variable {source : Source} {bytes : Bytes} {cell : Cell}

@[simp] theorem map_byte_plain (bytes : Bytes) : (plain bytes).map Cell.byte = bytes := by
  simp [plain, Function.comp_def]

@[simp] theorem map_byte_marked (source : Source) (bytes : Bytes) :
    (marked source bytes).map Cell.byte = bytes := by
  simp [marked, Function.comp_def]

theorem mark_of_mem_plain (h : cell ∈ plain bytes) : cell.mark = none := by
  obtain ⟨byte, -, rfl⟩ := List.mem_map.mp h
  rfl

theorem byte_of_mem_plain (h : cell ∈ plain bytes) : cell.byte ∈ bytes := by
  obtain ⟨byte, hbyte, rfl⟩ := List.mem_map.mp h
  exact hbyte

theorem mem_marked_iff : cell ∈ marked source bytes ↔
    ∃ index, cell.mark = some (source, index) ∧ bytes[index]? = some cell.byte := by
  simp only [marked, List.mem_map, Prod.exists, List.mk_mem_zipIdx_iff_getElem?]
  constructor
  · rintro ⟨byte, index, hbyte, rfl⟩
    exact ⟨index, rfl, hbyte⟩
  · rintro ⟨index, hmark, hbyte⟩
    exact ⟨cell.byte, index, hbyte, by rw [← hmark]⟩

theorem mark_of_mem_marked (h : cell ∈ marked source bytes) :
    ∃ index, cell.mark = some (source, index) := by
  obtain ⟨index, hmark, -⟩ := mem_marked_iff.mp h
  exact ⟨index, hmark⟩

theorem byte_of_mem_marked (h : cell ∈ marked source bytes) : cell.byte ∈ bytes := by
  obtain ⟨index, -, hbyte⟩ := mem_marked_iff.mp h
  exact List.mem_of_getElem? hbyte

theorem exists_mem_marked {byte : UInt8} (source : Source) (h : byte ∈ bytes) :
    ∃ cell ∈ marked source bytes, cell.byte = byte := by
  obtain ⟨index, hindex⟩ := List.getElem?_of_mem h
  exact ⟨⟨byte, some (source, index)⟩, mem_marked_iff.mpr ⟨index, rfl, hindex⟩, rfl⟩

theorem nodup_marked (source : Source) (bytes : Bytes) : (marked source bytes).Nodup := by
  refine List.Nodup.of_map Cell.mark ?_
  have hmarks : (marked source bytes).map Cell.mark =
      (List.range' 0 bytes.length).map fun index => some (source, index) := by
    rw [← List.zipIdx_map_snd, marked, List.map_map, List.map_map]
    rfl
  rw [hmarks]
  exact List.Nodup.map (fun left right h => by simpa using h) List.nodup_range'

theorem count_marked_le (source : Source) (bytes : Bytes) (cell : Cell) :
    (marked source bytes).count cell ≤ 1 :=
  List.nodup_iff_count_le_one.mp (nodup_marked source bytes) cell

theorem count_marked_of_ne {other : Source} {index : Nat}
    (hmark : cell.mark = some (source, index)) (hne : source ≠ other) :
    (marked other bytes).count cell = 0 := by
  rw [List.count_eq_zero]
  intro hmem
  obtain ⟨_, hother⟩ := mark_of_mem_marked hmem
  rw [hmark] at hother
  exact hne (by simpa using congrArg (Option.map Prod.fst) hother)

theorem count_plain_of_mark (hmark : cell.mark ≠ none) : (plain bytes).count cell = 0 := by
  rw [List.count_eq_zero]
  exact fun hmem => hmark (mark_of_mem_plain hmem)

theorem Word.endsField_eq_false {word : Word} (h : cell ∈ plain word.text) :
    cell.endsField = false := by
  have hprintable := word.printable _ (byte_of_mem_plain h)
  rw [Cell.endsField, beq_eq_false_iff_ne]
  rintro hend
  rw [hend] at hprintable
  exact absurd hprintable (by decide)

theorem Word.endsRecord_eq_false {word : Word} (h : cell ∈ plain word.text) :
    cell.endsRecord = false := by
  have hprintable := word.printable _ (byte_of_mem_plain h)
  rw [Cell.endsRecord, beq_eq_false_iff_ne]
  rintro hend
  rw [hend] at hprintable
  exact absurd hprintable (by decide)

theorem Word.endsLine_eq_false {word : Word} (h : cell ∈ plain word.text) :
    cell.endsLine = false := by
  have hprintable := word.printable _ (byte_of_mem_plain h)
  rw [Cell.endsLine, beq_eq_false_iff_ne]
  rintro hend
  rw [hend] at hprintable
  exact absurd hprintable (by decide)

theorem Cell.separates_eq : cell.separates = (cell.endsRecord || cell.endsField) := rfl

theorem Cell.not_endsLine_of_endsField (h : cell.endsField = true) : cell.endsLine = false := by
  rw [Cell.endsField, beq_iff_eq] at h
  rw [Cell.endsLine, h]
  decide

end Cells

section Records

variable {count : Nat} {reads : List (List Cell) → Bool} {record : List Cell} {cell : Cell}

/-- What of a record the scan does not pass: its line end, and its first two fields or, where
it is not one of those the scan reads, all of them. -/
def lost (count : Nat) (reads : List (List Cell) → Bool) (record : List Cell) : List Cell :=
  record.takeWhile Cell.endsLine ++
    if reads (Scan.fieldsOf count record) then ((Scan.fieldsOf count record).take 2).flatten
    else (Scan.fieldsOf count record).flatten

theorem count_passes_add_lost (hfree : cell.endsField = false) :
    (Scan.passes (count + 1) reads record).flatten.count cell +
      (lost (count + 1) reads record).count cell = record.count cell := by
  have hfields : (Scan.fieldsOf (count + 1) record).flatten.count cell =
      (record.dropWhile Cell.endsLine).count cell := count_splitn count hfree
  have hwhole : record.count cell = (record.takeWhile Cell.endsLine).count cell +
      (Scan.fieldsOf (count + 1) record).flatten.count cell := by
    rw [hfields, ← List.count_append, List.takeWhile_append_dropWhile]
  rw [hwhole, Scan.passes, lost, List.count_append]
  split
  · have hcut : (Scan.fieldsOf (count + 1) record).flatten =
        ((Scan.fieldsOf (count + 1) record).take 2).flatten ++
          ((Scan.fieldsOf (count + 1) record).drop 2).flatten := by
      rw [← List.flatten_append, List.take_append_drop]
    rw [hcut, List.count_append]
    omega
  · rw [List.flatten_nil, List.count_nil]
    omega

theorem mem_of_mem_passes {piece : List Cell} (h : piece ∈ Scan.passes (count + 1) reads record)
    (hcell : cell ∈ piece) : cell ∈ record := by
  rw [Scan.passes] at h
  split at h
  · have hfield := List.mem_of_mem_drop h
    exact (List.dropWhile_sublist _).subset (mem_of_mem_splitn count hfield hcell)
  · cases h

theorem passes_newline (record : List Cell) :
    Scan.passes count reads (⟨newline, none⟩ :: record) = Scan.passes count reads record := by
  have hdrop : (⟨newline, none⟩ :: record : List Cell).dropWhile Cell.endsLine =
      record.dropWhile Cell.endsLine := List.dropWhile_cons_of_pos rfl
  rw [Scan.passes, Scan.passes, Scan.fieldsOf, Scan.fieldsOf, hdrop]

/-- The pieces of a stream of records. -/
def piecesOf (count : Nat) (reads : List (List Cell) → Bool) (stream : List Cell) :
    List (List Cell) :=
  (stream.splitOnP Cell.endsRecord).flatMap (Scan.passes count reads)

theorem piecesOf_newline (stream : List Cell) :
    piecesOf count reads (⟨newline, none⟩ :: stream) = piecesOf count reads stream := by
  rw [piecesOf, piecesOf, List.splitOnP_cons_eq_if_modifyHead, if_neg (by decide)]
  cases hrecords : stream.splitOnP Cell.endsRecord with
  | nil => rfl
  | cons first rest =>
    rw [List.modifyHead_cons, List.flatMap_cons, List.flatMap_cons, passes_newline]

/-- A record with its end, on lines of its own, adds its pieces to those of what follows. -/
theorem piecesOf_record (record stream : List Cell) :
    piecesOf count reads (record ++ [⟨recordEnd, none⟩] ++ [⟨newline, none⟩] ++ stream) =
      piecesOf count reads record ++ piecesOf count reads stream := by
  have hends : (⟨recordEnd, none⟩ : Cell).endsRecord = true := rfl
  have hshape : record ++ [⟨recordEnd, none⟩] ++ [⟨newline, none⟩] ++ stream =
      record ++ ⟨recordEnd, none⟩ :: (⟨newline, none⟩ :: stream) := by simp
  rw [hshape, piecesOf, List.splitOnP_append_cons _ _ hends, List.flatMap_append]
  exact congrArg _ (piecesOf_newline stream)

/-- A stretch of a stream no cell of which is lost lies within a piece. -/
theorem exists_piece {stream stretch : List Cell} (hstretch : stretch <:+: stream)
    (hne : stretch ≠ []) (hfree : ∀ cell ∈ stretch, cell.separates = false)
    (hkept : ∀ record ∈ stream.splitOnP Cell.endsRecord, ∀ cell ∈ stretch,
      cell ∉ lost (count + 1) reads record) :
    ∃ piece ∈ piecesOf (count + 1) reads stream, stretch <:+: piece := by
  simp only [Cell.separates_eq, Bool.or_eq_false_iff] at hfree
  obtain ⟨record, hrecord, hin⟩ := exists_record hstretch fun cell hcell => (hfree cell hcell).1
  have hlost := hkept record hrecord
  have hfields : stretch <:+: record.dropWhile Cell.endsLine := by
    refine infix_of_append (record.takeWhile Cell.endsLine) ?_ fun cell hcell hline => ?_
    · rwa [List.takeWhile_append_dropWhile]
    · exact hlost cell hcell (List.mem_append_left _ hline)
  obtain ⟨field, hfield, hin⟩ := exists_field count hfields fun cell hcell => (hfree cell hcell).2
  obtain ⟨first, hfirst⟩ := List.exists_mem_of_ne_nil stretch hne
  have hcell := hin.subset hfirst
  have hnot := fun hmem => hlost first hfirst (List.mem_append_right _ hmem)
  cases hreads : reads (Scan.fieldsOf (count + 1) record) with
  | false =>
    refine absurd ?_ hnot
    rw [hreads]
    exact List.mem_flatten.mpr ⟨field, hfield, hcell⟩
  | true =>
    rw [hreads] at hnot
    have hcut : field ∈ (Scan.fieldsOf (count + 1) record).take 2 ++
        (Scan.fieldsOf (count + 1) record).drop 2 := by
      rwa [List.take_append_drop]
    rcases List.mem_append.mp hcut with hskipped | hpassed
    · exact absurd (List.mem_flatten.mpr ⟨field, hskipped, hcell⟩) hnot
    · refine ⟨field, List.mem_flatMap.mpr ⟨record, hrecord, ?_⟩, hin⟩
      rw [Scan.passes, if_pos hreads]
      exact hpassed

theorem not_mem_piece {stream : List Cell} (hfree : cell.separates = false)
    (honce : stream.count cell ≤ 1) {record : List Cell}
    (hrecord : record ∈ stream.splitOnP Cell.endsRecord)
    (hlost : cell ∈ lost (count + 1) reads record) {piece : List Cell}
    (hpiece : piece ∈ piecesOf (count + 1) reads stream) : cell ∉ piece := by
  rw [Cell.separates_eq, Bool.or_eq_false_iff] at hfree
  intro hcell
  obtain ⟨other, hother, hpasses⟩ := List.mem_flatMap.mp hpiece
  exact not_mem_kept (fun record => (Scan.passes (count + 1) reads record).flatten)
    (lost (count + 1) reads) hfree.1 (fun _ => count_passes_add_lost hfree.2) honce hrecord hlost hother
    (List.mem_flatten.mpr ⟨piece, hpasses, hcell⟩)

theorem mem_of_mem_piece {stream piece : List Cell}
    (hpiece : piece ∈ piecesOf (count + 1) reads stream) (hcell : cell ∈ piece) :
    cell ∈ stream := by
  obtain ⟨record, hrecord, hpasses⟩ := List.mem_flatMap.mp hpiece
  exact mem_of_mem_splitOnP hrecord (mem_of_mem_passes hpasses hcell)

end Records

/-! ## When the framing of a record loses nothing -/

/-- Every byte is one of framing. -/
def Void (bytes : Bytes) : Prop := ∀ byte ∈ bytes, isSeparator byte = true

/-- The part of a commit's text before its first record end holds the ends of the identities,
or nothing but field ends. -/
def headKept (part : Bytes) : Bool :=
  part.all (· == fieldEnd) || decide (2 ≤ part.count fieldEnd)

/-- A part of a commit's text after a record end starts as a record whose first two fields are
empty, and has all five; or it holds nothing but field ends. -/
def partKept (part : Bytes) : Bool :=
  part.all (· == fieldEnd) ||
    (part.take 2 == [fieldEnd, fieldEnd] && decide (4 ≤ part.count fieldEnd))

/-- What a log's record writes of a commit after its hash and time. -/
def Commit.text (commit : Commit) : Bytes :=
  commit.author.text ++ fieldEnd :: (commit.committer.text ++ fieldEnd :: commit.message)

/-- The record ends in a commit's text cut nothing from what is read of it. -/
def Commit.Framed (commit : Commit) : Prop :=
  (∀ part ∈ (commit.text.splitOnP (· == recordEnd)).head?, headKept part = true) ∧
    ∀ part ∈ (commit.text.splitOnP (· == recordEnd)).tail, partKept part = true

/-- The record ends in a tag's contents are followed by nothing but field ends. -/
def Tag.Framed (tag : Tag) : Prop :=
  ∀ part ∈ (tag.contents.splitOnP (· == recordEnd)).tail, part.all (· == fieldEnd) = true

section Parts

variable {part : List Cell} {cell : Cell} {oid time : Word}

theorem all_byte (part : List Cell) :
    (part.map Cell.byte).all (· == fieldEnd) = part.all Cell.endsField := by
  rw [List.all_map]
  rfl

theorem count_byte (part : List Cell) :
    (part.map Cell.byte).count fieldEnd = part.countP Cell.endsField := by
  rw [List.count, List.countP_map]
  rfl

theorem mem_of_mem_lost {count : Nat} {reads : List (List Cell) → Bool}
    (h : cell ∈ lost (count + 1) reads part) : cell ∈ part := by
  have hfields : ∀ field ∈ Scan.fieldsOf (count + 1) part, ∀ cell ∈ field, cell ∈ part :=
    fun field hfield cell hcell =>
      (List.dropWhile_sublist _).subset (mem_of_mem_splitn count hfield hcell)
  rw [lost, List.mem_append] at h
  rcases h with hline | hfield
  · exact (List.takeWhile_sublist _).subset hline
  · split at hfield
    · obtain ⟨field, hfield, hcell⟩ := List.mem_flatten.mp hfield
      exact hfields field (List.mem_of_mem_take hfield) cell hcell
    · obtain ⟨field, hfield, hcell⟩ := List.mem_flatten.mp hfield
      exact hfields field hfield cell hcell

theorem takeWhile_eq_nil {count : Nat} {reads : List (List Cell) → Bool}
    (h : ∀ cell ∈ lost count reads part, cell.endsField = true) :
    part.takeWhile Cell.endsLine = [] := by
  rw [List.eq_nil_iff_forall_not_mem]
  intro cell hcell
  have hends := h cell (List.mem_append_left _ hcell)
  have hline := List.mem_takeWhile_imp hcell
  rw [Cell.not_endsLine_of_endsField hends] at hline
  cases hline

theorem dropWhile_eq_self (h : part.takeWhile Cell.endsLine = []) :
    part.dropWhile Cell.endsLine = part := by
  have hwhole := List.takeWhile_append_dropWhile (p := Cell.endsLine) (l := part)
  rwa [h, List.nil_append] at hwhole

/-- Where a record that is not read loses nothing but field ends, it is nothing but these. -/
theorem all_of_not_read {count : Nat} {reads : List (List Cell) → Bool}
    (h : ∀ cell ∈ lost (count + 1) reads part, cell.endsField = true)
    (hreads : reads (Scan.fieldsOf (count + 1) part) = false) :
    part.all Cell.endsField = true := by
  have hline := takeWhile_eq_nil h
  rw [List.all_eq_true]
  intro cell hcell
  cases hends : cell.endsField with
  | true => rfl
  | false =>
    rw [← dropWhile_eq_self hline] at hcell
    obtain ⟨field, hfield, hin⟩ := exists_mem_splitn count hcell hends
    have hlost : cell ∈ lost (count + 1) reads part := by
      rw [lost, if_neg (by simp [hreads])]
      exact List.mem_append_right _ (List.mem_flatten.mpr ⟨field, hfield, hin⟩)
    exact hends.symm.trans (h cell hlost)

theorem eq_nil_of_ends {field : List Cell} (hfree : ∀ cell ∈ field, cell.endsField = false)
    (hends : ∀ cell ∈ field, cell.endsField = true) : field = [] := by
  rw [List.eq_nil_iff_forall_not_mem]
  intro cell hcell
  exact absurd ((hfree cell hcell).symm.trans (hends cell hcell)) nofun

theorem take_two_byte : ((part.map Cell.byte).take 2 == [fieldEnd, fieldEnd]) = true ↔
    ∃ first second rest, part = first :: second :: rest ∧ first.endsField = true ∧
      second.endsField = true := by
  constructor
  · intro h
    rcases part with _ | ⟨first, _ | ⟨second, rest⟩⟩
    · cases h
    · simp at h
    · have hbytes : first.byte = fieldEnd ∧ second.byte = fieldEnd := by simpa using h
      exact ⟨first, second, rest, rfl, beq_iff_eq.mpr hbytes.1, beq_iff_eq.mpr hbytes.2⟩
  · rintro ⟨first, second, rest, rfl, hfirst, hsecond⟩
    simp [beq_iff_eq.mp hfirst, beq_iff_eq.mp hsecond]

theorem fieldsOf_two_ends {first second : Cell} {rest : List Cell} (count : Nat)
    (hfirst : first.endsField = true) (hsecond : second.endsField = true) :
    Scan.fieldsOf (count + 3) (first :: second :: rest) =
      [] :: [] :: splitn Cell.endsField (count + 1) rest := by
  have hline : (first :: second :: rest).dropWhile Cell.endsLine = first :: second :: rest :=
    List.dropWhile_cons_of_neg (by simp [Cell.not_endsLine_of_endsField hfirst])
  have hcut : splitn Cell.endsField (count + 3) ([] ++ first :: second :: rest) =
      [] :: splitn Cell.endsField (count + 2) (second :: rest) :=
    splitn_append_cons (by simp) hfirst (count + 1) (second :: rest)
  have hrest : splitn Cell.endsField (count + 2) ([] ++ second :: rest) =
      [] :: splitn Cell.endsField (count + 1) rest :=
    splitn_append_cons (by simp) hsecond count rest
  rw [List.nil_append] at hcut hrest
  rw [Scan.fieldsOf, hline, hcut, hrest]

theorem partKept_iff : partKept (part.map Cell.byte) = true ↔
    ∀ cell ∈ lost 5 Scan.readsCommit part, cell.endsField = true := by
  rw [partKept, all_byte, count_byte, Bool.or_eq_true, Bool.and_eq_true, take_two_byte,
    decide_eq_true_iff]
  constructor
  · rintro (hall | ⟨⟨first, second, rest, rfl, hfirst, hsecond⟩, hcount⟩) cell hcell
    · exact List.all_eq_true.mp hall cell (mem_of_mem_lost hcell)
    · rw [List.countP_cons_of_pos hfirst, List.countP_cons_of_pos hsecond] at hcount
      have hfields : Scan.fieldsOf 5 (first :: second :: rest) =
          [] :: [] :: splitn Cell.endsField 3 rest := fieldsOf_two_ends 2 hfirst hsecond
      have hreads : Scan.readsCommit (Scan.fieldsOf 5 (first :: second :: rest)) = true := by
        rw [hfields, Scan.readsCommit, List.length_cons, List.length_cons, length_splitn]
        simp only [Bool.not_eq_true', decide_eq_false_iff_not]
        omega
      have hline : (first :: second :: rest).takeWhile Cell.endsLine = [] :=
        List.takeWhile_cons_of_neg (by simp [Cell.not_endsLine_of_endsField hfirst])
      rw [lost, hline, if_pos hreads, hfields] at hcell
      cases hcell
  · intro h
    have hline := takeWhile_eq_nil h
    cases hreads : Scan.readsCommit (Scan.fieldsOf 5 part) with
    | false => exact .inl (all_of_not_read h hreads)
    | true =>
      right
      rw [lost, hline, if_pos hreads, List.nil_append, Scan.fieldsOf,
        dropWhile_eq_self hline] at h
      rw [Scan.readsCommit, Scan.fieldsOf, dropWhile_eq_self hline, length_splitn] at hreads
      have hcount : 4 ≤ part.countP Cell.endsField := by
        simp only [Bool.not_eq_true', decide_eq_false_iff_not] at hreads
        omega
      refine ⟨?_, hcount⟩
      rcases exists_first Cell.endsField part with hnone | ⟨before, x, after, rfl, hx, hbefore⟩
      · rw [List.countP_eq_zero.mpr (by simpa using hnone)] at hcount
        omega
      rw [splitn_append_cons hbefore hx] at h
      have hempty := eq_nil_of_ends hbefore fun cell hcell =>
        h cell (List.mem_flatten.mpr ⟨before, List.mem_cons_self, hcell⟩)
      subst hempty
      rw [List.nil_append, List.countP_cons_of_pos hx] at hcount
      rcases exists_first Cell.endsField after with hnone | ⟨inner, y, rest, rfl, hy, hinner⟩
      · rw [List.countP_eq_zero.mpr (by simpa using hnone)] at hcount
        omega
      rw [splitn_append_cons hinner hy] at h
      have hempty := eq_nil_of_ends hinner fun cell hcell =>
        h cell (List.mem_flatten.mpr ⟨inner, by simp, hcell⟩)
      subst hempty
      exact ⟨x, y, rest, rfl, hx, hy⟩

theorem tagPart_iff : (part.map Cell.byte).all (· == fieldEnd) = true ↔
    ∀ cell ∈ lost 3 Scan.readsTag part, cell.endsField = true := by
  rw [all_byte]
  constructor
  · exact fun hall cell hcell => List.all_eq_true.mp hall cell (mem_of_mem_lost hcell)
  · intro h
    cases hreads : Scan.readsTag (Scan.fieldsOf 3 part) with
    | false => exact all_of_not_read h hreads
    | true =>
      -- The field that makes it a tag's record is itself lost.
      have hlost := h
      rw [lost, if_pos hreads] at hlost
      rw [Scan.readsTag, Bool.and_eq_true, beq_iff_eq, Option.map_eq_some_iff] at hreads
      obtain ⟨-, field, hfield, htag⟩ := hreads
      have htake : ((Scan.fieldsOf 3 part).take 2)[1]? = some field := by
        rw [List.getElem?_take, if_pos Nat.one_lt_two]
        exact hfield
      obtain ⟨cell, hcell, hbyte⟩ : ∃ cell ∈ field, cell.byte = 0x74 := by
        rw [← List.mem_map, htag]
        decide
      have hends := hlost cell
        (List.mem_append_right _ (List.mem_flatten.mpr ⟨field, List.mem_of_getElem? htake, hcell⟩))
      rw [Cell.endsField, hbyte] at hends
      exact absurd hends (by decide)

/-- A record end inside a message cuts what follows it, unless it reads as a record itself. -/
example : partKept (ascii "and on") = false ∧
    partKept [fieldEnd, fieldEnd, fieldEnd, fieldEnd, 0x61] = true := by decide +kernel

/-! ### The head of a record -/

/-- The two fields git itself writes at a record's head. -/
def headed (first second : Word) (part : List Cell) : List Cell :=
  Mirror.field (plain first.text) ++ Mirror.field (plain second.text) ++ part

variable {first second : Word}

theorem headed_eq (first second : Word) (part : List Cell) :
    headed first second part = plain first.text ++ ⟨fieldEnd, none⟩ ::
      (plain second.text ++ ⟨fieldEnd, none⟩ :: part) := by
  simp [headed, Mirror.field]

theorem takeWhile_headed : (headed first second part).takeWhile Cell.endsLine = [] := by
  rw [headed_eq]
  cases htext : plain first.text with
  | nil => rfl
  | cons cell rest =>
    have hline : cell.endsLine = false :=
      Word.endsLine_eq_false (htext ▸ List.mem_cons_self : cell ∈ plain first.text)
    exact List.takeWhile_cons_of_neg (by simp [hline])

theorem fieldsOf_headed (count : Nat) : Scan.fieldsOf (count + 3) (headed first second part) =
    plain first.text :: plain second.text :: splitn Cell.endsField (count + 1) part := by
  rw [Scan.fieldsOf, dropWhile_eq_self takeWhile_headed, headed_eq,
    splitn_append_cons (fun _ => Word.endsField_eq_false) rfl,
    splitn_append_cons (fun _ => Word.endsField_eq_false) rfl]

theorem mark_of_headed {count : Nat} {reads : List (List Cell) → Bool}
    (hreads : reads (Scan.fieldsOf (count + 3) (headed first second part)) = true)
    (hcell : cell ∈ lost (count + 3) reads (headed first second part)) : cell.mark = none := by
  rw [lost, takeWhile_headed, if_pos hreads, fieldsOf_headed] at hcell
  simp only [List.nil_append, List.take_succ_cons, List.take_zero, List.flatten_cons,
    List.flatten_nil, List.append_nil, List.mem_append] at hcell
  rcases hcell with hcell | hcell <;> exact mark_of_mem_plain hcell

theorem headKept_iff (hplain : ∀ cell ∈ part, cell.mark = none → cell.endsField = true) :
    headKept (part.map Cell.byte) = true ↔
      ∀ cell ∈ lost 5 Scan.readsCommit (headed first second part),
        cell.mark ≠ none → cell.endsField = true := by
  rw [headKept, all_byte, count_byte, Bool.or_eq_true, decide_eq_true_iff]
  have hreads : Scan.readsCommit (Scan.fieldsOf 5 (headed first second part)) = true ↔
      2 ≤ part.countP Cell.endsField := by
    rw [fieldsOf_headed, Scan.readsCommit, List.length_cons, List.length_cons, length_splitn]
    simp only [Bool.not_eq_true', decide_eq_false_iff_not]
    omega
  constructor
  · rintro (hall | hcount) cell hcell hmark
    · have hmem := mem_of_mem_lost hcell
      rw [headed_eq] at hmem
      simp only [List.mem_append, List.mem_cons] at hmem
      rcases hmem with hmem | rfl | hmem | rfl | hmem
      · exact absurd (mark_of_mem_plain hmem) hmark
      · rfl
      · exact absurd (mark_of_mem_plain hmem) hmark
      · rfl
      · exact List.all_eq_true.mp hall cell hmem
    · exact absurd (mark_of_headed (hreads.mpr hcount) hcell) hmark
  · intro h
    by_cases hcount : 2 ≤ part.countP Cell.endsField
    · exact .inr hcount
    · left
      rw [List.all_eq_true]
      intro cell hcell
      cases hends : cell.endsField with
      | true => rfl
      | false =>
        have hmark : cell.mark ≠ none := fun hmark => by
          rw [hplain cell hcell hmark] at hends
          cases hends
        obtain ⟨field, hfield, hin⟩ := exists_mem_splitn 2 hcell hends
        have hlost : cell ∈ lost 5 Scan.readsCommit (headed first second part) := by
          rw [lost, if_neg (fun hread => hcount (hreads.mp hread)), fieldsOf_headed]
          refine List.mem_append_right _ (List.mem_flatten.mpr ⟨field, ?_, hin⟩)
          exact List.mem_cons_of_mem _ (List.mem_cons_of_mem _ hfield)
        exact hends.symm.trans (h cell hlost hmark)

end Parts

section Listings

variable {m : Mirror} {oid actual : Word} {commit : Commit} {tag : Tag} {content : Bytes}
  {cell : Cell} {source : Source} {index : Nat}

/-- What a log's record holds of a commit after its hash and time. -/
def Commit.cells (actual : Word) (commit : Commit) : List Cell :=
  Mirror.field (marked (.author actual) commit.author.text) ++
    (Mirror.field (marked (.committer actual) commit.committer.text) ++
      marked (.message actual) commit.message)

theorem map_byte_cells (actual : Word) (commit : Commit) :
    (commit.cells actual).map Cell.byte = commit.text := by
  simp [Commit.cells, Mirror.field, Commit.text]

theorem endsField_of_plain (h : cell ∈ commit.cells actual) (hmark : cell.mark = none) :
    cell.endsField = true := by
  simp only [Commit.cells, Mirror.field, List.mem_append, List.mem_singleton] at h
  rcases h with (h | rfl) | (h | rfl) | h
  · obtain ⟨_, hsome⟩ := mark_of_mem_marked h
    cases hmark.symm.trans hsome
  · rfl
  · obtain ⟨_, hsome⟩ := mark_of_mem_marked h
    cases hmark.symm.trans hsome
  · rfl
  · obtain ⟨_, hsome⟩ := mark_of_mem_marked h
    cases hmark.symm.trans hsome

theorem headed_free {first second : Word} :
    ∀ cell ∈ Mirror.field (plain first.text) ++ Mirror.field (plain second.text),
      cell.endsRecord = false := by
  intro cell hcell
  simp only [Mirror.field, List.mem_append, List.mem_singleton] at hcell
  rcases hcell with (hcell | rfl) | (hcell | rfl)
  · exact Word.endsRecord_eq_false hcell
  · rfl
  · exact Word.endsRecord_eq_false hcell
  · rfl

/-- The records of a headed text: the first of them headed, the others as the text has them. -/
theorem splitOnP_headed (first second : Word) (text : List Cell) :
    ∃ part later, text.splitOnP Cell.endsRecord = part :: later ∧
      (headed first second text).splitOnP Cell.endsRecord = headed first second part :: later := by
  obtain ⟨part, later, hparts⟩ := List.exists_cons_of_ne_nil
    (List.splitOnP_ne_nil Cell.endsRecord text)
  refine ⟨part, later, hparts, ?_⟩
  rw [headed, splitOnP_free_append headed_free, hparts]
  rfl

theorem splitOnP_bytes (text : List Cell) :
    (text.map Cell.byte).splitOnP (· == recordEnd) =
      (text.splitOnP Cell.endsRecord).map (List.map Cell.byte) :=
  splitOnP_map Cell.byte

/-- The framing of a commit's record loses nothing but framing exactly where its text is
framed. -/
theorem framed_iff_lost (oid actual : Word) (commit : Commit) : commit.Framed ↔
    ∀ record ∈ (headed oid commit.time (commit.cells actual)).splitOnP Cell.endsRecord,
      ∀ cell ∈ lost 5 Scan.readsCommit record, cell.mark ≠ none → cell.endsField = true := by
  obtain ⟨part, later, hparts, hrecords⟩ :=
    splitOnP_headed oid commit.time (commit.cells actual)
  have hplain (record : List Cell) (hrecord : record ∈ part :: later) (cell : Cell)
      (hcell : cell ∈ record) (hmark : cell.mark = none) : cell.endsField = true :=
    endsField_of_plain (mem_of_mem_splitOnP (hparts ▸ hrecord) hcell) hmark
  rw [Commit.Framed, ← map_byte_cells actual, splitOnP_bytes, hparts, hrecords]
  simp only [List.map_cons, List.head?_cons, Option.mem_some_iff, forall_eq', List.tail_cons,
    List.forall_mem_map, List.forall_mem_cons]
  refine and_congr (headKept_iff (hplain part List.mem_cons_self)) ?_
  refine forall_congr' fun record => forall_congr' fun hrecord => ?_
  rw [partKept_iff]
  constructor
  · exact fun h cell hcell _ => h cell hcell
  · intro h cell hcell
    by_cases hmark : cell.mark = none
    · exact hplain record (List.mem_cons_of_mem _ hrecord) cell (mem_of_mem_lost hcell) hmark
    · exact h cell hcell hmark

theorem count_headed_le (hmark : cell.mark = some (source, index)) :
    (headed oid commit.time (commit.cells actual)).count cell ≤ 1 := by
  have hne : cell.mark ≠ none := by
    rw [hmark]
    nofun
  have hend : (⟨fieldEnd, none⟩ : Cell) ≠ cell := by
    rintro rfl
    cases hmark
  have hauthor := count_marked_le (.author actual) commit.author.text cell
  have hcommitter := count_marked_le (.committer actual) commit.committer.text cell
  have hmessage := count_marked_le (.message actual) commit.message cell
  simp only [headed, Commit.cells, Mirror.field, List.count_append, List.count_singleton,
    beq_eq_false_iff_ne.mpr hend, count_plain_of_mark hne, Bool.false_eq_true, if_false]
  by_cases hfirst : source = .author actual
  · subst hfirst
    have hsecond : (marked (.committer actual) commit.committer.text).count cell = 0 :=
      count_marked_of_ne hmark nofun
    have hthird : (marked (.message actual) commit.message).count cell = 0 :=
      count_marked_of_ne hmark nofun
    omega
  · rw [count_marked_of_ne hmark hfirst]
    by_cases hsecond : source = .committer actual
    · subst hsecond
      have hthird : (marked (.message actual) commit.message).count cell = 0 :=
        count_marked_of_ne hmark nofun
      omega
    · rw [count_marked_of_ne hmark hsecond]
      omega

/-- A record of the log, without its end. -/
def logBody (m : Mirror) (oid : Word) : List Cell :=
  match m.shown oid with
  | some (actual, ⟨.commit commit, _⟩) => headed oid commit.time (commit.cells actual)
  | _ => []

theorem logBody_of_shown (h : m.shown oid = some (actual, ⟨.commit commit, content⟩)) :
    logBody m oid = headed oid commit.time (commit.cells actual) := by
  rw [logBody, h]

theorem piecesOf_nil (count : Nat) (reads : List (List Cell) → Bool)
    (h : reads [[]] = false) : piecesOf (count + 1) reads [] = [] := by
  have hfields : Scan.fieldsOf (count + 1) [] = [[]] := splitn_of_free (by simp) count
  rw [piecesOf, List.splitOnP_nil, List.flatMap_singleton, Scan.passes, hfields, h]
  rfl

theorem commits_log (m : Mirror) (walk : m.Walk) :
    Scan.commits (m.log walk) =
      walk.val.flatMap fun oid => piecesOf 5 Scan.readsCommit (logBody m oid) := by
  change piecesOf 5 Scan.readsCommit (m.log walk) = _
  rw [Mirror.log]
  induction walk.val with
  | nil => exact piecesOf_nil 4 Scan.readsCommit rfl
  | cons oid rest ih =>
    rw [List.flatMap_cons, List.flatMap_cons, ← ih]
    fun_cases logBody m oid with
    | case1 actual commit content hshown =>
      have hrecord : m.logRecord oid =
          headed oid commit.time (commit.cells actual) ++ [⟨recordEnd, none⟩] := by
        simp [Mirror.logRecord, hshown, headed, Commit.cells]
      rw [hrecord, piecesOf_record]
    | case2 hnot =>
      have hrecord : m.logRecord oid = [] := by
        rw [Mirror.logRecord]
        split
        · rename_i hshown
          exact absurd hshown (hnot _ _ _)
        · rfl
      rw [hrecord, List.nil_append, List.singleton_append, piecesOf_newline,
        piecesOf_nil 4 Scan.readsCommit rfl, List.nil_append]

/-- A record of the tags' listing, without its end. -/
def tagBody (m : Mirror) (oid : Word) : List Cell :=
  plain oid.text ++ [⟨fieldEnd, none⟩] ++ (plain (m.kindOf oid) ++ [⟨fieldEnd, none⟩]) ++
    m.contentsOf oid

theorem tags_tagsListing (m : Mirror) :
    Scan.tags m.tagsListing =
      (m.refs.filter fun ref => under Mirror.tagsNamespace ref.1).flatMap fun ref =>
        piecesOf 3 Scan.readsTag (tagBody m ref.2) := by
  change piecesOf 3 Scan.readsTag m.tagsListing = _
  rw [Mirror.tagsListing]
  induction m.refs.filter fun ref => under Mirror.tagsNamespace ref.1 with
  | nil => exact piecesOf_nil 2 Scan.readsTag rfl
  | cons ref rest ih =>
    rw [List.flatMap_cons, List.flatMap_cons, ← ih, ← piecesOf_record]
    rfl

/-- The type of a tag, as a word. -/
def tagWord : Word := ⟨ascii "tag", by decide +kernel⟩

theorem tagBody_of_shown (h : m.shown oid = some (actual, ⟨.tag tag, content⟩)) :
    tagBody m oid = headed oid tagWord (marked (.contents actual) tag.contents) := by
  have hkind : m.kindOf oid = tagWord.text := by
    rw [Mirror.kindOf, h]
    rfl
  have hcontents : m.contentsOf oid = marked (.contents actual) tag.contents := by
    rw [Mirror.contentsOf, h]
  rw [tagBody, hkind, hcontents]
  rfl

theorem readsTag_headed (part : List Cell) :
    Scan.readsTag (Scan.fieldsOf 3 (headed oid tagWord part)) = true := by
  rw [fieldsOf_headed 0, Scan.readsTag]
  have hword : (plain tagWord.text).map Cell.byte = ascii "tag" := map_byte_plain _
  simp [splitn, hword]

/-- The framing of a tag's record loses nothing but framing exactly where its contents are
framed. -/
theorem tagFramed_iff_lost (oid actual : Word) (tag : Tag) : tag.Framed ↔
    ∀ record ∈ (headed oid tagWord (marked (.contents actual) tag.contents)).splitOnP
        Cell.endsRecord,
      ∀ cell ∈ lost 3 Scan.readsTag record, cell.mark ≠ none → cell.endsField = true := by
  obtain ⟨part, later, hparts, hrecords⟩ :=
    splitOnP_headed oid tagWord (marked (.contents actual) tag.contents)
  have hbytes : tag.contents.splitOnP (· == recordEnd) =
      (part :: later).map (List.map Cell.byte) := by
    rw [← hparts, ← splitOnP_bytes, map_byte_marked]
  rw [Tag.Framed, hbytes, hrecords]
  simp only [List.map_cons, List.tail_cons, List.forall_mem_map, List.forall_mem_cons]
  constructor
  · refine fun h => ⟨fun cell hcell hmark => ?_, fun record hrecord cell hcell _ => ?_⟩
    · exact absurd (mark_of_headed (readsTag_headed part) hcell) hmark
    · exact tagPart_iff.mp (h record hrecord) cell hcell
  · rintro ⟨-, h⟩ record hrecord
    refine tagPart_iff.mpr fun cell hcell => h record hrecord cell hcell ?_
    have hmem : cell ∈ marked (.contents actual) tag.contents :=
      mem_of_mem_splitOnP (hparts ▸ List.mem_cons_of_mem _ hrecord) (mem_of_mem_lost hcell)
    obtain ⟨_, hmark⟩ := mark_of_mem_marked hmem
    rw [hmark]
    nofun

/-- What a headed record loses of its text does not depend on its head. -/
theorem mem_lost_headed_iff {first second : Word} {part : List Cell} (hmark : cell.mark ≠ none) :
    cell ∈ lost 5 Scan.readsCommit (headed first second part) ↔
      ¬ 2 ≤ part.countP Cell.endsField ∧
        ∃ field ∈ splitn Cell.endsField 3 part, cell ∈ field := by
  have hreads : Scan.readsCommit (Scan.fieldsOf 5 (headed first second part)) = true ↔
      2 ≤ part.countP Cell.endsField := by
    rw [fieldsOf_headed 2, Scan.readsCommit, List.length_cons, List.length_cons, length_splitn]
    simp only [Bool.not_eq_true', decide_eq_false_iff_not]
    omega
  have hfirst : cell ∉ plain first.text := fun hmem => hmark (mark_of_mem_plain hmem)
  have hsecond : cell ∉ plain second.text := fun hmem => hmark (mark_of_mem_plain hmem)
  constructor
  · intro hlost
    have hcount : ¬ 2 ≤ part.countP Cell.endsField :=
      fun hcount => hmark (mark_of_headed (hreads.mpr hcount) hlost)
    refine ⟨hcount, ?_⟩
    rw [lost, takeWhile_headed, if_neg fun h => hcount (hreads.mp h), List.nil_append,
      fieldsOf_headed 2] at hlost
    simpa [hfirst, hsecond] using hlost
  · rintro ⟨hcount, field, hfield, hcell⟩
    rw [lost, if_neg fun h => hcount (hreads.mp h), fieldsOf_headed 2]
    refine List.mem_append_right _ (List.mem_flatten.mpr ⟨field, ?_, hcell⟩)
    exact List.mem_cons_of_mem _ (List.mem_cons_of_mem _ hfield)

theorem exists_lost_headed {first second other : Word} {text : List Cell}
    (hmark : cell.mark ≠ none)
    (h : ∃ record ∈ (headed first second text).splitOnP Cell.endsRecord,
      cell ∈ lost 5 Scan.readsCommit record) :
    ∃ record ∈ (headed other second text).splitOnP Cell.endsRecord,
      cell ∈ lost 5 Scan.readsCommit record := by
  obtain ⟨part, later, hparts, hrecords⟩ := splitOnP_headed first second text
  obtain ⟨part', later', hparts', hrecords'⟩ := splitOnP_headed other second text
  obtain ⟨rfl, rfl⟩ := List.cons.inj (hparts.symm.trans hparts')
  rw [hrecords] at h
  rw [hrecords']
  obtain ⟨record, hrecord, hlost⟩ := h
  rcases List.mem_cons.mp hrecord with rfl | hlater
  · refine ⟨_, List.mem_cons_self, ?_⟩
    rw [mem_lost_headed_iff hmark] at hlost ⊢
    exact hlost
  · exact ⟨record, List.mem_cons_of_mem _ hlater, hlost⟩

end Listings

end Onevcs.Audit
