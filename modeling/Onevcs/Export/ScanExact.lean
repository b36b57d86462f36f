import Onevcs.Export.Extract

/-!
# Scanning hides no text

Every text of four characters or more that is written in the bytes of a layer, in UTF-8 or in UTF-16
of either byte order, is within a text that `scan` hands on; and whatever part of a text handed on
a match spans, `content_at` names the byte where that part is written.
-/

namespace Onevcs.Export

open Foundations (Code Endian Run Text readUtf8 readUtf16 utf8_lawful utf16_lawful)

theorem utf8_next_eq {bytes : Bytes} : Foundations.utf8.next bytes =
    match readUtf8 bytes with
    | .char c width => (some c, width)
    | .invalid length => (none, length)
    | .truncated => (none, bytes.length) := rfl

/-- What is found valid is written out, and what follows it reads as no character. -/
theorem fromUtf8At_spec {fuel position : ℕ} {bytes : Bytes} (hfuel : bytes.length ≤ fuel) :
    (∀ text, fromUtf8At fuel position bytes = .ok text → bytes = Foundations.utf8.encodeAll text) ∧
    ∀ error, fromUtf8At fuel position bytes = .error error →
      ∃ text rest, bytes = Foundations.utf8.encodeAll text ++ rest ∧ rest ≠ [] ∧
        error.validUpTo = position + (Foundations.utf8.encodeAll text).length ∧
        Foundations.utf8.next rest = (none, error.errorLen.getD rest.length) := by
  induction fuel generalizing position bytes with
  | zero =>
    obtain rfl := List.eq_nil_of_length_eq_zero (Nat.le_zero.mp hfuel)
    refine ⟨fun text htext => ?_, fun error herror => ?_⟩
    · cases htext
      rfl
    · cases herror
  | succ fuel ih =>
    rw [fromUtf8At]
    by_cases hempty : bytes = []
    · subst hempty
      refine ⟨fun text htext => ?_, fun error herror => ?_⟩
      · cases htext
        rfl
      · cases herror
    rw [if_neg (by simpa using hempty)]
    cases hread : readUtf8 bytes with
    | char c width =>
      obtain ⟨rest, hbytes, hwidth⟩ := Foundations.encode_of_read hread
      have hdrop : bytes.drop width = rest := by rw [hbytes, hwidth, List.drop_left]
      have hpos : 0 < width := by
        rw [hwidth]
        exact Nat.lt_of_lt_of_le utf8_lawful.stride_pos (utf8_lawful.stride_le c)
      have hrest : rest.length ≤ fuel := by
        rw [hbytes, List.length_append] at hfuel
        omega
      obtain ⟨hok, herror⟩ := @ih (position + width) rest hrest
      simp only [hdrop]
      cases hmore : fromUtf8At fuel (position + width) rest with
      | ok more =>
        refine ⟨fun text htext => ?_, fun error hfails => ?_⟩
        · obtain rfl : c :: more = text := Except.ok.inj htext
          rw [hbytes, hok more hmore, Code.encodeAll_cons]
        · cases hfails
      | error found =>
        refine ⟨fun text htext => ?_, fun error hfails => ?_⟩
        · cases htext
        · obtain rfl : found = error := Except.error.inj hfails
          obtain ⟨text, after, hafter, hne, hvalid, hnext⟩ := herror found hmore
          refine ⟨c :: text, after, ?_, hne, ?_, hnext⟩
          · rw [hbytes, hafter, Code.encodeAll_cons, List.append_assoc]
          · rw [hvalid, hwidth, Code.encodeAll_cons, List.length_append, Nat.add_assoc]
    | invalid length =>
      refine ⟨fun text htext => ?_, fun error herror => ?_⟩
      · cases htext
      · cases herror
        exact ⟨[], bytes, rfl, hempty, rfl, by rw [utf8_next_eq, hread]; rfl⟩
    | truncated =>
      refine ⟨fun text htext => ?_, fun error herror => ?_⟩
      · cases htext
      · cases herror
        exact ⟨[], bytes, rfl, hempty, rfl, by rw [utf8_next_eq, hread]; rfl⟩

theorem fromUtf8At_encodeAll {fuel position : ℕ} {text : Text}
    (hfuel : (Foundations.utf8.encodeAll text).length ≤ fuel) :
    fromUtf8At fuel position (Foundations.utf8.encodeAll text) = .ok text := by
  induction text generalizing fuel position with
  | nil =>
    cases fuel <;> rfl
  | cons c text ih =>
    have hstride : 1 ≤ (Foundations.utf8.encode c).length := utf8_lawful.stride_le c
    rw [Code.encodeAll_cons, List.length_append] at hfuel
    obtain ⟨fuel, rfl⟩ : ∃ less, fuel = less + 1 := ⟨fuel - 1, by omega⟩
    have hne : ¬ (Foundations.utf8.encode c ++ Foundations.utf8.encodeAll text).isEmpty = true := by
      rw [List.isEmpty_iff, List.append_eq_nil_iff, ← List.length_eq_zero_iff]
      omega
    rw [Code.encodeAll_cons, fromUtf8At, if_neg hne]
    simp only [Foundations.read_encode, List.drop_left]
    rw [ih (by omega)]
    rfl

theorem fromUtf8_ok_iff {bytes : Bytes} {text : Text} :
    fromUtf8 bytes = .ok text ↔ bytes = Foundations.utf8.encodeAll text := by
  constructor
  · exact (fromUtf8At_spec (Nat.le_refl _)).1 text
  · rintro rfl
    exact fromUtf8At_encodeAll (Nat.le_refl _)

theorem fromUtf8_error {bytes : Bytes} {error : Utf8Error} (h : fromUtf8 bytes = .error error) :
    ∃ text rest, bytes = Foundations.utf8.encodeAll text ++ rest ∧ rest ≠ [] ∧
      error.validUpTo = (Foundations.utf8.encodeAll text).length ∧
      Foundations.utf8.next rest = (none, error.errorLen.getD rest.length) := by
  obtain ⟨text, rest, hbytes, hne, hvalid, hnext⟩ :=
    (fromUtf8At_spec (Nat.le_refl bytes.length)).2 error h
  exact ⟨text, rest, hbytes, hne, by rw [hvalid, Nat.zero_add], hnext⟩

/-! ## The loops find the runs -/

/-- The characters that make runs. -/
def isPrintable (c : Char) : Bool := !isControl c

/-- A run, as the matcher is handed it. -/
def handed (path : Text) (encoding : Encoding) (run : Run Char) : Check :=
  ⟨.content, ⟨path, run.start, encoding⟩, run.symbols⟩

theorem flush_eq {path : Text} {offset : ℕ} {encoding : Encoding} {run : Text} :
    flush path offset run.length encoding run =
      (Run.close 4 ⟨offset, run⟩).map (handed path encoding) := by
  rw [flush, Run.close]
  split <;> rfl

section Loops

variable {path : Text}

/-- A run is handed on as it is closed; where an empty one would start is nothing to either. -/
theorem flush_of_found {encoding : Encoding} {start : ℕ} {run : Text} {found : Run Char}
    (hsymbols : found.symbols = run) (hstart : run ≠ [] → found.start = start) :
    flush path start run.length encoding run = (found.close 4).map (handed path encoding) := by
  obtain ⟨first, symbols⟩ := found
  obtain rfl : symbols = run := hsymbols
  by_cases hrun : symbols = []
  · subst hrun
    rfl
  · obtain rfl : first = start := hstart hrun
    exact flush_eq

theorem utf16Loop_eq {endian : Endian} {fuel offset start : ℕ} {rest : Bytes} {run : Text}
    {found : Run Char} (hsymbols : found.symbols = run) (hstart : run ≠ [] → found.start = start) :
    utf16Loop path endian fuel offset rest start run.length run =
      ((Foundations.utf16 endian).scan isPrintable 4 fuel offset rest found).map
        (handed path (.utf16 endian)) := by
  induction fuel generalizing offset start rest run found with
  | zero => exact flush_of_found hsymbols hstart
  | succ fuel ih =>
    rw [utf16Loop, Code.scan]
    have hstride : (Foundations.utf16 endian).stride = 2 := rfl
    have hnext : (Foundations.utf16 endian).next rest = readUtf16 endian rest := rfl
    have hkeeps : (fun character => !isControl character) = isPrintable := rfl
    simp only [hstride, hnext, hkeeps]
    split
    · exact flush_of_found hsymbols hstart
    · cases (readUtf16 endian rest).1.filter isPrintable with
      | some character =>
        have hlength : run.length + 1 = (run ++ [character]).length := by simp
        simp only [hlength]
        refine ih (by rw [Run.push, hsymbols]) fun _ => ?_
        rw [Run.push, hsymbols]
        by_cases hrun : run = []
        · simp [hrun]
        · simp [hrun, hstart hrun]
      | none =>
        simp only [List.map_append]
        rw [flush_of_found hsymbols hstart]
        have hempty : ∀ next : Run Char, next.symbols = [] →
            utf16Loop path endian fuel (offset + (readUtf16 endian rest).2)
                (rest.drop (readUtf16 endian rest).2) start ([] : Text).length [] =
              ((Foundations.utf16 endian).scan isPrintable 4 fuel
                (offset + (readUtf16 endian rest).2) (rest.drop (readUtf16 endian rest).2)
                next).map (handed path (.utf16 endian)) :=
          fun next hnext => ih hnext fun hne => absurd rfl hne
        exact congrArg _ (hempty _ rfl)

theorem utf16_eq {endian : Endian} {bytes : Bytes} {alignment : ℕ} :
    utf16 path bytes alignment endian =
      ((Foundations.utf16 endian).scan isPrintable 4 bytes.length alignment (bytes.drop alignment)
        ⟨alignment, []⟩).map (handed path (.utf16 endian)) := by
  have hempty : ∀ next : Run Char, next.symbols = [] →
      utf16Loop path endian bytes.length alignment (bytes.drop alignment) alignment
          ([] : Text).length [] =
        ((Foundations.utf16 endian).scan isPrintable 4 bytes.length alignment
          (bytes.drop alignment) next).map (handed path (.utf16 endian)) :=
    fun next hnext => utf16Loop_eq hnext fun hne => absurd rfl hne
  exact hempty _ rfl

/-- The scan from a place where no character stands, if there is any place left. -/
theorem scan_no_character {fuel fuel' offset : ℕ} {rest : Bytes} {found : Run Char}
    (hfuel : rest.length ≤ fuel) (hfuel' : rest.length ≤ fuel')
    (hrest : rest = [] ∨ (Foundations.utf8.next rest).1 = none) :
    Foundations.utf8.scan isPrintable 4 fuel offset rest found =
      found.close 4 ++ Foundations.utf8.scan isPrintable 4 fuel'
        (offset + (Foundations.utf8.next rest).2) (rest.drop (Foundations.utf8.next rest).2)
        ⟨offset + (Foundations.utf8.next rest).2, []⟩ := by
  have hend : ([] : Bytes).length < Foundations.utf8.stride := utf8_lawful.stride_pos
  obtain rfl | hnone := hrest
  · rw [Code.scan_of_lt hend, List.drop_nil, Code.scan_of_lt hend]
    exact (List.append_nil _).symm
  · by_cases hne : rest = []
    · subst hne
      rw [Code.scan_of_lt hend, List.drop_nil, Code.scan_of_lt hend]
      exact (List.append_nil _).symm
    · have hlength : Foundations.utf8.stride ≤ rest.length := List.length_pos_iff.mpr hne
      have hpos := utf8_lawful.width_pos hlength
      have hstride : Foundations.utf8.stride = 1 := rfl
      obtain ⟨fuel, rfl⟩ : ∃ less, fuel = less + 1 := ⟨fuel - 1, by omega⟩
      have hnext : Foundations.utf8.next rest = (none, (Foundations.utf8.next rest).2) :=
        Prod.ext hnone rfl
      rw [Code.scan_skip hlength hnext rfl]
      refine congrArg _ (utf8_lawful.scan_fuel ?_ ?_)
      all_goals
        rw [List.length_drop]
        omega

/-- The loop of `utf8` hands on the runs of a text that no character follows, and the scan goes on
after it. -/
theorem utf8Loop_eq {base start offset fuel fuel' : ℕ} {run text : Text} {rest : Bytes}
    {found : Run Char} (hsymbols : found.symbols = run) (hstart : found.start = base + start)
    (hempty : run = [] → start = offset)
    (hfuel : (Foundations.utf8.encodeAll text ++ rest).length ≤ fuel) (hfuel' : rest.length ≤ fuel')
    (hrest : rest = [] ∨ (Foundations.utf8.next rest).1 = none) :
    (Foundations.utf8.scan isPrintable 4 fuel (base + offset)
        (Foundations.utf8.encodeAll text ++ rest) found).map (handed path .utf8) =
      utf8Loop path base start run.length offset run text ++
        (Foundations.utf8.scan isPrintable 4 fuel'
          (base + offset + (Foundations.utf8.encodeAll text).length + (Foundations.utf8.next rest).2)
          (rest.drop (Foundations.utf8.next rest).2)
          ⟨base + offset + (Foundations.utf8.encodeAll text).length + (Foundations.utf8.next rest).2,
            []⟩).map (handed path .utf8) := by
  induction text generalizing start offset fuel run found with
  | nil =>
    rw [Code.encodeAll_nil, List.nil_append, scan_no_character (by simpa using hfuel) hfuel' hrest,
      List.map_append, utf8Loop, flush_of_found hsymbols fun _ => hstart]
    rfl
  | cons character text ih =>
    have hstride : 1 ≤ (Foundations.utf8.encode character).length :=
      utf8_lawful.stride_le character
    have hsize : (Foundations.utf8.encode character).length = character.utf8Size :=
      String.length_utf8EncodeChar character
    rw [Code.encodeAll_cons, List.append_assoc, List.length_append] at hfuel
    obtain ⟨fuel, rfl⟩ : ∃ less, fuel = less + 1 := ⟨fuel - 1, by omega⟩
    have hlength : Foundations.utf8.stride ≤ (Foundations.utf8.encode character ++
        (Foundations.utf8.encodeAll text ++ rest)).length := by
      rw [List.length_append]
      exact Nat.le_add_right_of_le hstride
    have hmore : (Foundations.utf8.encodeAll text ++ rest).length ≤ fuel := by omega
    have hplace : base + offset +
        (Foundations.utf8.encode character ++ Foundations.utf8.encodeAll text).length =
          base + (offset + character.utf8Size) + (Foundations.utf8.encodeAll text).length := by
      rw [List.length_append, hsize]
      omega
    rw [Code.encodeAll_cons, List.append_assoc, utf8Loop, hplace]
    split
    case isTrue hcontrol =>
      have hskip : (some character).filter isPrintable = none := by
        simp [isPrintable, hcontrol]
      have hnext : ∀ next : Run Char, next.symbols = [] →
          next.start = base + (offset + character.utf8Size) → _ := fun next hnil hplace =>
        ih hnil hplace (fun _ => rfl) hmore
      rw [Code.scan_skip hlength (utf8_lawful.next_encode _ _) hskip, List.drop_left, hsize,
        Nat.add_assoc base offset, List.map_append, List.append_assoc,
        flush_of_found hsymbols fun _ => hstart, hnext _ rfl rfl]
      rfl
    case isFalse hprintable =>
      have hkeeps : isPrintable character = true := by simpa [isPrintable] using hprintable
      have hcount : run.length + 1 = (run ++ [character]).length := by simp
      have hpushed : (found.push (base + offset) character).symbols = run ++ [character] := by
        rw [Run.push, hsymbols]
      have hkept : (found.push (base + offset) character).start = base + start := by
        rw [Run.push, hsymbols]
        by_cases hrun : run = []
        · simp [hrun, hempty hrun]
        · simp [hrun, hstart]
      rw [Code.scan_keep hlength (utf8_lawful.next_encode _ _) hkeeps, List.drop_left, hsize,
        Nat.add_assoc base offset, hcount,
        ih hpushed hkept (fun hnil => absurd hnil (by simp)) hmore]

theorem utf8_eq {offset fuel fuel' : ℕ} {text : Text} {after : Bytes}
    (hfuel : (Foundations.utf8.encodeAll text ++ after).length ≤ fuel) (hfuel' : after.length ≤ fuel')
    (hafter : after = [] ∨ (Foundations.utf8.next after).1 = none) :
    (Foundations.utf8.scan isPrintable 4 fuel offset (Foundations.utf8.encodeAll text ++ after)
        ⟨offset, []⟩).map (handed path .utf8) =
      utf8 path text offset ++
        (Foundations.utf8.scan isPrintable 4 fuel'
          (offset + (Foundations.utf8.encodeAll text).length + (Foundations.utf8.next after).2)
          (after.drop (Foundations.utf8.next after).2)
          ⟨offset + (Foundations.utf8.encodeAll text).length + (Foundations.utf8.next after).2,
            []⟩).map (handed path .utf8) :=
  @utf8Loop_eq path offset 0 0 fuel fuel' [] text after ⟨offset, []⟩ rfl rfl (fun _ => rfl) hfuel
    hfuel' hafter

/-- The loop of `scan` hands on the runs, stretch after stretch. -/
theorem stretches_eq {fuel offset : ℕ} {rest : Bytes} (hfuel : rest.length ≤ fuel) :
    stretches path fuel offset rest =
      (Foundations.utf8.scan isPrintable 4 rest.length offset rest ⟨offset, []⟩).map
        (handed path .utf8) := by
  induction fuel generalizing offset rest with
  | zero =>
    obtain rfl := List.eq_nil_of_length_eq_zero (Nat.le_zero.mp hfuel)
    rfl
  | succ fuel ih =>
    rw [stretches]
    by_cases hempty : rest = []
    · subst hempty
      rfl
    rw [if_neg (by simpa using hempty)]
    cases hread : fromUtf8 rest with
    | ok text =>
      have hend : ([] : Bytes).length < Foundations.utf8.stride := utf8_lawful.stride_pos
      obtain rfl := fromUtf8_ok_iff.mp hread
      have hutf8 := @utf8_eq path offset (Foundations.utf8.encodeAll text).length 0 text []
        (by rw [List.append_nil]) (Nat.le_refl _) (.inl rfl)
      rw [List.append_nil, List.drop_nil, Code.scan_of_lt hend] at hutf8
      rw [hutf8]
      exact (List.append_nil _).symm
    | error error =>
      obtain ⟨text, after, hrest, hne, hvalid, hnext⟩ := fromUtf8_error hread
      have htake : fromUtf8 (rest.take error.validUpTo) = .ok text := by
        rw [hrest, hvalid, List.take_left, fromUtf8_ok_iff]
      have hstep : error.validUpTo + error.errorLen.getD (rest.length - error.validUpTo) =
          (Foundations.utf8.encodeAll text).length + (Foundations.utf8.next after).2 := by
        rw [hnext, hvalid, hrest, List.length_append, Nat.add_sub_cancel_left]
      have hdrop : rest.drop ((Foundations.utf8.encodeAll text).length +
          (Foundations.utf8.next after).2) = after.drop (Foundations.utf8.next after).2 := by
        rw [hrest, ← List.drop_drop, List.drop_left]
      have hpos := utf8_lawful.width_pos (List.length_pos_iff.mpr hne)
      have hless : (after.drop (Foundations.utf8.next after).2).length ≤ fuel := by
        rw [hrest, List.length_append] at hfuel
        rw [List.length_drop]
        omega
      have hshorter : (after.drop (Foundations.utf8.next after).2).length ≤ after.length := by
        rw [List.length_drop]
        exact Nat.sub_le _ _
      simp only [htake, hstep, hdrop]
      rw [ih hless, ← Nat.add_assoc offset, utf8_lawful.scan_fuel (Nat.le_refl _) hshorter, hrest,
        utf8_eq (Nat.le_refl _) (Nat.le_refl _) (.inr (by rw [hnext]))]

end Loops

/-! ## Every text is handed on, and located where it is written -/

/-- How an encoding writes text. -/
def Encoding.code : Encoding → Code UInt8 Char
  | .utf8 => Foundations.utf8
  | .utf16 endian => Foundations.utf16 endian

theorem Encoding.code_lawful (encoding : Encoding) : encoding.code.Lawful := by
  cases encoding with
  | utf8 => exact utf8_lawful
  | utf16 endian => exact utf16_lawful endian

/-- The bytes stand in others at a place. -/
def OccursAt (bytes part : Bytes) (offset : ℕ) : Prop :=
  ∃ before after, bytes = before ++ (part ++ after) ∧ before.length = offset

/-- The length of a text in bytes, which is how a match's span counts. -/
def byteLength (text : Text) : ℕ := (text.map Char.utf8Size).sum

theorem byteLength_eq (text : Text) :
    byteLength text = (Foundations.utf8.encodeAll text).length := by
  induction text with
  | nil => rfl
  | cons c text ih =>
    have hsize : (Foundations.utf8.encode c).length = c.utf8Size := String.length_utf8EncodeChar c
    rw [Code.encodeAll_cons, List.length_append, ← ih, hsize]
    rfl

theorem sliceTo_append (pre rest : Text) : sliceTo (pre ++ rest) (byteLength pre) = pre := by
  induction pre with
  | nil => cases rest <;> rfl
  | cons c pre ih =>
    have hpos := Char.utf8Size_pos c
    have hlength : byteLength (c :: pre) = c.utf8Size + byteLength pre := rfl
    rw [hlength, List.cons_append, sliceTo, if_neg (by omega), Nat.add_sub_cancel_left, ih]

theorem utf16Count_eq (endian : Endian) (text : Text) :
    utf16Count text * 2 = ((Foundations.utf16 endian).encodeAll text).length := by
  have hunit : ∀ c : Char, (if c.toNat < 0x10000 then 1 else 2) * 2 =
      ((Foundations.utf16 endian).encode c).length := by
    intro c
    have hbytes : ∀ u, (endian.bytes u).length = 2 := by
      intro u
      cases endian <;> rfl
    have hencode : (Foundations.utf16 endian).encode c = Foundations.writeUtf16 endian c := rfl
    rw [hencode, Foundations.writeUtf16]
    split
    · rw [hbytes]
    · rw [List.length_append, hbytes, hbytes]
  induction text with
  | nil => rfl
  | cons c text ih =>
    rw [Code.encodeAll_cons, List.length_append, ← ih, ← hunit, utf16Count, utf16Count,
      List.map_cons, List.sum_cons, Nat.add_mul]

/-- A match that starts after a part of a text lies as far into its run as the part is written. -/
theorem displacement_eq (encoding : Encoding) (pre rest : Text) :
    displacement encoding (pre ++ rest) (byteLength pre) = (encoding.code.encodeAll pre).length := by
  cases encoding with
  | utf8 => exact byteLength_eq pre
  | utf16 endian =>
    rw [displacement, sliceTo_append]
    exact utf16Count_eq endian pre

theorem mem_scan {path : Text} {bytes : Bytes} {check : Check} : check ∈ scan path bytes ↔
    (∃ text, whole bytes = some text ∧ check = ⟨.content, ⟨path, 0, .utf8⟩, text⟩) ∨
    (whole bytes = none ∧ check ∈ stretches path bytes.length 0 bytes) ∨
    ∃ endian, ∃ alignment < 2, check ∈ utf16 path bytes alignment endian := by
  have hutf16 : check ∈ ([Endian.little, Endian.big].flatMap fun endian =>
      [0, 1].flatMap fun alignment => utf16 path bytes alignment endian) ↔
        ∃ endian, ∃ alignment < 2, check ∈ utf16 path bytes alignment endian := by
    rw [List.mem_flatMap]
    constructor
    · rintro ⟨endian, -, hcheck⟩
      obtain ⟨alignment, halignment, hcheck⟩ := List.mem_flatMap.mp hcheck
      refine ⟨endian, alignment, ?_, hcheck⟩
      rw [List.mem_pair] at halignment
      omega
    · rintro ⟨endian, alignment, halignment, hcheck⟩
      refine ⟨endian, by cases endian <;> simp, List.mem_flatMap.mpr ⟨alignment, ?_, hcheck⟩⟩
      rw [List.mem_pair]
      omega
  rw [scan, List.mem_append, hutf16, ← or_assoc]
  refine or_congr_left ?_
  cases whole bytes with
  | some text => simp
  | none => simp

theorem eq_of_whole {bytes : Bytes} {text : Text} (hwhole : whole bytes = some text) :
    bytes = Foundations.utf8.encodeAll text := by
  rw [whole] at hwhole
  split at hwhole
  case h_1 read hread =>
    obtain ⟨-, heq⟩ := Option.ite_none_left_eq_some.mp hwhole
    rw [← Option.some.inj heq]
    exact fromUtf8_ok_iff.mp hread
  case h_2 => cases hwhole

theorem run_of_mem_scan {path : Text} {bytes : Bytes} {check : Check}
    (hcheck : check ∈ scan path bytes) :
    (∃ text, whole bytes = some text ∧ check = ⟨.content, ⟨path, 0, .utf8⟩, text⟩) ∨
    ∃ encoding : Encoding, ∃ alignment ≤ bytes.length, ∃ fuel found,
      found ∈ encoding.code.scan isPrintable 4 fuel alignment (bytes.drop alignment)
        ⟨alignment, []⟩ ∧ handed path encoding found = check := by
  obtain hwhole | ⟨-, hutf8⟩ | ⟨endian, alignment, halignment, hutf16⟩ := mem_scan.mp hcheck
  · exact .inl hwhole
  · rw [stretches_eq (Nat.le_refl _)] at hutf8
    obtain ⟨found, hfound, hcheck⟩ := List.mem_map.mp hutf8
    exact .inr ⟨.utf8, 0, Nat.zero_le _, _, found, hfound, hcheck⟩
  · rw [utf16_eq] at hutf16
    obtain ⟨found, hfound, hcheck⟩ := List.mem_map.mp hutf16
    refine .inr ⟨.utf16 endian, alignment, ?_, _, found, hfound, hcheck⟩
    by_contra hover
    -- no byte is left at the alignment, and no run either
    have hnil : bytes.drop alignment = [] := List.drop_eq_nil_of_le (by omega)
    have hend : ([] : Bytes).length < (Foundations.utf16 endian).stride :=
      (utf16_lawful endian).stride_pos
    rw [hnil, Code.scan_of_lt hend] at hfound
    cases hfound

/-- Whatever part of a text that is handed on a match spans, it is written where the match is
located. -/
theorem scan_exact {path : Text} {bytes : Bytes} {check : Check} (hcheck : check ∈ scan path bytes)
    {pre part post : Text} (htext : check.text = pre ++ part ++ post) :
    ∃ offset, contentAt check.location check.text (byteLength pre) =
        locationText path check.location.encoding offset ∧
      OccursAt bytes (check.location.encoding.code.encodeAll part) offset := by
  obtain ⟨text, hwhole, rfl⟩ | ⟨encoding, alignment, hle, fuel, found, hfound, rfl⟩ :=
    run_of_mem_scan hcheck
  · obtain rfl : text = pre ++ part ++ post := htext
    have hbytes := eq_of_whole hwhole
    refine ⟨byteLength pre, ?_, Foundations.utf8.encodeAll pre, Foundations.utf8.encodeAll post, ?_,
      (byteLength_eq pre).symm⟩
    · rw [contentAt, displacement, Nat.zero_add]
    · rw [hbytes, Code.encodeAll_append, Code.encodeAll_append, List.append_assoc]
      rfl
  · have htake : (bytes.take alignment).length = alignment := List.length_take_of_le hle
    have hfound : found ∈ encoding.code.scan isPrintable 4 fuel (bytes.take alignment).length
        (bytes.drop alignment) ⟨alignment, []⟩ := by rwa [htake]
    obtain ⟨front, rest, hfront, hstart⟩ :=
      encoding.code_lawful.scan_sound (by decide) (Code.ends_nil _ _) hfound
    have hsymbols : found.symbols = pre ++ (part ++ post) := by
      rw [← List.append_assoc]
      exact htext
    rw [List.take_append_drop, hsymbols] at hfront
    refine ⟨found.start + (encoding.code.encodeAll pre).length, ?_,
      front ++ encoding.code.encodeAll pre, encoding.code.encodeAll post ++ rest, ?_, ?_⟩
    · rw [handed, contentAt, hsymbols, displacement_eq]
    · rw [hfront, Code.encodeAll_append, Code.encodeAll_append]
      simp only [handed, List.append_assoc]
    · rw [List.length_append, hstart]

/-- A run of an encoding's code holds every text that is written at a place the code reads. -/
theorem run_of_occurs (path : Text) {bytes before after : Bytes} {encoding : Encoding} {text : Text}
    {alignment fuel : ℕ} (hlong : 4 ≤ text.length) (hprintable : ∀ c ∈ text, isControl c = false)
    (hbytes : bytes = before ++ (encoding.code.encodeAll text ++ after))
    (hle : alignment ≤ before.length) (haligned : encoding.code.stride ∣ before.length - alignment)
    (hfuel : bytes.length - alignment ≤ fuel) :
    ∃ check ∈ (encoding.code.scan isPrintable 4 fuel alignment (bytes.drop alignment)
        ⟨alignment, []⟩).map (handed path encoding),
      check.location.encoding = encoding ∧ ∃ pre post, check.text = pre ++ text ++ post ∧
        contentAt check.location check.text (byteLength pre) =
          locationText path encoding before.length := by
  have htake : (before.take alignment).length = alignment := List.length_take_of_le hle
  have hdrop : bytes.drop alignment =
      before.drop alignment ++ (encoding.code.encodeAll text ++ after) := by
    rw [hbytes, List.drop_append_of_le_length hle]
  have hkeeps : ∀ c ∈ text, isPrintable c = true := fun c hc => by
    rw [isPrintable, hprintable c hc]
    rfl
  have hlength : (before.drop alignment ++ (encoding.code.encodeAll text ++ after)).length ≤ fuel := by
    rwa [← hdrop, List.length_drop]
  obtain ⟨found, hfound, pre, post, hsymbols, hstart⟩ :=
    encoding.code_lawful.scan_complete (by decide) hlong hkeeps
      (Code.ends_nil (before.take alignment) alignment) (by rwa [List.length_drop]) hlength
  rw [htake, ← hdrop] at hfound
  refine ⟨handed path encoding found, List.mem_map_of_mem hfound, rfl, pre, post, hsymbols, ?_⟩
  rw [List.take_append_drop] at hstart
  simp only [handed, contentAt]
  rw [hsymbols, List.append_assoc, displacement_eq, hstart]

/-- Every text of four characters or more, none of them a control character, that is written in the
bytes is within a text that is handed on, and located where it is written. -/
theorem scan_complete {path : Text} {bytes : Bytes} {encoding : Encoding} {text : Text} {offset : ℕ}
    (hlong : 4 ≤ text.length) (hprintable : ∀ c ∈ text, isControl c = false)
    (hoccurs : OccursAt bytes (encoding.code.encodeAll text) offset) :
    ∃ check ∈ scan path bytes, check.location.encoding = encoding ∧ ∃ pre post,
      check.text = pre ++ text ++ post ∧
      contentAt check.location check.text (byteLength pre) = locationText path encoding offset := by
  obtain ⟨before, after, hbytes, rfl⟩ := hoccurs
  cases encoding with
  | utf8 =>
    cases hwhole : whole bytes with
    | some all =>
      have hne : text ≠ [] := List.length_pos_iff.mp (by omega)
      obtain ⟨pre, post, rfl, hpre⟩ := utf8_lawful.infix_of_encodeAll hne (Nat.one_dvd _)
        ((eq_of_whole hwhole).symm.trans hbytes)
      refine ⟨_, mem_scan.mpr (.inl ⟨_, hwhole, rfl⟩), rfl, pre, post, rfl, ?_⟩
      rw [contentAt, displacement, byteLength_eq, hpre, Nat.zero_add]
    | none =>
      obtain ⟨check, hcheck, hrest⟩ := run_of_occurs path hlong hprintable hbytes
        (Nat.zero_le _) (Nat.one_dvd _) (Nat.le_refl _)
      refine ⟨check, mem_scan.mpr (.inr (.inl ⟨hwhole, ?_⟩)), hrest⟩
      rw [stretches_eq (Nat.le_refl _)]
      exact hcheck
  | utf16 endian =>
    have hle : before.length % 2 ≤ before.length := Nat.mod_le _ _
    obtain ⟨check, hcheck, hrest⟩ := run_of_occurs path hlong hprintable hbytes hle
      (Nat.dvd_sub_mod _) (Nat.sub_le _ _)
    refine ⟨check, mem_scan.mpr (.inr (.inr ⟨endian, before.length % 2, ?_, ?_⟩)), hrest⟩
    · exact Nat.mod_lt _ Nat.two_pos
    · rw [utf16_eq]
      exact hcheck

end Onevcs.Export
