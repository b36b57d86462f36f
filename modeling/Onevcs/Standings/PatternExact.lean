import Onevcs.Foundations.Framing
import Onevcs.Foundations.Wildcards
import Onevcs.Standings.Pattern

/-!
# Branch patterns against their reference

The reference of a branch pattern compares the pattern and the name segment by segment: a run of
stars takes any characters of one segment, and a `**/` that begins a segment takes whole segments.

A pattern here is read by its own grammar, where any other `**` crosses segments. It answers as the
reference does where each `**` of the pattern is a `**/` that begins a segment.
-/

namespace Onevcs.Standings

open Foundations (Piece Spells Text anything)

/-- What a pattern matches, token by token: a `*` takes characters of one segment, `**/` nothing or
whole segments, and any other `**` anything. -/
def Spelled : List Token → Text → Prop
  | [], name => name = []
  | .literal c :: rest, name => ∃ tail, name = c :: tail ∧ Spelled rest tail
  | .one :: rest, name => ∃ c tail, name = c :: tail ∧ c ≠ '/' ∧ Spelled rest tail
  | .class ranges negated :: rest, name =>
    ∃ c tail, name = c :: tail ∧ c ≠ '/' ∧ inClass ranges negated c = true ∧ Spelled rest tail
  | .segment :: rest, name => ∃ taken left, name = taken ++ left ∧ '/' ∉ taken ∧ Spelled rest left
  | .anything :: rest, name => ∃ taken left, name = taken ++ left ∧ Spelled rest left
  | .segments :: rest, name => ∃ taken left, name = taken ++ left ∧
      (taken = [] ∨ taken.getLast? = some '/') ∧ Spelled rest left

variable {name left : Text} {tokens rest : List Token}

theorem mem_withinSegment : left ∈ withinSegment name ↔
    ∃ taken, name = taken ++ left ∧ '/' ∉ taken := by
  induction name with
  | nil =>
    simp only [withinSegment, List.mem_singleton]
    constructor
    · rintro rfl
      exact ⟨[], rfl, List.not_mem_nil⟩
    · rintro ⟨taken, heq, -⟩
      exact (List.append_eq_nil_iff.mp heq.symm).2
  | cons c name ih =>
    rw [withinSegment, List.mem_cons]
    constructor
    · rintro (rfl | hleft)
      · exact ⟨[], rfl, List.not_mem_nil⟩
      · split at hleft
        case isTrue => cases hleft
        case isFalse hslash =>
          obtain ⟨taken, rfl, hfree⟩ := ih.mp hleft
          refine ⟨c :: taken, rfl, ?_⟩
          rw [List.mem_cons, not_or]
          exact ⟨Ne.symm hslash, hfree⟩
    · rintro ⟨taken, heq, hfree⟩
      cases taken with
      | nil => exact .inl heq.symm
      | cons d taken =>
        obtain ⟨rfl, rfl⟩ := List.cons.inj heq
        rw [List.mem_cons, not_or] at hfree
        rw [if_neg (Ne.symm hfree.1)]
        exact .inr (ih.mpr ⟨taken, rfl, hfree.2⟩)

theorem mem_afterSlashes : left ∈ afterSlashes name ↔ ∃ before, name = before ++ '/' :: left := by
  induction name with
  | nil => simp [afterSlashes]
  | cons c name ih =>
    have hlater : left ∈ afterSlashes name ↔ ∃ before, c :: name = c :: before ++ '/' :: left := by
      rw [ih]
      simp
    rw [afterSlashes]
    split
    case isTrue hslash =>
      rw [List.mem_cons, hlater]
      constructor
      · rintro (rfl | ⟨before, heq⟩)
        · exact ⟨[], by rw [hslash]; rfl⟩
        · exact ⟨_, heq⟩
      · rintro ⟨before, heq⟩
        cases before with
        | nil => exact .inl (List.cons.inj heq).2.symm
        | cons d before =>
          obtain rfl := (List.cons.inj heq).1
          exact .inr ⟨before, heq⟩
    case isFalse hslash =>
      rw [hlater]
      constructor
      · rintro ⟨before, heq⟩
        exact ⟨_, heq⟩
      · rintro ⟨before, heq⟩
        cases before with
        | nil => exact absurd (List.cons.inj heq).1 hslash
        | cons d before =>
          obtain rfl := (List.cons.inj heq).1
          exact ⟨before, heq⟩

theorem matchesName_iff_spelled (tokens : List Token) (name : Text) :
    matchesName tokens name = true ↔ Spelled tokens name := by
  induction tokens generalizing name with
  | nil => rw [matchesName, Spelled, List.isEmpty_iff]
  | cons token rest ih =>
    cases token with
    | literal c =>
      rw [Spelled]
      cases name with
      | nil => simp [matchesName]
      | cons first tail => simp [matchesName, ih]
    | one =>
      rw [Spelled]
      cases name with
      | nil => simp [matchesName]
      | cons first tail => simp [matchesName, ih]
    | segment =>
      rw [matchesName, Spelled, List.any_eq_true]
      constructor
      · rintro ⟨left, hleft, hrest⟩
        obtain ⟨taken, rfl, hfree⟩ := mem_withinSegment.mp hleft
        exact ⟨taken, left, rfl, hfree, (ih left).mp hrest⟩
      · rintro ⟨taken, left, rfl, hfree, hrest⟩
        exact ⟨left, mem_withinSegment.mpr ⟨taken, rfl, hfree⟩, (ih left).mpr hrest⟩
    | anything =>
      rw [matchesName, Spelled, List.any_eq_true]
      constructor
      · rintro ⟨left, hleft, hrest⟩
        obtain ⟨taken, rfl⟩ := (List.mem_tails _ _).mp hleft
        exact ⟨taken, left, rfl, (ih left).mp hrest⟩
      · rintro ⟨taken, left, rfl, hrest⟩
        exact ⟨left, (List.mem_tails _ _).mpr (List.suffix_append _ _), (ih left).mpr hrest⟩
    | segments =>
      rw [matchesName, Spelled, Bool.or_eq_true, List.any_eq_true, ih]
      constructor
      · rintro (hrest | ⟨left, hleft, hrest⟩)
        · exact ⟨[], name, rfl, .inl rfl, hrest⟩
        · obtain ⟨before, rfl⟩ := mem_afterSlashes.mp hleft
          refine ⟨before ++ ['/'], left, by simp, .inr (by simp), (ih left).mp hrest⟩
      · rintro ⟨taken, left, rfl, rfl | hlast, hrest⟩
        · exact .inl hrest
        · obtain ⟨before, rfl⟩ := List.getLast?_eq_some_iff.mp hlast
          refine .inr ⟨left, mem_afterSlashes.mpr ⟨before, by simp⟩, (ih left).mpr hrest⟩
    | «class» ranges negated =>
      rw [Spelled]
      cases name with
      | nil => simp [matchesName]
      | cons first tail => simp [matchesName, ih, and_assoc]

/-- A part of a pattern between its slashes: a `**/`, or a segment. -/
inductive Part
  | deep
  | segment (pieces : List (Piece Char))

/-- One piece more in front of a segment. -/
def addPiece (piece : Piece Char) : List Part → List Part
  | .segment pieces :: more => .segment (piece :: pieces) :: more
  | others => others

/-- The parts of a pattern, of which `start` says whether a segment begins here: within a segment
any stars are one run of its characters. -/
def parts (start : Bool) : List Token → List Part
  | [] => [.segment []]
  | .literal c :: rest =>
    if c = '/' then .segment [] :: parts true rest
    else addPiece (.one (c == ·)) (parts false rest)
  | .one :: rest => addPiece (.one fun _ => true) (parts false rest)
  | .class ranges negated :: rest => addPiece (.one (inClass ranges negated)) (parts false rest)
  | .segment :: rest | .anything :: rest => addPiece anything (parts false rest)
  | .segments :: rest =>
    if start then .deep :: parts true rest else .segment [anything] :: parts true rest

/-- `File.fnmatch` with `FNM_PATHNAME`: pattern and name segment by segment, and a `**/` for zero or
more whole segments. -/
def Fnmatch : List Part → List Text → Prop
  | [], names => names = []
  | .segment pieces :: rest, names =>
    ∃ name left, names = name :: left ∧ Spells pieces name ∧ Fnmatch rest left
  | .deep :: rest, names => ∃ k ≤ names.length, Fnmatch rest (names.drop k)

/-- Each `**` is a `**/` that begins a segment. -/
def Standard (start : Bool) : List Token → Prop
  | [] => True
  | .literal c :: rest => Standard (c = '/') rest
  | .one :: rest | .class _ _ :: rest | .segment :: rest => Standard false rest
  | .anything :: _ => False
  | .segments :: rest => start = true ∧ Standard true rest

/-! ## A segment's pieces -/

variable {start : Bool} {c : Char} {pieces : List (Piece Char)} {more : List Part}

theorem parts_false (tokens : List Token) :
    ∃ pieces more, parts false tokens = .segment pieces :: more := by
  induction tokens with
  | nil => exact ⟨[], [], rfl⟩
  | cons token rest ih =>
    obtain ⟨pieces, more, hrest⟩ := ih
    cases token with
    | literal c =>
      rw [parts]
      split
      · exact ⟨_, _, rfl⟩
      · rw [hrest]
        exact ⟨_, _, rfl⟩
    | segments => exact ⟨_, _, rfl⟩
    | _ =>
      rw [parts, hrest]
      exact ⟨_, _, rfl⟩

theorem not_fnmatch_nil (start : Bool) (tokens : List Token) : ¬ Fnmatch (parts start tokens) [] := by
  induction tokens generalizing start with
  | nil =>
    rintro ⟨_, _, heq, -⟩
    cases heq
  | cons token rest ih =>
    obtain ⟨pieces, more, hrest⟩ := parts_false rest
    cases token with
    | literal c =>
      rw [parts]
      split
      · rintro ⟨_, _, heq, -⟩
        cases heq
      · rw [hrest]
        rintro ⟨_, _, heq, -⟩
        cases heq
    | segments =>
      rw [parts]
      split
      · rintro ⟨k, -, h⟩
        rw [List.drop_nil] at h
        exact ih true h
      · rintro ⟨_, _, heq, -⟩
        cases heq
    | _ =>
      rw [parts, hrest]
      rintro ⟨_, _, heq, -⟩
      cases heq

theorem splitOn_slash (tail : Text) : ('/' :: tail).splitOn '/' = [] :: tail.splitOn '/' := by
  rw [List.splitOn_cons_eq_if_modifyHead, if_pos (beq_self_eq_true _)]

theorem splitOn_of_ne (hc : c ≠ '/') (tail : Text) :
    (c :: tail).splitOn '/' = (tail.splitOn '/').modifyHead (c :: ·) := by
  rw [List.splitOn_cons_eq_if_modifyHead, if_neg (by simpa using hc)]

theorem splitOn_free_append {taken : Text} (hfree : '/' ∉ taken) :
    (taken ++ left).splitOn '/' = (left.splitOn '/').modifyHead (taken ++ ·) := by
  rw [List.splitOn_eq_splitOnP, List.splitOn_eq_splitOnP]
  refine Foundations.splitOnP_free_append fun d hd => ?_
  rw [beq_eq_false_iff_ne]
  rintro rfl
  exact hfree hd

theorem fnmatch_addPiece_one {fits : Char → Bool} :
    Fnmatch (addPiece (.one fits) (parts false tokens)) (name.splitOn '/') ↔
      ∃ c tail, name = c :: tail ∧ c ≠ '/' ∧ fits c = true ∧
        Fnmatch (parts false tokens) (tail.splitOn '/') := by
  obtain ⟨pieces, more, hparts⟩ := parts_false tokens
  rw [hparts, addPiece]
  cases name with
  | nil =>
    constructor
    · rintro ⟨_, _, heq, hspells, -⟩
      obtain ⟨rfl, -⟩ := List.cons.inj heq
      exact absurd hspells Foundations.not_spells_one_nil
    · rintro ⟨_, _, heq, -⟩
      cases heq
  | cons c tail =>
    by_cases hslash : c = '/'
    · subst hslash
      rw [splitOn_slash]
      constructor
      · rintro ⟨_, _, heq, hspells, -⟩
        obtain ⟨rfl, -⟩ := List.cons.inj heq
        exact absurd hspells Foundations.not_spells_one_nil
      · rintro ⟨_, _, heq, hne, -⟩
        exact absurd (List.cons.inj heq).1.symm hne
    · rw [splitOn_of_ne hslash]
      obtain ⟨first, others, hsplit⟩ := List.exists_cons_of_ne_nil (List.splitOn_ne_nil '/' tail)
      simp only [hsplit, List.modifyHead_cons]
      constructor
      · rintro ⟨_, _, heq, hspells, hmore⟩
        obtain ⟨rfl, rfl⟩ := List.cons.inj heq
        obtain ⟨hfits, hspells⟩ := Foundations.spells_one_cons_iff.mp hspells
        exact ⟨c, tail, rfl, hslash, hfits, first, others, hsplit, hspells, hmore⟩
      · rintro ⟨_, _, heq, -, hfits, _, _, hcons, hspells, hmore⟩
        obtain ⟨rfl, rfl⟩ := List.cons.inj heq
        rw [hsplit] at hcons
        obtain ⟨rfl, rfl⟩ := List.cons.inj hcons
        exact ⟨_, _, rfl, .one hfits hspells, hmore⟩

theorem exists_of_splitOn_eq_cons {taken first : Text} {others : List Text}
    (h : name.splitOn '/' = (taken ++ first) :: others) :
    ∃ left, name = taken ++ left ∧ '/' ∉ taken ∧ left.splitOn '/' = first :: others := by
  induction taken generalizing name with
  | nil => exact ⟨name, rfl, List.not_mem_nil, h⟩
  | cons d taken ih =>
    cases name with
    | nil => cases h
    | cons c tail =>
      by_cases hslash : c = '/'
      · subst hslash
        rw [splitOn_slash] at h
        cases h
      · obtain ⟨begun, more, htail⟩ := List.exists_cons_of_ne_nil (List.splitOn_ne_nil '/' tail)
        rw [splitOn_of_ne hslash, htail, List.modifyHead_cons] at h
        obtain ⟨hhead, rfl⟩ := List.cons.inj h
        obtain ⟨rfl, rfl⟩ := List.cons.inj hhead
        obtain ⟨left, rfl, hfree, hleft⟩ := ih htail
        refine ⟨left, rfl, ?_, hleft⟩
        rw [List.mem_cons, not_or]
        exact ⟨Ne.symm hslash, hfree⟩

theorem fnmatch_addPiece_anything :
    Fnmatch (addPiece anything (parts false tokens)) (name.splitOn '/') ↔
      ∃ taken left, name = taken ++ left ∧ '/' ∉ taken ∧
        Fnmatch (parts false tokens) (left.splitOn '/') := by
  obtain ⟨pieces, more, hparts⟩ := parts_false tokens
  rw [hparts, addPiece]
  constructor
  · rintro ⟨_, others, hsplit, hspells, hmore⟩
    obtain ⟨first, ⟨taken, rfl⟩, hfirst⟩ := Foundations.spells_anything_iff.mp hspells
    obtain ⟨left, rfl, hfree, hleft⟩ := exists_of_splitOn_eq_cons hsplit
    exact ⟨taken, left, rfl, hfree, first, others, hleft, hfirst, hmore⟩
  · rintro ⟨taken, left, rfl, hfree, first, others, hsplit, hspells, hmore⟩
    rw [splitOn_free_append hfree, hsplit]
    refine ⟨taken ++ first, others, rfl, ?_, hmore⟩
    exact Foundations.spells_anything_iff.mpr ⟨first, List.suffix_append _ _, hspells⟩

theorem exists_afterSlashes {k : ℕ} (hk : k < (name.splitOn '/').length) :
    ∃ left, (left = name ∨ left ∈ afterSlashes name) ∧
      left.splitOn '/' = (name.splitOn '/').drop k := by
  induction k generalizing name with
  | zero => exact ⟨name, .inl rfl, rfl⟩
  | succ k ih =>
    rcases Foundations.exists_first (· == '/') name with
      hnone | ⟨before, slash, after, rfl, hslash, hfree⟩
    · rw [List.splitOn_eq_splitOnP, List.splitOnP_eq_singleton hnone, List.length_singleton] at hk
      omega
    · obtain rfl := beq_iff_eq.mp hslash
      have hsplit : (before ++ '/' :: after).splitOn '/' = before :: after.splitOn '/' := by
        rw [List.splitOn_eq_splitOnP, List.splitOnP_append_cons_of_forall_mem hfree '/' hslash,
          List.splitOn_eq_splitOnP]
      rw [hsplit, List.length_cons] at hk
      obtain ⟨left, hleft, hdrop⟩ := ih (Nat.lt_of_succ_lt_succ hk)
      refine ⟨left, .inr ?_, by rw [hsplit, List.drop_succ_cons, hdrop]⟩
      rcases hleft with rfl | hleft
      · exact mem_afterSlashes.mpr ⟨before, rfl⟩
      · obtain ⟨between, rfl⟩ := mem_afterSlashes.mp hleft
        exact mem_afterSlashes.mpr ⟨before ++ '/' :: between, by simp⟩

theorem fnmatch_deep :
    Fnmatch (.deep :: parts true tokens) (name.splitOn '/') ↔
      ∃ left, (left = name ∨ left ∈ afterSlashes name) ∧
        Fnmatch (parts true tokens) (left.splitOn '/') := by
  constructor
  · rintro ⟨k, -, h⟩
    by_cases hk : k < (name.splitOn '/').length
    · obtain ⟨left, hleft, hdrop⟩ := exists_afterSlashes hk
      exact ⟨left, hleft, hdrop ▸ h⟩
    · rw [List.drop_eq_nil_of_le (Nat.not_lt.mp hk)] at h
      exact absurd h (not_fnmatch_nil true tokens)
  · rintro ⟨left, rfl | hleft, h⟩
    · exact ⟨0, Nat.zero_le _, h⟩
    · obtain ⟨before, rfl⟩ := mem_afterSlashes.mp hleft
      refine ⟨(before.splitOn '/').length, ?_, ?_⟩
      · rw [List.splitOn_append_cons_self, List.length_append]
        omega
      · rwa [List.splitOn_append_cons_self, List.drop_left]

theorem fnmatch_slash :
    Fnmatch (.segment [] :: parts true tokens) (name.splitOn '/') ↔
      ∃ tail, name = '/' :: tail ∧ Fnmatch (parts true tokens) (tail.splitOn '/') := by
  constructor
  · rintro ⟨_, left, hsplit, hspells, h⟩
    obtain rfl := Foundations.spells_nil_iff.mp hspells
    cases name with
    | nil =>
      obtain rfl : left = [] := (List.cons.inj hsplit).2.symm
      exact absurd h (not_fnmatch_nil true tokens)
    | cons c tail =>
      by_cases hslash : c = '/'
      · subst hslash
        rw [splitOn_slash] at hsplit
        obtain ⟨-, rfl⟩ := List.cons.inj hsplit
        exact ⟨tail, rfl, h⟩
      · obtain ⟨begun, more, htail⟩ := List.exists_cons_of_ne_nil (List.splitOn_ne_nil '/' tail)
        rw [splitOn_of_ne hslash, htail] at hsplit
        cases hsplit
  · rintro ⟨tail, rfl, h⟩
    rw [splitOn_slash]
    exact ⟨_, _, rfl, .nil, h⟩

theorem fnmatch_end : Fnmatch [.segment []] (name.splitOn '/') ↔ name = [] := by
  constructor
  · rintro ⟨_, left, hsplit, hspells, rfl⟩
    obtain rfl := Foundations.spells_nil_iff.mp hspells
    have hname : ['/'].intercalate (name.splitOn '/') = name := List.intercalate_splitOn '/'
    rw [hsplit] at hname
    exact hname.symm
  · rintro rfl
    exact ⟨[], [], rfl, .nil, rfl⟩

/-- A pattern whose every `**` is a `**/` that begins a segment answers as the reference. -/
theorem matchesName_iff_fnmatch (hstandard : Standard start tokens) (name : Text) :
    matchesName tokens name = true ↔ Fnmatch (parts start tokens) (name.splitOn '/') := by
  rw [matchesName_iff_spelled]
  induction tokens generalizing start name with
  | nil => exact fnmatch_end.symm
  | cons token rest ih =>
    cases token with
    | literal c =>
      rw [Spelled, parts]
      split
      case isTrue hslash =>
        subst hslash
        have hrest : Standard true rest := by simpa [Standard] using hstandard
        rw [fnmatch_slash]
        exact exists_congr fun tail => and_congr_right fun _ => ih hrest tail
      case isFalse hslash =>
        have hrest : Standard false rest := by simpa [Standard, hslash] using hstandard
        rw [fnmatch_addPiece_one]
        constructor
        · rintro ⟨tail, rfl, h⟩
          exact ⟨c, tail, rfl, hslash, beq_self_eq_true c, (ih hrest tail).mp h⟩
        · rintro ⟨d, tail, rfl, -, heq, h⟩
          exact ⟨tail, by rw [eq_of_beq heq], (ih hrest tail).mpr h⟩
    | one =>
      rw [Spelled, parts, fnmatch_addPiece_one]
      refine exists_congr fun c => exists_congr fun tail => and_congr_right fun _ =>
        and_congr_right fun _ => ?_
      rw [ih hstandard tail]
      exact (and_iff_right rfl).symm
    | segment =>
      rw [Spelled, parts, fnmatch_addPiece_anything]
      exact exists_congr fun taken => exists_congr fun left => and_congr_right fun _ =>
        and_congr_right fun _ => ih hstandard left
    | anything => exact absurd hstandard id
    | segments =>
      obtain ⟨rfl, hrest⟩ := hstandard
      rw [← matchesName_iff_spelled, matchesName, parts, if_pos rfl, fnmatch_deep,
        Bool.or_eq_true, List.any_eq_true]
      simp only [matchesName_iff_spelled, ih hrest]
      constructor
      · rintro (h | ⟨left, hleft, h⟩)
        · exact ⟨name, .inl rfl, h⟩
        · exact ⟨left, .inr hleft, h⟩
      · rintro ⟨left, rfl | hleft, h⟩
        · exact .inl h
        · exact .inr ⟨left, hleft, h⟩
    | «class» ranges negated =>
      rw [Spelled, parts, fnmatch_addPiece_one]
      exact exists_congr fun c => exists_congr fun tail => and_congr_right fun _ =>
        and_congr_right fun _ => and_congr_right fun _ => ih hstandard tail

/-- The tokens of `a/**/b*`. -/
def deepStar : List Token :=
  [.literal 'a', .literal '/', .segments, .literal 'b', .segment]

end Onevcs.Standings
