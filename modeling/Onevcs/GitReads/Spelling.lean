import Mathlib.Data.List.Infix
import Mathlib.Logic.Relation
import Onevcs.Foundations.Lines

/-!
# Spelling a read by commits

`pinned` of `native_refs.rs`: the arguments of a read of git with every revision that a ref names
spelled as the commit the ref stands at, for the reads whose answer is the same either way.

Where a name stands is asked of the native reader, here a parameter: it answers nothing outside a
recovery read, for an environment or a repository it does not read, and for a name it does not
resolve.
-/

namespace Onevcs.GitReads

open Foundations (Text)

namespace Word

def catFile : Text := "cat-file".toList
def revParse : Text := "rev-parse".toList
def mergeBase : Text := "merge-base".toList
def diff : Text := "diff".toList
def log : Text := "log".toList
def revList : Text := "rev-list".toList
def exists' : Text := "-e".toList
def verify : Text := "--verify".toList
def isAncestor : Text := "--is-ancestor".toList
def peeledCommit : Text := "^{commit}".toList
def peeledTree : Text := "^{tree}".toList
def count : Text := "-n".toList
def paths : Text := "--".toList

end Word

def stripSuffix (suffix text : Text) : Option Text :=
  if suffix.isSuffixOf text then some (text.take (text.length - suffix.length)) else none

/-- `str::split_once` at `..`. -/
def splitRange : Text → Option (Text × Text)
  | [] => none
  | [_] => none
  | a :: b :: rest =>
    if a = '.' ∧ b = '.' then some ([], rest)
    else (splitRange (b :: rest)).map fun found => (a :: found.1, found.2)

/-- `char::is_ascii_hexdigit`. -/
def isHexDigit (c : Char) : Bool :=
  c.isDigit || ('a' ≤ c && c ≤ 'f') || ('A' ≤ c && c ≤ 'F')

/-- `ObjectId::parse` reads it as an object id. -/
def isObjectId (value : Text) : Bool :=
  (value.length == 40 || value.length == 64) && value.all isHexDigit

/-- The suffixes that a revision of a read may carry, and whether it must carry one. -/
def suffixes (command : Text) (first : Option Text) : Option (List Text × Bool) :=
  if command = Word.catFile then
    if first = some Word.exists' then some ([Word.peeledCommit], true) else none
  else if command = Word.revParse then
    if first = some Word.verify then some ([Word.peeledCommit, Word.peeledTree], true) else none
  else if command ∈ [Word.mergeBase, Word.diff, Word.log, Word.revList] then some ([], false)
  else none

/-- The argument has the command read a ref's history, or print a ref's name. -/
def answersByName (arg : Text) : Bool :=
  ["-g", "--walk-reflogs", "--fork-point", "--source", "--all", "--branches"].any
      (fun option => option.toList == arg) ||
    "--decorate".toList.isPrefixOf arg ||
    (("--format".toList.isPrefixOf arg || "--pretty".toList.isPrefixOf arg) &&
      ["%d", "%D", "%S", "%g"].any fun code => decide (code.toList <:+: arg))

section Pinned

variable (tip : Text → Option Text)

/-- `pin`: the commit that a name stands at. -/
def pin (name : Text) : Option Text :=
  if name.isEmpty || isObjectId name then none else tip name

/-- `revision`: an argument spelled by the commits that it names. -/
def revision (shape : List Text × Bool) (arg : Text) : Option Text :=
  match splitRange arg with
  | some (start, stop) =>
    if start.isEmpty || stop.isEmpty || stop.head? = some '.' then none
    else if (pin tip start).isNone && (pin tip stop).isNone then none
    else some ((pin tip start).getD start ++ "..".toList ++ (pin tip stop).getD stop)
  | none =>
    let found := shape.1.findSome? fun suffix =>
      (stripSuffix suffix arg).map fun name => (name, suffix)
    (found.or (if shape.2 then none else some (arg, []))).bind fun named =>
      (pin tip named.1).map fun commit => commit ++ named.2

end Pinned

/-- Where the walk over the arguments stands: the next one is an option's value, and only paths
follow. -/
structure Place where
  value : Bool
  paths : Bool

namespace Place

def start : Place := ⟨false, false⟩

/-- The argument here is left as it was asked. -/
def passes (place : Place) (arg : Text) : Bool :=
  place.paths || place.value || arg.head? = some '-' || arg.head? = some ':'

/-- Where the walk stands after an argument. -/
def next (place : Place) (arg : Text) : Place :=
  if place.passes arg then ⟨arg = Word.count, place.paths || arg = Word.paths⟩ else place

end Place

/-- The arguments after the command, those in a revision's place spelled by `spell`. -/
def respell (spell : Text → Option Text) : Place → List Text → List Text
  | _, [] => []
  | place, arg :: rest =>
    let spelled := if place.passes arg then arg else (spell arg).getD arg
    spelled :: respell spell (place.next arg) rest

/-- Some argument in a revision's place is spelled. -/
def respells (spell : Text → Option Text) : Place → List Text → Bool
  | _, [] => false
  | place, arg :: rest =>
    (!place.passes arg && (spell arg).isSome) || respells spell (place.next arg) rest

/-- `pinned`, where `tip` answers where a name stands. -/
def pinned (tip : Text → Option Text) : List Text → Option (List Text)
  | [] => none
  | command :: rest =>
    (suffixes command rest.head?).bind fun shape =>
      if rest.any answersByName then none
      else if respells (revision tip shape) .start rest then
        some (command :: respell (revision tip shape) .start rest)
      else none

/-- The arguments that are asked: as spelled by commits, and otherwise as they were given. -/
def asked (tip : Text → Option Text) (args : List Text) : List Text :=
  (pinned tip args).getD args

/-! ## One revision at a time -/

/-- The second list is the first with one argument in a revision's place spelled by the commits that
it names. -/
inductive SpellsOne (tip : Text → Option Text) (command : Text) : List Text → List Text → Prop
  | intro {before after : List Text} {arg spelled : Text} {shape : List Text × Bool} :
      suffixes command (before ++ arg :: after).head? = some shape →
      (before ++ arg :: after).any answersByName = false →
      (before.foldl Place.next .start).passes arg = false →
      revision tip shape arg = some spelled →
      SpellsOne tip command (before ++ arg :: after) (before ++ spelled :: after)

/-- The argument reads as an option or as a path. -/
def isMarked (arg : Text) : Bool := arg.head? = some '-' || arg.head? = some ':'

theorem isMarked_of_prefix {option : String} {arg : Text}
    (hdash : option.toList.head? = some '-') (hstarts : option.toList.isPrefixOf arg = true) :
    isMarked arg = true := by
  obtain ⟨rest, rfl⟩ := List.isPrefixOf_iff_prefix.mp hstarts
  rw [isMarked, List.head?_append, hdash]
  rfl

theorem isMarked_of_answersByName {arg : Text} (harg : answersByName arg = true) :
    isMarked arg = true := by
  rw [answersByName, Bool.or_eq_true, Bool.or_eq_true, List.any_eq_true, Bool.and_eq_true,
    Bool.or_eq_true] at harg
  obtain (⟨option, hoption, heq⟩ | hdecorate) | ⟨hformat | hpretty, -⟩ := harg
  · have hdash : ∀ option ∈ ["-g", "--walk-reflogs", "--fork-point", "--source", "--all",
        "--branches"], option.toList.head? = some '-' := by decide
    rw [isMarked, ← eq_of_beq heq, hdash option hoption]
    rfl
  · exact isMarked_of_prefix (by decide) hdecorate
  · exact isMarked_of_prefix (by decide) hformat
  · exact isMarked_of_prefix (by decide) hpretty

theorem append_of_splitRange {arg start stop : Text} (h : splitRange arg = some (start, stop)) :
    arg = start ++ '.' :: '.' :: stop := by
  fun_induction splitRange arg generalizing start with
  | case1 => cases h
  | case2 => cases h
  | case3 a b rest hdots =>
    obtain ⟨rfl, rfl⟩ := hdots
    cases h
    rfl
  | case4 a b rest _ ih =>
    obtain ⟨⟨front, back⟩, hfound, heq⟩ := Option.map_eq_some_iff.mp h
    cases heq
    rw [ih hfound, List.cons_append]

theorem isMarked_append {arg more : Text} (harg : arg ≠ []) :
    isMarked (arg ++ more) = isMarked arg := by
  cases arg with
  | nil => exact absurd rfl harg
  | cons first rest => rfl

theorem isMarked_of_isObjectId {commit : Text} (hcommit : isObjectId commit = true) :
    commit ≠ [] ∧ isMarked commit = false := by
  cases commit with
  | nil => cases hcommit
  | cons first rest =>
    refine ⟨List.cons_ne_nil first rest, ?_⟩
    rw [isObjectId, Bool.and_eq_true, List.all_cons, Bool.and_eq_true] at hcommit
    have hfirst := hcommit.2.1
    rw [isMarked, Bool.or_eq_false_iff]
    constructor
    all_goals
      refine decide_eq_false fun heq => ?_
      obtain rfl := Option.some.inj heq
      exact absurd hfirst (by decide)

section Chain

variable {tip : Text → Option Text} {command : Text} {shape : List Text × Bool}

def NamesCommits (tip : Text → Option Text) : Prop :=
  ∀ name commit, tip name = some commit → isObjectId commit = true

theorem NamesCommits.pin (htip : NamesCommits tip) {name commit : Text}
    (hpin : pin tip name = some commit) : isObjectId commit = true := by
  rw [GitReads.pin] at hpin
  split at hpin
  · cases hpin
  · exact htip name commit hpin

theorem isMarked_of_revision (htip : NamesCommits tip) {arg spelled : Text}
    (harg : isMarked arg = false) (hspelled : revision tip shape arg = some spelled) :
    isMarked spelled = false := by
  rw [revision] at hspelled
  split at hspelled
  case h_1 start stop hsplit =>
    simp only [Option.ite_none_left_eq_some] at hspelled
    obtain ⟨hstart, -, heq⟩ := hspelled
    cases heq
    have hnil : start ≠ [] := by
      rintro rfl
      exact hstart rfl
    rw [append_of_splitRange hsplit, isMarked_append hnil] at harg
    cases hpin : pin tip start with
    | none => rw [Option.getD_none, List.append_assoc, isMarked_append hnil, harg]
    | some commit =>
      obtain ⟨hcommit, hmarked⟩ := isMarked_of_isObjectId (htip.pin hpin)
      rw [Option.getD_some, List.append_assoc, isMarked_append hcommit, hmarked]
  case h_2 =>
    obtain ⟨named, -, hnamed⟩ := Option.bind_eq_some_iff.mp hspelled
    obtain ⟨commit, hpin, rfl⟩ := Option.map_eq_some_iff.mp hnamed
    obtain ⟨hcommit, hmarked⟩ := isMarked_of_isObjectId (htip.pin hpin)
    rw [isMarked_append hcommit, hmarked]

theorem passes_eq_false_iff {place : Place} {arg : Text} :
    place.passes arg = false ↔ place = .start ∧ isMarked arg = false := by
  obtain ⟨value, paths⟩ := place
  rw [Place.passes, isMarked, Place.start]
  cases value <;> cases paths <;> simp

theorem next_of_not_passes {place : Place} {arg : Text} (harg : place.passes arg = false) :
    place.next arg = place := by
  rw [Place.next, harg]
  rfl

theorem shape_of_spelled {before after : List Text} {arg spelled : Text} (harg : isMarked arg = false)
    (hspelled : isMarked spelled = false)
    (hshape : suffixes command (before ++ arg :: after).head? = some shape) :
    suffixes command (before ++ spelled :: after).head? = some shape := by
  cases before with
  | cons first rest => exact hshape
  | nil =>
    have hdash : ∀ option ∈ [Word.exists', Word.verify], isMarked option = true := by decide
    have hne : ∀ {arg : Text}, isMarked arg = false →
        some arg ≠ some Word.exists' ∧ some arg ≠ some Word.verify := by
      intro arg harg
      constructor
      · rintro ⟨⟩
        exact absurd ((hdash _ (by simp)).symm.trans harg) (by simp)
      · rintro ⟨⟩
        exact absurd ((hdash _ (by simp)).symm.trans harg) (by simp)
    simp only [List.nil_append, List.head?_cons, suffixes, (hne harg).1, (hne harg).2,
      if_false] at hshape
    simp only [List.nil_append, List.head?_cons, suffixes, (hne hspelled).1, (hne hspelled).2,
      if_false]
    exact hshape

theorem plain_of_spelled {before after : List Text} {arg spelled : Text}
    (hspelled : isMarked spelled = false)
    (hplain : (before ++ arg :: after).any answersByName = false) :
    (before ++ spelled :: after).any answersByName = false := by
  have hname : answersByName spelled = false := by
    by_contra hname
    rw [isMarked_of_answersByName (by simpa using hname)] at hspelled
    cases hspelled
  rw [List.any_append, List.any_cons, Bool.or_eq_false_iff, Bool.or_eq_false_iff] at hplain ⊢
  exact ⟨hplain.1, hname, hplain.2.2⟩

/-- The walk over what is left spells one revision after another. -/
theorem respell_spells (htip : NamesCommits tip) (rest before : List Text)
    (hshape : suffixes command (before ++ rest).head? = some shape)
    (hplain : (before ++ rest).any answersByName = false) :
    Relation.ReflTransGen (SpellsOne tip command) (before ++ rest)
      (before ++ respell (revision tip shape) (before.foldl Place.next .start) rest) := by
  induction rest generalizing before with
  | nil => exact .refl
  | cons arg rest ih =>
    rw [respell]
    -- an argument that is left as it was joins those walked over
    have hleft : ∀ kept : Text,
        suffixes command (before ++ kept :: rest).head? = some shape →
        (before ++ kept :: rest).any answersByName = false →
        (before.foldl Place.next .start).next kept = (before.foldl Place.next .start).next arg →
        Relation.ReflTransGen (SpellsOne tip command) (before ++ kept :: rest)
          (before ++ kept :: respell (revision tip shape)
            ((before.foldl Place.next .start).next arg) rest) := by
      intro kept hshape hplain hnext
      rw [List.append_cons] at hshape hplain
      have hrest := ih (before ++ [kept]) hshape hplain
      rwa [List.foldl_append, List.foldl_cons, List.foldl_nil, hnext, List.append_assoc,
        List.append_assoc] at hrest
    cases hpasses : (before.foldl Place.next .start).passes arg with
    | true => exact hleft arg hshape hplain rfl
    | false =>
      cases hspelled : revision tip shape arg with
      | none => exact hleft arg hshape hplain rfl
      | some spelled =>
        have harg := (passes_eq_false_iff.mp hpasses).2
        have hmarked := isMarked_of_revision htip harg hspelled
        have hnext : (before.foldl Place.next .start).next spelled =
            (before.foldl Place.next .start).next arg := by
          rw [next_of_not_passes hpasses,
            next_of_not_passes (passes_eq_false_iff.mpr
              ⟨(passes_eq_false_iff.mp hpasses).1, hmarked⟩)]
        exact .head (.intro hshape hplain hpasses hspelled)
          (hleft spelled (shape_of_spelled harg hmarked hshape)
            (plain_of_spelled hmarked hplain) hnext)

theorem pinned_spells (htip : NamesCommits tip) {args spelled : List Text}
    (hpinned : pinned tip args = some spelled) :
    ∃ command rest rest', args = command :: rest ∧ spelled = command :: rest' ∧
      Relation.ReflTransGen (SpellsOne tip command) rest rest' := by
  cases args with
  | nil => cases hpinned
  | cons command rest =>
    rw [pinned, Option.bind_eq_some_iff] at hpinned
    obtain ⟨shape, hshape, hspelled⟩ := hpinned
    rw [Option.ite_none_left_eq_some] at hspelled
    obtain ⟨hplain, hspelled⟩ := hspelled
    rw [Option.ite_none_right_eq_some] at hspelled
    obtain ⟨-, heq⟩ := hspelled
    cases heq
    exact ⟨command, rest, _, rfl, rfl,
      respell_spells htip rest [] hshape (by simpa using hplain)⟩

end Chain

end Onevcs.GitReads
