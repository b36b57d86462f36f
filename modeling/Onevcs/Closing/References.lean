import Onevcs.Foundations.Firsts
import Onevcs.Foundations.Framing
import Onevcs.Review.Reply

/-!
# Closing references

`references` of `closing.rs`: the scanner of one line, what a keyword is followed by, and the issue
that a token names.

A text is a list of characters; where the source counts bytes into it, what is left of it is
passed on, with the character before. Which characters are letters or digits, and the lower case
that references are compared by, are Unicode's.
-/

namespace Onevcs.Closings

open Foundations (Text lines firsts)
open Store (isWhitespace stripPrefix splitOnce)
open Review (lowercase)

structure Unicode where
  isAlphanumeric : Char → Bool
  toLowercase : Text → Text
  isAlphanumeric_of_isAlpha : ∀ c, c.isAlpha = true → isAlphanumeric c = true

def keywords : List Text :=
  ["close".toList, "closes".toList, "closed".toList, "fix".toList, "fixes".toList, "fixed".toList,
    "resolve".toList, "resolves".toList, "resolved".toList]

structure Closing where
  keyword : Text
  reference : Text

def Closing.line (closing : Closing) : Text := closing.keyword ++ ' ' :: closing.reference

def isNumber (text : Text) : Bool := !text.isEmpty && text.all Char.isDigit

def isOwner (text : Text) : Bool :=
  !text.isEmpty && text.all fun c => c.isAlphanum || c == '-'

def isName (text : Text) : Bool :=
  !text.isEmpty && text.all fun c => c.isAlphanum || c ∈ ['-', '_', '.']

/-- `owner/name#N`. -/
def shortForm (owner name number : Text) : Text := owner ++ '/' :: (name ++ '#' :: number)

/-- The issue that the parts of a URL name. -/
def issueOfUrl (token url : Text) : Option Text :=
  match url.splitOn '/' with
  | [host, owner, name, kind, number] =>
    if kind = "issues".toList && isOwner owner && isName name && isNumber number then
      some (if lowercase host = "github.com".toList then shortForm owner name number else token)
    else none
  | _ => none

/-- The issue that a token of the short form names. -/
def issueOfShort (token : Text) : Option Text :=
  (splitOnce '#' token).bind fun (repository, number) =>
    (splitOnce '/' repository).bind fun (owner, name) =>
      if isOwner owner && isName name && isNumber number then some (shortForm owner name number)
      else none

/-- `issue`: the issue one token names. -/
def issue (token : Text) : Option Text :=
  match stripPrefix ['#'] token with
  | some number => if isNumber number then some ('#' :: number) else none
  | none =>
    match (stripPrefix "https://".toList token).or (stripPrefix "http://".toList token) with
    | some url => issueOfUrl token url
    | none => issueOfShort token

/-! ## One line -/

def capitalised (word : Text) : Text :=
  match lowercase word with
  | [] => []
  | first :: rest => first.toUpper :: rest

def isTerminator (c : Char) : Bool := isWhitespace c || c ∈ [',', ';', ')', ']', '>', '"']

/-- What a token may be followed by, at the end of a sentence. -/
def isTrailing (c : Char) : Bool := c ∈ ['.', ':', '!', '?']

/-- The token a text starts with. -/
def tokenOf (candidate : Text) : Text :=
  (candidate.takeWhile fun c => !isTerminator c).rdropWhile isTrailing

/-- `reference_after`: the reference a keyword is followed by, and how much of the text it
takes. -/
def referenceAfter (after : Text) : Option (Text × ℕ) :=
  let colon := if after.head? = some ':' then 1 else 0
  let spaced := ((after.drop colon).takeWhile isWhitespace).length
  if colon + spaced = 0 then none
  else
    let start := colon + spaced
    let token := tokenOf (after.drop start)
    (issue token).map fun reference => (reference, start + token.length)

variable (unicode : Unicode)

/-- A word may start after a character. -/
def startsWord (before : Option Char) : Bool :=
  before.all fun c => !unicode.isAlphanumeric c && c != '_'

/-- The reference that a text starts with a keyword of, and how much of the text is taken. -/
def closingAt (before : Option Char) (rest : Text) : Option (Closing × ℕ) :=
  let word := rest.takeWhile Char.isAlpha
  if startsWord unicode before && lowercase word ∈ keywords then
    (referenceAfter (rest.drop word.length)).map fun (reference, used) =>
      (⟨capitalised word, reference⟩, word.length + used)
  else none

/-- How far the scanner goes on from where no reference starts: over a word, or a character. -/
def stride (before : Option Char) (rest : Text) : ℕ :=
  let word := rest.takeWhile Char.isAlpha
  if !word.isEmpty && startsWord unicode before then word.length else 1

theorem stride_pos (before : Option Char) (rest : Text) : 0 < stride unicode before rest := by
  simp only [stride]
  split
  · next h =>
    rw [Bool.and_eq_true, Bool.not_eq_true', List.isEmpty_eq_false_iff] at h
    exact List.length_pos_iff.mpr h.1
  · exact Nat.one_pos

theorem closingAt_pos {before : Option Char} {rest : Text} {closing : Closing} {used : ℕ}
    (h : closingAt unicode before rest = some (closing, used)) : 0 < used := by
  simp only [closingAt] at h
  split at h
  · next hkeyword =>
    rw [Bool.and_eq_true, decide_eq_true_iff] at hkeyword
    obtain ⟨⟨reference, taken⟩, -, heq⟩ := Option.map_eq_some_iff.mp h
    obtain ⟨-, rfl⟩ := Prod.mk.inj heq
    have hne : rest.takeWhile Char.isAlpha ≠ [] := by
      intro hnil
      rw [hnil] at hkeyword
      exact absurd hkeyword.2 (by decide)
    exact Nat.add_pos_left (List.length_pos_iff.mpr hne) _
  · cases h

/-- `in_line`: the references in what is left of a line, from the character before it. -/
def inLine (before : Option Char) (rest : Text) : List Closing :=
  if _hnil : rest = [] then []
  else
    match _hat : closingAt unicode before rest with
    | some (closing, used) =>
      closing :: inLine ((rest.take used).getLast?.or before) (rest.drop used)
    | none =>
      let skipped := stride unicode before rest
      inLine ((rest.take skipped).getLast?.or before) (rest.drop skipped)
termination_by rest.length
decreasing_by
  · have hused := closingAt_pos unicode _hat
    have hlength := List.length_pos_iff.mpr _hnil
    rw [List.length_drop]
    omega
  · have hstride := stride_pos unicode before rest
    have hlength := List.length_pos_iff.mpr _hnil
    rw [List.length_drop]
    omega

/-- `references`: the distinct references of messages, in the order they first appear. -/
def references (messages : List Text) : List Closing :=
  firsts (fun closing => unicode.toLowercase closing.reference)
    (messages.flatMap fun message => (lines message).flatMap (inLine unicode none))

/-- A token names an issue, and is written back so. -/
inductive Names : Text → Text → Prop
  | number {number : Text} (hnumber : isNumber number = true) : Names ('#' :: number) ('#' :: number)
  | short {owner name number : Text} (howner : isOwner owner = true) (hname : isName name = true)
      (hnumber : isNumber number = true) :
      Names (shortForm owner name number) (shortForm owner name number)
  | url {scheme host owner name number : Text}
      (hscheme : scheme = "https://".toList ∨ scheme = "http://".toList) (hhost : '/' ∉ host)
      (howner : isOwner owner = true) (hname : isName name = true)
      (hnumber : isNumber number = true) :
      Names (scheme ++ List.intercalate ['/'] [host, owner, name, "issues".toList, number])
        (if lowercase host = "github.com".toList then shortForm owner name number
          else scheme ++ List.intercalate ['/'] [host, owner, name, "issues".toList, number])

/-- What may stand between a keyword and its token: a colon, whitespace, or both. -/
def Gap (gap : Text) : Prop :=
  gap ≠ [] ∧ ∃ colon spaces, gap = colon ++ spaces ∧ (colon = [] ∨ colon = [':']) ∧
    ∀ c ∈ spaces, isWhitespace c = true

/-- A token ends: marks of the end of a sentence may follow, up to a terminator or the end of the
line. -/
def Ends (tail : Text) : Prop :=
  ∀ c, (tail.dropWhile isTrailing).head? = some c → isTerminator c = true

/-- A keyword of its own precedes a token that names an issue. -/
def Precedes (line : Text) (closing : Closing) : Prop :=
  ∃ before word gap token tail, line = before ++ (word ++ (gap ++ (token ++ tail))) ∧
    startsWord unicode before.getLast? = true ∧ lowercase word ∈ keywords ∧ Gap gap ∧
    Names token closing.reference ∧ (∀ c ∈ token, isTerminator c = false) ∧ Ends tail ∧
    closing.keyword = capitalised word

end Onevcs.Closings
