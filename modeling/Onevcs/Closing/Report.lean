import Onevcs.Closing.Carried
import Onevcs.Foundations.Json
import Onevcs.Foundations.Overlay

/-!
# What a landing reports closing

`report` and `reported` of `closing.rs`: the issues a landing's event says it closes, and what a
reader makes of the field.
-/

namespace Onevcs.Closings

open Foundations (Json Text firsts lines)
open Store (splitOnce stripPrefix)
open Review (lowercase splitOnce_append)

/-- A value of a payload that is neither list nor object. -/
inductive Scalar
  | null
  | bool (value : Bool)
  | number (text : Text)
  | string (text : Text)

abbrev Payload := List (String × Json Scalar)

/-- `Issue`: an owner and a name that can be a repository's, and a number an issue's. -/
structure Issue where
  owner : Text
  name : Text
  number : ℕ
  isOwner_owner : isOwner owner = true
  isName_name : isName name = true
  positive : 0 < number
  bounded : number < 2 ^ 64

/-- `Issue::new`, of a number that is a `u64`. -/
def Issue.new (owner name : Text) (number : ℕ) : Option Issue :=
  if h : isOwner owner = true ∧ isName name = true ∧ 0 < number ∧ number < 2 ^ 64 then
    some ⟨owner, name, number, h.1, h.2.1, h.2.2.1, h.2.2.2⟩
  else none

def Issue.spelled (issue : Issue) : Text :=
  shortForm issue.owner issue.name (Nat.toDigits 10 issue.number)

/-- `str::parse`, as a `u64`. -/
def parseU64 (text : Text) : Option ℕ :=
  let digits := (stripPrefix ['+'] text).getD text
  let value := Nat.ofDigitChars 10 digits 0
  if isNumber digits = true ∧ value < 2 ^ 64 then some value else none

/-- The issue that a spelling is of. -/
def readIssue (spelled : Text) : Option Issue :=
  (splitOnce '#' spelled).bind fun (repository, number) =>
    (splitOnce '/' repository).bind fun (owner, name) =>
      (parseU64 number).bind (Issue.new owner name)

/-- Why a field is refused, with what it holds. -/
inductive Refusal
  | notAList (closes : Json Scalar)
  | notAString (closes : Json Scalar)
  | notAnIssue (spelled : Text) (closes : Json Scalar)

variable (unicode : Unicode)

/-- `report`: the payload with the issues as `owner/name#N`, each once ignoring case. -/
def report (payload : Payload) (issues : List Issue) : Payload :=
  Foundations.put Prod.fst
    ("closes", .array ((firsts unicode.toLowercase (issues.map Issue.spelled)).map fun spelled =>
      .leaf (.string spelled))) payload

def reportedItem (closes : Json Scalar) : Json Scalar → Except Refusal Text
  | .leaf (.string spelled) =>
    if (readIssue spelled).any fun issue => issue.spelled = spelled then .ok spelled
    else .error (.notAnIssue spelled closes)
  | _ => .error (.notAString closes)

def reported (payload : Payload) : Except Refusal (List Text) :=
  match payload.lookup "closes" with
  | none => .ok []
  | some (.array items) => items.mapM (reportedItem (.array items))
  | some closes => .error (.notAList closes)

section Reported

variable {unicode : Unicode} {spelled : Text}

theorem parseU64_toDigits {n : ℕ} (h : n < 2 ^ 64) : parseU64 (Nat.toDigits 10 n) = some n := by
  have hdigits : ∀ c ∈ Nat.toDigits 10 n, c.isDigit = true := fun _ hc =>
    Nat.isDigit_of_mem_toDigits (by decide) (by decide) hc
  have hplus : stripPrefix ['+'] (Nat.toDigits 10 n) = none := by
    cases hstrip : stripPrefix ['+'] (Nat.toDigits 10 n) with
    | none => rfl
    | some rest =>
      have hsign := hdigits '+' (by
        rw [Review.stripPrefix_eq_some_iff.mp hstrip]
        exact List.mem_cons_self)
      exact absurd hsign (by decide)
  have hnumber : isNumber (Nat.toDigits 10 n) = true := by
    rw [isNumber, Bool.and_eq_true, Bool.not_eq_true', List.isEmpty_eq_false_iff]
    exact ⟨Nat.toDigits_ne_nil, List.all_eq_true.mpr hdigits⟩
  simp only [parseU64, hplus, Option.getD_none, Nat.ofDigitChars_ten_toDigits]
  exact if_pos ⟨hnumber, h⟩

theorem readIssue_spelled (issue : Issue) : readIssue issue.spelled = some issue := by
  have hmark : splitOnce '#' issue.spelled =
      some (issue.owner ++ '/' :: issue.name, Nat.toDigits 10 issue.number) := by
    have hform : issue.spelled =
        (issue.owner ++ '/' :: issue.name) ++ '#' :: Nat.toDigits 10 issue.number := by
      simp [Issue.spelled, shortForm]
    rw [hform]
    exact splitOnce_append (by
      simp [not_mem_isOwner issue.isOwner_owner, not_mem_isName issue.isName_name])
  have hslash : splitOnce '/' (issue.owner ++ '/' :: issue.name) =
      some (issue.owner, issue.name) :=
    splitOnce_append (not_mem_isOwner issue.isOwner_owner (by simp))
  simp only [readIssue, hmark, Option.bind_some, hslash, parseU64_toDigits issue.bounded]
  exact dif_pos ⟨issue.isOwner_owner, issue.isName_name, issue.positive, issue.bounded⟩

theorem mapM_reportedItem {closes : Json Scalar} {spellings : List Text}
    (h : ∀ spelled ∈ spellings, ∃ issue : Issue, issue.spelled = spelled) :
    (spellings.map fun spelled => Json.leaf (Scalar.string spelled)).mapM (reportedItem closes) =
      .ok spellings := by
  induction spellings with
  | nil => rfl
  | cons spelled rest ih =>
    obtain ⟨issue, rfl⟩ := h spelled List.mem_cons_self
    have hitem : reportedItem closes (.leaf (.string issue.spelled)) = .ok issue.spelled :=
      if_pos (by rw [readIssue_spelled]; exact decide_eq_true rfl)
    rw [List.map_cons, List.mapM_cons, hitem,
      ih fun other hother => h other (List.mem_cons_of_mem _ hother)]
    rfl

theorem reported_report (payload : Payload) (issues : List Issue) :
    reported (report unicode payload issues) =
      .ok (firsts unicode.toLowercase (issues.map Issue.spelled)) := by
  have hfield : (report unicode payload issues).lookup "closes" =
      some (.array ((firsts unicode.toLowercase (issues.map Issue.spelled)).map fun spelled =>
        .leaf (.string spelled))) :=
    Foundations.lookup_put_self "closes" _ payload
  rw [reported, hfield]
  refine mapM_reportedItem fun spelled hspelled => ?_
  obtain ⟨issue, -, heq⟩ := List.mem_map.mp ((Foundations.firsts_sublist _ _).subset hspelled)
  exact ⟨issue, heq⟩

end Reported

theorem issue_github {scheme host owner name number : Text}
    (hscheme : scheme = "https://".toList ∨ scheme = "http://".toList) (hhost : '/' ∉ host)
    (hgithub : lowercase host = "github.com".toList) (howner : isOwner owner = true)
    (hname : isName name = true) (hnumber : isNumber number = true) :
    issue (scheme ++ List.intercalate ['/'] [host, owner, name, "issues".toList, number]) =
      issue (shortForm owner name number) := by
  have hurl := Names.url hscheme hhost howner hname hnumber
  rw [if_pos hgithub] at hurl
  rw [issue_eq_some_iff.mpr hurl, issue_eq_some_iff.mpr (.short howner hname hnumber)]

/-- References are carried exactly. Of any messages, `references` answers the first of each
reference, ignoring case, that a keyword precedes in some line, each once and in the order of the
places; a `github.com` issue's URL and its short form are one reference; the lines they are written
back as are read as the same; and what is reported of any issues is read back as their spellings,
each once. -/
theorem closing_references_kept :
    (∀ messages, references unicode messages =
        firsts (fun closing => unicode.toLowercase closing.reference)
          (messages.flatMap fun message => (lines message).flatMap (occurrences unicode none))) ∧
      (∀ line closing, closing ∈ occurrences unicode none line ↔ Precedes unicode line closing) ∧
      (∀ messages, ((references unicode messages).map fun closing =>
        unicode.toLowercase closing.reference).Nodup) ∧
      (∀ messages reference,
        (∃ closing ∈ references unicode messages, unicode.toLowercase closing.reference = reference) ↔
          ∃ message ∈ messages, ∃ line ∈ lines message, ∃ closing,
            Precedes unicode line closing ∧ unicode.toLowercase closing.reference = reference) ∧
      (∀ scheme host owner name number, scheme = "https://".toList ∨ scheme = "http://".toList →
        '/' ∉ host → lowercase host = "github.com".toList → isOwner owner = true →
          isName name = true → isNumber number = true →
            issue (scheme ++ List.intercalate ['/'] [host, owner, name, "issues".toList, number]) =
              issue (shortForm owner name number)) ∧
      (∀ messages, references unicode [written (references unicode messages)] =
        references unicode messages) ∧
      ∀ payload issues, reported (report unicode payload issues) =
        .ok (firsts unicode.toLowercase (issues.map Issue.spelled)) := by
  refine ⟨fun messages => ?_, fun line closing => ?_, fun messages => Foundations.nodup_firsts _ _,
    fun messages reference => ?_, fun _ _ _ _ _ => issue_github, references_carried,
    reported_report⟩
  · have hscan : inLine unicode none = occurrences unicode none := funext (inLine_eq unicode none)
    rw [references, hscan]
  · rw [← inLine_eq, mem_inLine_iff]
  · rw [references, Foundations.exists_firsts_iff]
    constructor
    · rintro ⟨closing, hmem, rfl⟩
      obtain ⟨message, hmessage, hmem⟩ := List.mem_flatMap.mp hmem
      obtain ⟨line, hline, hmem⟩ := List.mem_flatMap.mp hmem
      exact ⟨message, hmessage, line, hline, closing, mem_inLine_iff.mp hmem, rfl⟩
    · rintro ⟨message, hmessage, line, hline, closing, hprecedes, rfl⟩
      exact ⟨closing, List.mem_flatMap.mpr ⟨message, hmessage, List.mem_flatMap.mpr
        ⟨line, hline, mem_inLine_iff.mpr hprecedes⟩⟩, rfl⟩

end Onevcs.Closings
