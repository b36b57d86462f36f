import Onevcs.Branches.RefFormat
import Onevcs.Foundations.Lines
import Onevcs.Store.Normalize

/-!
# The branch names a testing provider accepts

`named_branch` restates git's rules for a branch's name, and refuses a name that begins with `-`
besides. It is git's grammar but for one class of characters: it refuses every whitespace character,
where git refuses the ASCII ones alone.
-/

namespace Onevcs.Testing

open Foundations (Text)
open Branches (BranchFormat RefFormat UsableComponent forbidden heads refFormat_heads_iff)
open Store (isWhitespace)

/-- `Error`, as far as a testing provider refuses a text with one. -/
inductive Error
  | invalid (reason : Text)

/-- What `named_branch` accepts: a branch name git would accept, that does not begin with `-`. -/
def isNamed (value : Text) : Bool :=
  let componentsUsable :=
    !value.isEmpty && (value.splitOn '/').all fun component =>
      !component.isEmpty && component.head? != some '.' && !".lock".toList.isSuffixOf component
  let holds (needle : Text) := value.tails.any needle.isPrefixOf
  componentsUsable && value.head? != some '-' && !holds "..".toList && !holds "@\x7b".toList &&
    value.getLast? != some '.' && value.getLast? != some '/' && !value.any fun c =>
      isWhitespace c || c.toNat < 0x20 || c.toNat == 0x7f || "~^:?*[\\".toList.contains c

/-- `named_branch`: `quote` is a text as `Debug` prints it. -/
def namedBranch (quote : Text → Text) (value what : Text) : Except Error Unit :=
  if isNamed value then .ok ()
  else .error (.invalid
    (what ++ ' ' :: quote value ++ " is a name git would not accept".toList))

variable {value : Text} {c : Char}

theorem all_usable_iff {components : List Text} :
    (components.all fun component => !component.isEmpty && component.head? != some '.' &&
      !".lock".toList.isSuffixOf component) = true ↔
      ∀ component ∈ components, UsableComponent component := by
  rw [List.all_eq_true]
  refine forall₂_congr fun component _ => ?_
  rw [UsableComponent, Bool.and_eq_true, Bool.and_eq_true, bne_iff_ne, Bool.not_eq_true',
    Bool.not_eq_true', List.isEmpty_eq_false_iff, ← Bool.not_eq_true, List.isSuffixOf_iff_suffix,
    and_assoc]

theorem not_any_tails_iff {needle : Text} :
    (!value.tails.any needle.isPrefixOf) = true ↔ ¬ needle <:+: value := by
  rw [Bool.not_eq_true', ← Bool.not_eq_true, List.any_eq_true, List.infix_iff_prefix_suffix]
  refine not_congr ⟨?_, ?_⟩
  · rintro ⟨tail, htail, hprefix⟩
    exact ⟨tail, List.isPrefixOf_iff_prefix.mp hprefix, (List.mem_tails _ _).mp htail⟩
  · rintro ⟨tail, hprefix, hsuffix⟩
    exact ⟨tail, (List.mem_tails _ _).mpr hsuffix, List.isPrefixOf_iff_prefix.mpr hprefix⟩

theorem refused_iff :
    (isWhitespace c || c.toNat < 0x20 || c.toNat == 0x7f || "~^:?*[\\".toList.contains c) = false ↔
      isWhitespace c = false ∧ forbidden c = false := by
  have hspace : c = ' ' → isWhitespace c = true := by
    rintro rfl
    decide +kernel
  have hcontains : " ~^:?*[\\".toList.contains c = (c == ' ' || "~^:?*[\\".toList.contains c) := rfl
  rw [forbidden, hcontains]
  simp only [Bool.or_eq_false_iff]
  constructor
  · rintro ⟨⟨⟨hwhite, hcontrol⟩, hdel⟩, hpunctuation⟩
    refine ⟨hwhite, ⟨hcontrol, hdel⟩, ?_, hpunctuation⟩
    rw [beq_eq_false_iff_ne]
    intro heq
    rw [hspace heq] at hwhite
    cases hwhite
  · rintro ⟨hwhite, ⟨hcontrol, hdel⟩, -, hpunctuation⟩
    exact ⟨⟨⟨hwhite, hcontrol⟩, hdel⟩, hpunctuation⟩

theorem le_of_isWhitespace (hwhite : isWhitespace c = true) (hallowed : forbidden c = false) :
    0x80 ≤ c.toNat := by
  by_contra hlt
  have hascii : ∀ n < 0x80,
      isWhitespace (Char.ofNat n) = true → forbidden (Char.ofNat n) = true := by decide +kernel
  have hforbidden := hascii c.toNat (Nat.not_le.mp hlt) (by rwa [Char.ofNat_toNat])
  rw [Char.ofNat_toNat, hallowed] at hforbidden
  cases hforbidden

theorem getLast?_ne_slash (h : ∀ component ∈ value.splitOn '/', UsableComponent component) :
    value.getLast? ≠ some '/' := by
  intro hlast
  obtain ⟨front, rfl⟩ := List.getLast?_eq_some_iff.mp hlast
  have hsplit := List.splitOn_append_cons_self (a := '/') front []
  refine (h [] ?_).1 rfl
  rw [hsplit]
  exact List.mem_append_right _ List.mem_cons_self

theorem isNamed_iff : isNamed value = true ↔
    BranchFormat value ∧ value.head? ≠ some '-' ∧ ∀ c ∈ value, isWhitespace c = false := by
  have hchars : (!value.any fun c => isWhitespace c || c.toNat < 0x20 || c.toNat == 0x7f ||
      "~^:?*[\\".toList.contains c) = true ↔
      ∀ c ∈ value, isWhitespace c = false ∧ forbidden c = false := by
    rw [Bool.not_eq_true', List.any_eq_false]
    exact forall₂_congr fun c _ => by rw [Bool.not_eq_true, refused_iff]
  unfold isNamed
  simp only [Bool.and_eq_true, bne_iff_ne]
  rw [all_usable_iff, not_any_tails_iff, not_any_tails_iff, hchars, Bool.not_eq_true']
  constructor
  · rintro ⟨⟨⟨⟨⟨⟨⟨-, hcomponents⟩, hdash⟩, hdots⟩, hreflog⟩, hdot⟩, -⟩, hchars⟩
    exact ⟨⟨hcomponents, hdots, fun c hc => (hchars c hc).2, hdot, hreflog⟩, hdash,
      fun c hc => (hchars c hc).1⟩
  · rintro ⟨h, hdash, hwhite⟩
    have hempty : value.isEmpty = false := by
      rw [List.isEmpty_eq_false_iff]
      rintro rfl
      exact (h.components [] List.mem_cons_self).1 rfl
    exact ⟨⟨⟨⟨⟨⟨⟨hempty, h.components⟩, hdash⟩, h.noDots⟩, h.noReflog⟩, h.noDotEnd⟩,
      getLast?_ne_slash h.components⟩, fun c hc => ⟨hwhite c hc, h.allowed c hc⟩⟩

theorem namedBranch_eq_ok_iff (quote : Text → Text) (what : Text) :
    namedBranch quote value what = .ok () ↔ isNamed value = true := by
  unfold namedBranch
  split
  case isTrue h => exact iff_of_true rfl h
  case isFalse h => exact iff_of_false (fun hok => nomatch hok) h

/-- A name is accepted as git accepts it, and refused where it begins with `-`, exactly where it
begins so, or git refuses it, or it has no whitespace beyond ASCII. -/
theorem namedBranch_gits_iff (quote : Text → Text) (value what : Text) :
    ((value.head? = some '-' → namedBranch quote value what ≠ .ok ()) ∧
      (value.head? ≠ some '-' →
        (namedBranch quote value what = .ok () ↔ RefFormat (heads value)))) ↔
    value.head? = some '-' ∨ ¬ RefFormat (heads value) ∨
      ∀ c ∈ value, isWhitespace c = true → c.toNat < 0x80 := by
  simp only [ne_eq, namedBranch_eq_ok_iff, isNamed_iff, refFormat_heads_iff]
  by_cases hdash : value.head? = some '-'
  · exact iff_of_true ⟨fun _ h => h.2.1 hdash, fun h => absurd hdash h⟩ (.inl hdash)
  by_cases hformat : BranchFormat value
  · have hwhite : (∀ c ∈ value, isWhitespace c = false) ↔
        ∀ c ∈ value, isWhitespace c = true → c.toNat < 0x80 := by
      refine forall₂_congr fun c hc => ⟨fun h hwhite => ?_, fun h => ?_⟩
      · rw [h] at hwhite
        cases hwhite
      · rw [← Bool.not_eq_true]
        intro hwhite
        exact absurd (h hwhite) (Nat.not_lt.mpr (le_of_isWhitespace hwhite (hformat.allowed c hc)))
    simp [hdash, hformat, hwhite]
  · simp [hdash, hformat]

/-- Git accepts a branch with an ideographic space in its name. -/
theorem ideographic_space_refused : RefFormat (heads ['a', '\u3000', 'b']) ∧
    ∀ quote what, namedBranch quote ['a', '\u3000', 'b'] what ≠ .ok () := by
  constructor
  · rw [refFormat_heads_iff]
    exact
      { components := by decide +kernel
        noDots := by decide +kernel
        allowed := fun c hc => by
          have hall : (['a', '\u3000', 'b'].all fun c => !forbidden c) = true := by decide +kernel
          simpa using List.all_eq_true.mp hall c hc
        noDotEnd := by decide +kernel
        noReflog := by decide +kernel }
  · intro quote what hok
    have hrefused : isNamed ['a', '\u3000', 'b'] = false := by decide +kernel
    rw [(namedBranch_eq_ok_iff quote what).mp hok] at hrefused
    cases hrefused

end Onevcs.Testing
