import Onevcs.Closing.Scanning

/-!
# References written back and read again

Each reference is written back as a line of its own, a keyword and a space before it; the lines read
again are the references they are of.
-/

namespace Onevcs.Closings

open Foundations (Text lines)
open Review (lowercase)

variable {unicode : Unicode} {token reference line : Text} {closing : Closing} {c : Char}

/-- The message lines that references are written back as. -/
def written (closings : List Closing) : Text :=
  List.intercalate ['\n'] (closings.map Closing.line)

/-! ## What is written back -/

theorem Names.written (h : Names token reference) : Names reference reference := by
  cases h with
  | number hnumber => exact .number hnumber
  | short howner hname hnumber => exact .short howner hname hnumber
  | @url scheme host owner name number hscheme hhost howner hname hnumber =>
    have hurl := Names.url hscheme hhost howner hname hnumber
    split
    · exact .short howner hname hnumber
    · next hother =>
      rw [if_neg hother] at hurl
      exact hurl

theorem Names.free (h : Names token reference) (hfree : ∀ c ∈ token, isTerminator c = false) :
    ∀ c ∈ reference, isTerminator c = false := by
  cases h with
  | number => exact hfree
  | short => exact hfree
  | @url scheme host owner name number =>
    split
    · intro c hc
      rw [intercalate_eq] at hfree
      simp only [shortForm, List.mem_append, List.mem_cons] at hc
      refine if hmark : c = '#' then ?_ else hfree c ?_
      · subst hmark
        decide
      · simp only [afterHost, List.mem_append, List.mem_cons]
        tauto
    · exact hfree

theorem capitalised_keyword {word : Text} (h : lowercase word ∈ keywords) :
    lowercase (capitalised word) = lowercase word ∧
      capitalised (capitalised word) = capitalised word := by
  have hall : (keywords.all fun keyword => lowercase (capitalised keyword) == keyword) = true := by
    decide +kernel
  have hlower : (keywords.all fun keyword => lowercase keyword == keyword) = true := by
    decide +kernel
  have hkeyword : lowercase (lowercase word) = lowercase word :=
    beq_iff_eq.mp (List.all_eq_true.mp hlower _ h)
  have hsame : capitalised (lowercase word) = capitalised word := by
    unfold capitalised
    rw [hkeyword]
  have hback : lowercase (capitalised word) = lowercase word := by
    rw [← hsame]
    exact beq_iff_eq.mp (List.all_eq_true.mp hall _ h)
  refine ⟨hback, ?_⟩
  have hcapital : ∀ {text other : Text}, lowercase text = lowercase other →
      capitalised text = capitalised other := by
    intro text other heq
    unfold capitalised
    rw [heq]
  exact hcapital hback

/-- What `references` answers of a closing. -/
structure Wellformed (closing : Closing) : Prop where
  keyword : lowercase closing.keyword ∈ keywords
  capital : capitalised closing.keyword = closing.keyword
  names : Names closing.reference closing.reference
  free : ∀ c ∈ closing.reference, isTerminator c = false

theorem wellformed_of_precedes (h : Precedes unicode line closing) : Wellformed closing := by
  obtain ⟨before, word, gap, token, tail, -, -, hkeyword, -, hnames, hfree, -, hcapital⟩ := h
  obtain ⟨hlower, hagain⟩ := capitalised_keyword hkeyword
  refine ⟨?_, ?_, hnames.written, hnames.free hfree⟩
  · rwa [hcapital, hlower]
  · rw [hcapital, hagain]

theorem wellformed_of_mem {messages : List Text} (h : closing ∈ references unicode messages) :
    Wellformed closing := by
  obtain ⟨message, -, hmem⟩ := List.mem_flatMap.mp ((Foundations.firsts_sublist _ _).subset h)
  obtain ⟨line, -, hline⟩ := List.mem_flatMap.mp hmem
  exact wellformed_of_precedes (mem_inLine_iff.mp hline)

theorem inLine_line (h : Wellformed closing) : inLine unicode none closing.line = [closing] := by
  have hat : closingAt unicode none closing.line = some (closing, closing.line.length) := by
    refine closingAt_eq_some_iff.mpr ⟨rfl, closing.keyword, [' '], closing.reference, [], ?_,
      h.keyword, ⟨List.cons_ne_nil _ _, [], [' '], rfl, .inl rfl, ?_⟩, h.names, h.free, nofun,
      h.capital.symm, ?_⟩
    · rw [List.append_nil]
      rfl
    · intro c hc
      obtain rfl := List.mem_singleton.mp hc
      decide
    · rw [Closing.line, List.length_append, List.length_cons, List.length_singleton, Nat.add_comm 1]
  have hne : closing.line ≠ [] :=
    List.append_ne_nil_of_right_ne_nil _ (List.cons_ne_nil _ _)
  rw [inLine, dif_neg hne]
  split
  · next found used hfound =>
    obtain ⟨rfl, rfl⟩ := Prod.mk.inj (Option.some.inj (hat.symm.trans hfound))
    rw [List.drop_length, inLine, dif_pos rfl]
  · next hnone =>
    rw [hat] at hnone
    cases hnone

theorem Wellformed.line_spec (h : Wellformed closing) :
    '\n' ∉ closing.line ∧ closing.line ≠ [] ∧ closing.line.getLast? ≠ some '\r' := by
  refine ⟨fun hmem => ?_, List.append_ne_nil_of_right_ne_nil _ (List.cons_ne_nil _ _), fun hlast => ?_⟩
  · rcases List.mem_append.mp hmem with hmem | hmem
    · exact absurd (isAlpha_of_keyword h.keyword hmem) (by decide)
    · have hfree := h.free '\n' ((List.mem_cons.mp hmem).resolve_left (by decide))
      exact absurd hfree (by decide)
  · obtain ⟨digit, hdigit, hisDigit⟩ := h.names.getLast
    have hreference : closing.line.getLast? = some digit := by
      rw [Closing.line, List.getLast?_append_of_ne_nil _ (List.cons_ne_nil _ _),
        List.getLast?_cons, hdigit]
      rfl
    obtain rfl := Option.some.inj (hreference.symm.trans hlast)
    exact absurd hisDigit (by decide)

theorem references_written {closings : List Closing} (h : ∀ closing ∈ closings, Wellformed closing)
    (hnodup : (closings.map fun closing => unicode.toLowercase closing.reference).Nodup) :
    references unicode [written closings] = closings := by
  have hlines : lines (written closings) = closings.map Closing.line := by
    have hspec : ∀ line ∈ closings.map Closing.line,
        '\n' ∉ line ∧ line ≠ [] ∧ line.getLast? ≠ some '\r' := fun line hline => by
      obtain ⟨closing, hclosing, rfl⟩ := List.mem_map.mp hline
      exact (h closing hclosing).line_spec
    refine Foundations.lines_intercalate
      (fun line hline => ⟨(hspec line hline).1, (hspec line hline).2.2⟩) fun hlast => ?_
    exact (hspec [] (List.mem_of_mem_getLast? hlast)).2.1 rfl
  have hread : (closings.map Closing.line).flatMap (inLine unicode none) = closings := by
    clear hlines hnodup
    induction closings with
    | nil => rfl
    | cons closing closings ih =>
      rw [List.map_cons, List.flatMap_cons, inLine_line (h closing List.mem_cons_self),
        ih fun other hother => h other (List.mem_cons_of_mem _ hother)]
      rfl
  rw [references, List.flatMap_singleton, hlines, hread, Foundations.firsts_eq_self hnodup]

theorem references_carried (messages : List Text) :
    references unicode [written (references unicode messages)] = references unicode messages :=
  references_written (fun _ h => wellformed_of_mem h) (Foundations.nodup_firsts _ _)

end Onevcs.Closings
