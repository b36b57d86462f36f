import Mathlib.Data.List.DropRight
import Mathlib.Data.List.Basic

/-!
# The lines of a text, and line diffs

A text is a list of characters. `pieces` cuts it after each newline and keeps the
newlines, which is how a line diff sees it; `lines` drops the line endings; `contents`
drops every carriage return and newline a piece ends in.

A line diff is an edit script: read without what it adds it is the old text, and read
without what it removes it is the new one.
-/

namespace Foundations

abbrev Text := List Char

instance : LawfulBEq Text := inferInstanceAs (LawfulBEq (List Char))

/-- The text cut after each newline. -/
@[grind] def pieces : Text → List Text
  | [] => []
  | c :: rest =>
    if c = '\n' then [c] :: pieces rest
    else
      match pieces rest with
      | [] => [[c]]
      | first :: more => (c :: first) :: more

/-- Whether a character ends a line. -/
def isLineEnd (c : Char) : Bool := c == '\n' || c == '\r'

/-- A piece without the newlines and carriage returns it ends in. -/
def trimEnd (piece : Text) : Text := piece.rdropWhile isLineEnd

/-- A piece without its line ending: a newline, and one carriage return before it. -/
def stripLineEnding (piece : Text) : Text :=
  if piece.getLast? = some '\n' then
    if piece.dropLast.getLast? = some '\r' then piece.dropLast.dropLast else piece.dropLast
  else piece

def lines (text : Text) : List Text := (pieces text).map stripLineEnding

/-- What the lines of a text hold. -/
def contents (text : Text) : List Text := (pieces text).map trimEnd

@[simp] theorem pieces_nil : pieces [] = [] := rfl

@[simp] theorem contents_nil : contents [] = [] := rfl

theorem trimEnd_idem (piece : Text) : trimEnd (trimEnd piece) = trimEnd piece :=
  List.rdropWhile_idempotent isLineEnd piece

theorem trimEnd_append_newline (line : Text) : trimEnd (line ++ ['\n']) = trimEnd line :=
  List.rdropWhile_concat_pos isLineEnd line '\n' rfl

theorem pieces_append_newline {line : Text} (h : '\n' ∉ line) (rest : Text) :
    pieces (line ++ '\n' :: rest) = (line ++ ['\n']) :: pieces rest := by
  induction line with
  | nil => simp [pieces]
  | cons c line ih =>
    simp only [List.mem_cons, not_or] at h
    rw [List.cons_append, pieces, if_neg (Ne.symm h.1), ih h.2]
    rfl

theorem flatten_pieces (text : Text) : (pieces text).flatten = text := by
  induction text with
  | nil => rfl
  | cons c rest ih =>
    unfold pieces
    split
    · rw [List.flatten_cons, ih]
      rfl
    · split
      · rename_i hpieces
        rw [hpieces] at ih
        simpa using ih
      · rename_i hpieces
        rw [hpieces] at ih
        simpa using ih

/-- A text is cut after a newline. -/
theorem pieces_append_newline_append (before after : Text) :
    pieces (before ++ '\n' :: after) = pieces (before ++ ['\n']) ++ pieces after := by
  induction before with
  | nil => rfl
  | cons c before ih =>
    rw [List.cons_append, List.cons_append, pieces, pieces, ih]
    split
    · rfl
    · cases hfirst : pieces (before ++ ['\n']) with
      | nil =>
        have hflatten := flatten_pieces (before ++ ['\n'])
        simp [hfirst] at hflatten
      | cons first more => rfl

theorem stripLineEnding_of_not_mem {line : Text} (h : '\n' ∉ line) : stripLineEnding line = line :=
  if_neg fun hlast => h (List.mem_of_getLast? hlast)

/-- What a line of a text holds is part of the text. -/
theorem infix_of_mem_contents {text line : Text} (h : line ∈ contents text) : line <:+: text := by
  obtain ⟨piece, hpiece, rfl⟩ := List.mem_map.mp h
  have hinfix := List.infix_of_mem_flatten hpiece
  rw [flatten_pieces] at hinfix
  exact (List.rdropWhile_prefix _ _).isInfix.trans hinfix

/-- A piece is a line without newlines, with or without one at its end. -/
theorem piece_cases {text piece : Text} (h : piece ∈ pieces text) :
    ∃ line, '\n' ∉ line ∧ (piece = line ∨ piece = line ++ ['\n']) := by
  induction text generalizing piece with
  | nil => cases h
  | cons c rest ih =>
    unfold pieces at h
    split at h
    · rename_i hc
      rcases List.mem_cons.mp h with rfl | hrest
      · exact ⟨[], by simp, .inr (by rw [hc]; rfl)⟩
      · exact ih hrest
    · rename_i hc
      split at h
      · obtain rfl := List.mem_singleton.mp h
        exact ⟨[c], by simpa using Ne.symm hc, .inl rfl⟩
      · rename_i first more hpieces
        rcases List.mem_cons.mp h with rfl | hmore
        · obtain ⟨line, hline, hfirst⟩ := ih (hpieces ▸ List.mem_cons_self)
          refine ⟨c :: line, by simp [hline, Ne.symm hc], ?_⟩
          exact hfirst.imp (congrArg (c :: ·)) (congrArg (c :: ·))
        · exact ih (hpieces ▸ List.mem_cons_of_mem _ hmore)

theorem pieces_of_not_mem {line : Text} (h : '\n' ∉ line) (hne : line ≠ []) :
    pieces line = [line] := by
  induction line with
  | nil => exact absurd rfl hne
  | cons c line ih =>
    simp only [List.mem_cons, not_or] at h
    rw [pieces, if_neg (Ne.symm h.1)]
    by_cases hnil : line = []
    · rw [hnil]
      rfl
    · rw [ih h.2 hnil]

/-- What a piece holds has no newline. -/
theorem newline_not_mem_trimEnd {text piece : Text} (h : piece ∈ pieces text) :
    '\n' ∉ trimEnd piece := by
  obtain ⟨line, hline, hpiece⟩ := piece_cases h
  have hshorter : trimEnd piece <+: line := by
    rcases hpiece with rfl | rfl
    · exact List.rdropWhile_prefix _ _
    · rw [trimEnd_append_newline]
      exact List.rdropWhile_prefix _ _
  exact fun hmem => hline (hshorter.subset hmem)

/-- Texts written one a line hold those texts. -/
theorem contents_flatMap_line {texts : List Text} (h : ∀ text ∈ texts, '\n' ∉ text) :
    contents (texts.flatMap fun text => text ++ ['\n']) = texts.map trimEnd := by
  induction texts with
  | nil => rfl
  | cons text rest ih =>
    obtain ⟨htext, hrest⟩ := List.forall_mem_cons.mp h
    rw [List.flatMap_cons, List.append_assoc, contents]
    show List.map trimEnd (pieces (text ++ '\n' :: _)) = _
    rw [pieces_append_newline htext, List.map_cons, List.map_cons, trimEnd_append_newline]
    exact congrArg _ (ih hrest)

theorem stripLineEnding_append_newline {line : Text} (h : line.getLast? ≠ some '\r') :
    stripLineEnding (line ++ ['\n']) = line := by
  rw [stripLineEnding, if_pos (by simp), List.dropLast_concat, if_neg h]

/-- Lines with newlines between them are read as they were, where the last is not empty. -/
theorem lines_intercalate {written : List Text}
    (h : ∀ line ∈ written, '\n' ∉ line ∧ line.getLast? ≠ some '\r')
    (hlast : written.getLast? ≠ some []) : lines (['\n'].intercalate written) = written := by
  induction written with
  | nil => rfl
  | cons line rest ih =>
    obtain ⟨hnewline, hreturn⟩ := h line List.mem_cons_self
    cases rest with
    | nil =>
      have hne : line ≠ [] := fun heq => hlast (by rw [heq]; rfl)
      rw [List.intercalate_singleton, lines, pieces_of_not_mem hnewline hne, List.map_singleton,
        stripLineEnding_of_not_mem hnewline]
    | cons next rest =>
      rw [List.getLast?_cons_cons] at hlast
      rw [List.intercalate_cons_cons, List.append_assoc, List.singleton_append, lines,
        pieces_append_newline hnewline, List.map_cons, stripLineEnding_append_newline hreturn]
      exact congrArg (line :: ·) (ih (fun other hother => h other (List.mem_cons_of_mem _ hother)) hlast)

/-- A line has no newline, and holds what its piece does. -/
theorem stripLineEnding_spec {text piece : Text} (h : piece ∈ pieces text) :
    '\n' ∉ stripLineEnding piece ∧ trimEnd (stripLineEnding piece) = trimEnd piece := by
  obtain ⟨line, hline, rfl | rfl⟩ := piece_cases h
  · have hlast : piece.getLast? ≠ some '\n' := fun hlast => hline (List.mem_of_getLast? hlast)
    rw [stripLineEnding, if_neg hlast]
    exact ⟨hline, rfl⟩
  · rw [stripLineEnding, if_pos List.getLast?_concat, List.dropLast_concat, trimEnd_append_newline]
    split
    · rename_i hreturn
      obtain ⟨start, rfl⟩ : ∃ start, line = start ++ ['\r'] :=
        ⟨_, (List.dropLast_append_getLast? _ hreturn).symm⟩
      rw [List.dropLast_concat]
      refine ⟨fun hmem => hline (List.mem_append_left _ hmem), ?_⟩
      exact (List.rdropWhile_concat_pos isLineEnd start '\r' rfl).symm
    · exact ⟨hline, rfl⟩

/-- What a line diff does with a line. -/
inductive Origin
  | kept
  | added
  | removed
  deriving DecidableEq

/-- A line diff: every line of both texts, in order. -/
abbrev Script (α : Type) := List (Origin × α)

/-- The script takes the old lines to the new. -/
structure Aligns {α : Type} (script : Script α) (old new : List α) : Prop where
  old : (script.filter fun line => line.1 != .added).map Prod.snd = old
  new : (script.filter fun line => line.1 != .removed).map Prod.snd = new

namespace Aligns

variable {α : Type} {script : Script α} {old new : List α} {line : α}

/-- A line of the new text is kept from the old one or added. -/
theorem kept_or_added (h : Aligns script old new) (hline : line ∈ new) :
    (.kept, line) ∈ script ∨ (.added, line) ∈ script := by
  rw [← h.new] at hline
  obtain ⟨⟨origin, _⟩, hmem, rfl⟩ := List.mem_map.mp hline
  obtain ⟨hscript, horigin⟩ := List.mem_filter.mp hmem
  cases origin with
  | kept => exact .inl hscript
  | added => exact .inr hscript
  | removed => simp at horigin

theorem old_of_kept (h : Aligns script old new) (hkept : (.kept, line) ∈ script) : line ∈ old := by
  rw [← h.old]
  exact List.mem_map.mpr ⟨_, List.mem_filter.mpr ⟨hkept, rfl⟩, rfl⟩

theorem new_of_kept (h : Aligns script old new) (hkept : (.kept, line) ∈ script) : line ∈ new := by
  rw [← h.new]
  exact List.mem_map.mpr ⟨_, List.mem_filter.mpr ⟨hkept, rfl⟩, rfl⟩

theorem new_of_added (h : Aligns script old new) (hadded : (.added, line) ∈ script) :
    line ∈ new := by
  rw [← h.new]
  exact List.mem_map.mpr ⟨_, List.mem_filter.mpr ⟨hadded, rfl⟩, rfl⟩

end Aligns

/-- The line diff that keeps nothing. -/
def rewriting {α : Type} (old new : List α) : Script α :=
  old.map (Origin.removed, ·) ++ new.map (Origin.added, ·)

theorem rewriting_aligns {α : Type} (old new : List α) : Aligns (rewriting old new) old new where
  old := by simp [rewriting, List.filter_map, Function.comp_def]
  new := by simp [rewriting, List.filter_map, Function.comp_def]

end Foundations
