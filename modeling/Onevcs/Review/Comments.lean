import Onevcs.Foundations.Lines
import Onevcs.Foundations.Trimming
import Onevcs.Store.Normalize

/-!
# Review comments and the marker a reply ends with

The records of `review.rs` that a read of a change request answers with, and the hidden last
line of every reply: `render_marker`, `compose` and `parse_marker`, with the checks a caller's
key, label and comment id pass before they are written into one.
-/

namespace Onevcs.Review

open Foundations (Text lines)
open Store (isWhitespace trim stripPrefix splitOnce)

structure ReplyMarker where
  inReplyTo : Text
  key : Text
  label : Option Text
  deriving DecidableEq

inductive CommentKind
  | reviewThread (thread path : Text) (line : Option ℕ) (outdated resolved : Bool)
  | review (state : Text)
  | conversation
  deriving DecidableEq

structure ReviewComment where
  id : Text
  kind : CommentKind
  author : Text
  body : Text
  url : Text
  createdAt : Text
  updatedAt : Text
  inReplyTo : Option Text
  ours : Bool
  replyMarker : Option ReplyMarker
  deriving DecidableEq

/-! ## Writing a marker -/

def trimEnd (text : Text) : Text := text.rdropWhile isWhitespace

def stripSuffix (ending text : Text) : Option Text :=
  (stripPrefix ending.reverse text.reverse).map List.reverse

def splitWhitespace (text : Text) : List Text :=
  (text.splitOnP isWhitespace).filter fun word => !word.isEmpty

def isControl (c : Char) : Bool := c.toNat < 0x20 || (0x7f ≤ c.toNat && c.toNat < 0xa0)

def isToken (value : Text) : Bool :=
  !value.isEmpty && value.all fun c => c.isAlphanum || c == '-'

def isMarkable (value : Text) : Bool :=
  !value.isEmpty &&
    !value.any fun c => isWhitespace c || isControl c || c == '<' || c == '>'

def opening : Text := "<!-- onevcs:reply ".toList

def closing : Text := "-->".toList

/-- The name of the field of a marker that says which comment it answers. -/
def inReplyToName : Text := "in-reply-to".toList

def keyName : Text := "key".toList

def labelName : Text := "label".toList

def field (name value : Text) : Text := name ++ '=' :: value

/-- `render_marker`, with a space before the label where there is one. -/
def renderMarker (marker : ReplyMarker) : Text :=
  let label := match marker.label with
    | some label => ' ' :: field labelName label
    | none => []
  opening ++ field inReplyToName marker.inReplyTo ++ ' ' :: field keyName marker.key ++ label ++
    ' ' :: closing

def compose (body : Text) (marker : ReplyMarker) : Text :=
  trimEnd body ++ "\n\n".toList ++ renderMarker marker

/-! ## Reading one -/

/-- The fields of a marker that were read. -/
structure Fields where
  inReplyTo : Option Text
  key : Option Text
  label : Option Text
  deriving DecidableEq

/-- Put a value in a field's slot: it says something, and the field was not given before. -/
def put (slot : Option Text) (value : Text) : Option (Option Text) :=
  if value.isEmpty || slot.isSome then none else some (some value)

def readField (fields : Fields) (field : Text) : Option Fields :=
  match splitOnce '=' field with
  | none => none
  | some (name, value) =>
    if name = inReplyToName then
      (put fields.inReplyTo value).map fun slot => { fields with inReplyTo := slot }
    else if name = keyName then
      (put fields.key value).map fun slot => { fields with key := slot }
    else if name = labelName then
      (put fields.label value).map fun slot => { fields with label := slot }
    -- a later build may write more
    else some fields

/-- The last line of a body that is not blank. -/
def lastLine (body : Text) : Option Text :=
  ((lines body).map trim).reverse.find? fun line => !line.isEmpty

def parseMarker (body : Text) : Option ReplyMarker :=
  match ((lastLine body).bind (stripPrefix opening)).bind (stripSuffix closing) with
  | none => none
  | some inner =>
    match (splitWhitespace (trim inner)).foldlM readField ⟨none, none, none⟩ with
    | some ⟨some inReplyTo, some key, label⟩ =>
      if label.all isToken then some ⟨inReplyTo, key, label⟩ else none
    | _ => none

/-- What `checked_key`, `checked_label` and `checked_comment` let a marker hold. -/
def ReplyMarker.checked (marker : ReplyMarker) : Bool :=
  isMarkable marker.inReplyTo && isMarkable marker.key && marker.label.all isToken

section Words

variable {text word value name : Text} {c : Char}

theorem stripPrefix_append (start rest : Text) : stripPrefix start (start ++ rest) = some rest := by
  have hprefix : start.isPrefixOf (start ++ rest) = true :=
    List.isPrefixOf_iff_prefix.mpr (List.prefix_append start rest)
  rw [stripPrefix, if_pos hprefix, List.drop_left]

theorem stripPrefix_eq_some_iff {start rest : Text} :
    stripPrefix start text = some rest ↔ text = start ++ rest := by
  constructor
  · intro h
    unfold stripPrefix at h
    split at h
    · next hstart =>
      obtain ⟨tail, rfl⟩ := List.isPrefixOf_iff_prefix.mp hstart
      obtain rfl := Option.some.inj h
      rw [List.drop_left]
    · cases h
  · rintro rfl
    exact stripPrefix_append start rest

theorem stripSuffix_append (start ending : Text) :
    stripSuffix ending (start ++ ending) = some start := by
  rw [stripSuffix, List.reverse_append, stripPrefix_append, Option.map_some, List.reverse_reverse]

theorem splitOnce_append (h : c ∉ name) :
    splitOnce c (name ++ c :: value) = some (name, value) := by
  have hname : ∀ d ∈ name, (d != c) = true := by
    intro d hd
    rw [bne_iff_ne]
    rintro rfl
    exact h hd
  have htake : (name ++ c :: value).takeWhile (· != c) = name := by
    rw [List.takeWhile_append_of_pos hname]
    simp
  have hdrop : (name ++ c :: value).dropWhile (· != c) = c :: value := by
    rw [List.dropWhile_append_of_pos hname]
    simp
  rw [splitOnce, if_pos (List.mem_append_right _ List.mem_cons_self), htake, hdrop]
  rfl

theorem splitOnce_eq_some_iff {before after : Text} :
    splitOnce c text = some (before, after) ↔ text = before ++ c :: after ∧ c ∉ before := by
  constructor
  · intro h
    unfold splitOnce at h
    split at h
    · next hmem =>
      obtain ⟨rfl, rfl⟩ := Prod.mk.inj (Option.some.inj h)
      have hbefore : c ∉ text.takeWhile (· != c) := fun hin => by
        simpa using List.mem_takeWhile_imp hin
      refine ⟨?_, hbefore⟩
      have hsplit : text.takeWhile (· != c) ++ text.dropWhile (· != c) = text :=
        List.takeWhile_append_dropWhile
      have hne : text.dropWhile (· != c) ≠ [] := by
        intro hdrop
        rw [hdrop, List.append_nil] at hsplit
        exact hbefore (by rwa [hsplit])
      obtain ⟨d, rest, hdrop⟩ := List.exists_cons_of_ne_nil hne
      have hd : (d != c) = false := by
        have hhead := List.head_dropWhile_not (· != c) hne
        simpa only [hdrop, List.head_cons] using hhead
      rw [bne_eq_false_iff_eq] at hd
      subst hd
      rw [hdrop] at hsplit ⊢
      exact hsplit.symm
    · cases h
  · rintro ⟨rfl, hnot⟩
    exact splitOnce_append hnot

theorem splitWhitespace_word (hword : ∀ d ∈ word, isWhitespace d = false) (hne : word ≠ [])
    (text : Text) : splitWhitespace (word ++ ' ' :: text) = word :: splitWhitespace text := by
  rw [splitWhitespace, List.splitOnP_append_cons_of_forall_mem hword ' ' rfl, List.filter_cons_of_pos, splitWhitespace]
  simpa using hne

theorem splitWhitespace_last (hword : ∀ d ∈ word, isWhitespace d = false) (hne : word ≠ []) :
    splitWhitespace word = [word] := by
  rw [splitWhitespace, List.splitOnP_eq_singleton hword, List.filter_cons_of_pos]
  · rfl
  · simpa using hne

/-- A text that neither begins nor ends in white space is trimmed of what follows it alone. -/
theorem trim_eq {first last : Char} {after space : Text}
    (hfirst : text = first :: after) (hlast : text.getLast? = some last)
    (hfirstSpace : isWhitespace first = false) (hlastSpace : isWhitespace last = false)
    (hspace : ∀ d ∈ space, isWhitespace d = true) : trim (text ++ space) = text := by
  have hbare : Foundations.Bare isWhitespace text := by
    refine ⟨fun c hc => ?_, fun c hc => ?_⟩
    · rw [hfirst] at hc
      exact Option.some.inj hc ▸ hfirstSpace
    · exact Option.some.inj (hlast.symm.trans hc) ▸ hlastSpace
  have hnone : ∀ c ∈ ([] : Text), isWhitespace c = true := fun c hc => absurd hc List.not_mem_nil
  exact Foundations.trimMatches_of_bare hnone hspace hbare

theorem lastLine_append (hline : '\n' ∉ text) (htrim : trim text = text) (hne : text ≠ [])
    (before : Text) : lastLine (before ++ '\n' :: text) = some text := by
  have hlines : lines (before ++ '\n' :: text) = lines (before ++ ['\n']) ++ [text] := by
    rw [lines, Foundations.pieces_append_newline_append, Foundations.pieces_of_not_mem hline hne,
      List.map_append, List.map_singleton, Foundations.stripLineEnding_of_not_mem hline]
    rfl
  rw [lastLine, hlines, List.map_append, List.reverse_append, List.map_singleton, htrim,
    List.reverse_singleton, List.singleton_append, List.find?_cons_of_pos]
  simpa using hne

end Words

section Marker

variable {marker : ReplyMarker} {value : Text}

theorem of_isMarkable (h : isMarkable value = true) :
    value ≠ [] ∧ ∀ c ∈ value, isWhitespace c = false := by
  simp only [isMarkable, Bool.and_eq_true, Bool.not_eq_true', List.isEmpty_eq_false_iff,
    List.any_eq_false, Bool.or_eq_true, not_or, Bool.not_eq_true] at h
  exact ⟨h.1, fun c hc => (h.2 c hc).1.1.1⟩

theorem isWhitespace_of_isAlphanum {c : Char} (h : c.isAlphanum = true) :
    isWhitespace c = false := by
  have hcode : (48 ≤ c.toNat ∧ c.toNat ≤ 57) ∨ (65 ≤ c.toNat ∧ c.toNat ≤ 90) ∨
      (97 ≤ c.toNat ∧ c.toNat ≤ 122) := by
    simp only [Char.isAlphanum, Char.isAlpha, Char.isUpper, Char.isLower, Char.isDigit,
      Bool.or_eq_true, Bool.and_eq_true, decide_eq_true_eq, ge_iff_le, UInt32.le_iff_toNat_le] at h
    have hval : c.toNat = c.val.toNat := rfl
    simp at h
    omega
  simp only [isWhitespace, Bool.or_eq_false_iff, Bool.and_eq_false_iff, decide_eq_false_iff_not]
  refine ⟨⟨by omega, by omega⟩, ?_⟩
  simp
  omega

theorem isWhitespace_of_isToken (h : isToken value = true) :
    value ≠ [] ∧ ∀ c ∈ value, isWhitespace c = false := by
  simp only [isToken, Bool.and_eq_true, Bool.not_eq_true', List.isEmpty_eq_false_iff,
    List.all_eq_true, Bool.or_eq_true, beq_iff_eq] at h
  refine ⟨h.1, fun c hc => ?_⟩
  rcases h.2 c hc with halpha | rfl
  · exact isWhitespace_of_isAlphanum halpha
  · rfl

/-- What a marker says, between what it opens and closes with. -/
def ReplyMarker.inner (marker : ReplyMarker) : Text :=
  field inReplyToName marker.inReplyTo ++ ' ' :: field keyName marker.key ++
    match marker.label with
    | some label => ' ' :: field labelName label
    | none => []

theorem renderMarker_eq (marker : ReplyMarker) :
    renderMarker marker = opening ++ (marker.inner ++ [' '] ++ closing) := by
  simp [renderMarker, ReplyMarker.inner]

theorem splitOnce_field {name : Text} (h : '=' ∉ name) :
    splitOnce '=' (field name value) = some (name, value) :=
  splitOnce_append h

theorem readField_inReplyTo {fields : Fields} (hvalue : value ≠ [])
    (hslot : fields.inReplyTo = none) :
    readField fields (field inReplyToName value) = some { fields with inReplyTo := some value } := by
  simp [readField, splitOnce_field (show '=' ∉ inReplyToName by decide), put, hvalue, hslot]

theorem readField_key {fields : Fields} (hvalue : value ≠ []) (hslot : fields.key = none) :
    readField fields (field keyName value) = some { fields with key := some value } := by
  have hname : keyName ≠ inReplyToName := by decide
  simp [readField, splitOnce_field (show '=' ∉ keyName by decide), hname, put, hvalue, hslot]

theorem readField_label {fields : Fields} (hvalue : value ≠ []) (hslot : fields.label = none) :
    readField fields (field labelName value) = some { fields with label := some value } := by
  have hname : labelName ≠ inReplyToName ∧ labelName ≠ keyName := by decide
  simp [readField, splitOnce_field (show '=' ∉ labelName by decide), hname, put, hvalue, hslot]

theorem isWhitespace_field {name : Text} (hname : (name.all fun c => !isWhitespace c) = true)
    (hvalue : ∀ c ∈ value, isWhitespace c = false) :
    ∀ c ∈ field name value, isWhitespace c = false := by
  intro c hc
  rcases List.mem_append.mp hc with hc | hc
  · simpa using List.all_eq_true.mp hname c hc
  · rcases List.mem_cons.mp hc with rfl | hc
    · rfl
    · exact hvalue c hc

theorem field_ne_nil {name : Text} : field name value ≠ [] := by simp [field]

theorem splitWhitespace_inner (h : marker.checked = true) :
    splitWhitespace marker.inner =
      field inReplyToName marker.inReplyTo :: field keyName marker.key ::
        (marker.label.map (field labelName)).toList := by
  simp only [ReplyMarker.checked, Bool.and_eq_true] at h
  obtain ⟨⟨hreply, hkey⟩, hlabel⟩ := h
  have hreplyWord := isWhitespace_field (show (inReplyToName.all fun c => !isWhitespace c) = true by decide)
    (of_isMarkable hreply).2
  have hkeyWord := isWhitespace_field (show (keyName.all fun c => !isWhitespace c) = true by decide)
    (of_isMarkable hkey).2
  cases hcase : marker.label with
  | none =>
    simp only [ReplyMarker.inner, hcase, List.append_nil]
    rw [splitWhitespace_word hreplyWord field_ne_nil, splitWhitespace_last hkeyWord field_ne_nil]
    rfl
  | some label =>
    rw [hcase] at hlabel
    have hlabelWord := isWhitespace_field
      (show (labelName.all fun c => !isWhitespace c) = true by decide)
      (isWhitespace_of_isToken hlabel).2
    simp only [ReplyMarker.inner, hcase, List.append_assoc, List.cons_append]
    rw [splitWhitespace_word hreplyWord field_ne_nil, splitWhitespace_word hkeyWord field_ne_nil,
      splitWhitespace_last hlabelWord field_ne_nil]
    rfl

theorem readFields_inner (h : marker.checked = true) :
    (splitWhitespace marker.inner).foldlM readField ⟨none, none, none⟩ =
      some ⟨some marker.inReplyTo, some marker.key, marker.label⟩ := by
  rw [splitWhitespace_inner h]
  simp only [ReplyMarker.checked, Bool.and_eq_true] at h
  obtain ⟨⟨hreply, hkey⟩, hlabel⟩ := h
  rw [List.foldlM_cons, readField_inReplyTo (of_isMarkable hreply).1 rfl, Option.bind_eq_bind,
    Option.bind_some, List.foldlM_cons, readField_key (of_isMarkable hkey).1 rfl,
    Option.bind_eq_bind, Option.bind_some]
  cases hcase : marker.label with
  | none => rfl
  | some label =>
    rw [hcase] at hlabel
    rw [Option.map_some, Option.toList_some, List.foldlM_cons,
      readField_label (isWhitespace_of_isToken hlabel).1 rfl]
    rfl

theorem getLast?_field {name : Text} (hne : value ≠ []) :
    (field name value).getLast? = value.getLast? := by
  rw [field, List.getLast?_append, List.getLast?_cons_of_ne_nil hne]
  cases hlast : value.getLast? with
  | none => exact absurd (List.getLast?_eq_none_iff.mp hlast) hne
  | some last => rfl

/-- What a marker says ends in a character of its last value. -/
theorem getLast?_inner (h : marker.checked = true) :
    ∃ last, marker.inner.getLast? = some last ∧ isWhitespace last = false := by
  simp only [ReplyMarker.checked, Bool.and_eq_true] at h
  obtain ⟨⟨-, hkey⟩, hlabel⟩ := h
  obtain ⟨value, ⟨hne, hspace⟩, hvalue⟩ : ∃ value : Text,
      (value ≠ [] ∧ ∀ c ∈ value, isWhitespace c = false) ∧
        marker.inner.getLast? = value.getLast? := by
    cases hcase : marker.label with
    | none =>
      refine ⟨marker.key, of_isMarkable hkey, ?_⟩
      rw [ReplyMarker.inner, hcase, List.append_nil, List.getLast?_append,
        List.getLast?_cons_of_ne_nil field_ne_nil, getLast?_field (of_isMarkable hkey).1]
      cases hlast : marker.key.getLast? with
      | none => exact absurd (List.getLast?_eq_none_iff.mp hlast) (of_isMarkable hkey).1
      | some last => rfl
    | some label =>
      rw [hcase] at hlabel
      refine ⟨label, isWhitespace_of_isToken hlabel, ?_⟩
      rw [ReplyMarker.inner, hcase, List.getLast?_append,
        List.getLast?_cons_of_ne_nil field_ne_nil,
        getLast?_field (isWhitespace_of_isToken hlabel).1]
      cases hlast : label.getLast? with
      | none => exact absurd (List.getLast?_eq_none_iff.mp hlast) (isWhitespace_of_isToken hlabel).1
      | some last => rfl
  cases hlast : value.getLast? with
  | none => exact absurd (List.getLast?_eq_none_iff.mp hlast) hne
  | some last => exact ⟨last, hvalue.trans hlast, hspace last (List.mem_of_getLast? hlast)⟩

theorem trim_inner (h : marker.checked = true) :
    trim (marker.inner ++ [' ']) = marker.inner := by
  obtain ⟨last, hlast, hspace⟩ := getLast?_inner h
  have hfirst : marker.inner = 'i' :: marker.inner.tail := rfl
  refine trim_eq hfirst hlast rfl hspace fun c hc => ?_
  rw [List.mem_singleton.mp hc]
  rfl

theorem newline_not_mem_renderMarker (h : marker.checked = true) :
    '\n' ∉ renderMarker marker := by
  have hwords : ∀ value : Text, (value ≠ [] ∧ ∀ c ∈ value, isWhitespace c = false) →
      '\n' ∉ value := fun value hvalue hmem => absurd (hvalue.2 '\n' hmem) (by decide)
  simp only [ReplyMarker.checked, Bool.and_eq_true] at h
  obtain ⟨⟨hreply, hkey⟩, hlabel⟩ := h
  have hopening : '\n' ∉ opening := by decide
  have hclosing : '\n' ∉ closing := by decide
  have hnames : '\n' ∉ inReplyToName ∧ '\n' ∉ keyName ∧ '\n' ∉ labelName := by decide
  cases hcase : marker.label with
  | none =>
    simp only [renderMarker, hcase, field, List.mem_append, List.mem_cons, List.not_mem_nil]
    have hreplyWord := hwords _ (of_isMarkable hreply)
    have hkeyWord := hwords _ (of_isMarkable hkey)
    simp [hopening, hclosing, hnames, hreplyWord, hkeyWord]
  | some label =>
    rw [hcase] at hlabel
    simp only [renderMarker, hcase, field, List.mem_append, List.mem_cons]
    have hreplyWord := hwords _ (of_isMarkable hreply)
    have hkeyWord := hwords _ (of_isMarkable hkey)
    have hlabelWord := hwords _ (isWhitespace_of_isToken hlabel)
    simp [hopening, hclosing, hnames, hreplyWord, hkeyWord, hlabelWord]

theorem trim_renderMarker : trim (renderMarker marker) = renderMarker marker := by
  have hfirst : renderMarker marker = '<' :: (renderMarker marker).tail := rfl
  have hlast : (renderMarker marker).getLast? = some '>' := by
    rw [renderMarker_eq, ← List.append_assoc, List.getLast?_append]
    rfl
  have hsame : trim (renderMarker marker ++ []) = renderMarker marker :=
    trim_eq hfirst hlast rfl rfl fun c hc => absurd hc List.not_mem_nil
  rwa [List.append_nil] at hsame

theorem parseMarker_compose (h : marker.checked = true) (before body : Text) :
    parseMarker (before ++ compose body marker) = some marker := by
  have hne : renderMarker marker ≠ [] := by
    rw [renderMarker_eq]
    exact List.append_ne_nil_of_left_ne_nil (by decide) _
  have hlast : lastLine (before ++ compose body marker) = some (renderMarker marker) := by
    have hshape : before ++ compose body marker =
        (before ++ trimEnd body ++ ['\n']) ++ '\n' :: renderMarker marker := by
      simp [compose]
    rw [hshape, lastLine_append (newline_not_mem_renderMarker h) trim_renderMarker hne]
  have hinner : (stripPrefix opening (renderMarker marker)).bind (stripSuffix closing) =
      some (marker.inner ++ [' ']) := by
    rw [renderMarker_eq, stripPrefix_append, Option.bind_some, stripSuffix_append]
  rw [parseMarker, hlast, Option.bind_some, hinner]
  simp only [trim_inner h, readFields_inner h]
  simp only [ReplyMarker.checked, Bool.and_eq_true] at h
  rw [if_pos h.2]

end Marker

end Onevcs.Review
