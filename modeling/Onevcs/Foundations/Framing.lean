import Mathlib.Data.List.Infix
import Mathlib.Data.List.Basic

/-!
# Records framed by separators

A stream cut into records at one separator, and each record into fields at another, where the
text between them may hold either. `splitn` is the cut into at most so many fields, the last
of them the rest. A text is covered by pieces where every stretch of it that holds no
separator lies within one of them.
-/

namespace Foundations

variable {α : Type*} {separates : α → Bool}

/-- `splitn`: the first `n - 1` fields, and the rest as the last. -/
def splitn (separates : α → Bool) : ℕ → List α → List (List α)
  | 0, _ => []
  | 1, text => [text]
  | n + 2, text =>
    match text.dropWhile fun x => !separates x with
    | [] => [text]
    | _ :: rest => (text.takeWhile fun x => !separates x) :: splitn separates (n + 1) rest

/-- Every stretch of the text that holds no separator lies within one of the pieces. -/
def Covered (separates : α → Bool) (pieces : List (List α)) (text : List α) : Prop :=
  ∀ stretch, stretch ≠ [] → stretch <:+: text → (∀ x ∈ stretch, separates x = false) →
    ∃ piece ∈ pieces, stretch <:+: piece

/-- A stretch without `x` of what `x` stands in lies before it or after it. -/
theorem infix_append_cons {stretch before after : List α} {x : α} (hx : x ∉ stretch)
    (h : stretch <:+: before ++ x :: after) : stretch <:+: before ∨ stretch <:+: after := by
  obtain ⟨left, right, h⟩ := h
  rw [List.append_assoc, List.append_eq_append_iff] at h
  obtain ⟨mid, hmid, hrest⟩ | ⟨mid, hmid, hrest⟩ := h
  · rw [List.append_eq_append_iff] at hrest
    obtain ⟨more, hmore, -⟩ | ⟨more, hmore, hcons⟩ := hrest
    · exact .inl ⟨left, more, by rw [hmid, hmore, List.append_assoc]⟩
    · cases more with
      | nil =>
        rw [List.append_nil] at hmore
        exact .inl ⟨left, [], by rw [hmid, hmore, List.append_nil]⟩
      | cons first rest =>
        obtain ⟨rfl, -⟩ := List.cons.inj hcons
        exact absurd (by rw [hmore]; simp) hx
  · cases mid with
    | nil =>
      rw [List.nil_append] at hrest
      cases stretch with
      | nil => exact .inl (List.nil_infix)
      | cons first rest =>
        obtain ⟨rfl, -⟩ := List.cons.inj hrest
        exact absurd List.mem_cons_self hx
    | cons first rest =>
      obtain ⟨-, hrest⟩ := List.cons.inj hrest
      exact .inr ⟨rest, right, by simpa [List.append_assoc] using hrest.symm⟩

theorem covered_of_mem {pieces : List (List α)} {text : List α} (h : text ∈ pieces) :
    Covered separates pieces text :=
  fun _ _ hwithin _ => ⟨text, h, hwithin⟩

theorem covered_of_forall {pieces : List (List α)} {text : List α}
    (h : ∀ x ∈ text, separates x = true) : Covered separates pieces text := by
  intro stretch hne hwithin hfree
  obtain ⟨x, rest, rfl⟩ := List.exists_cons_of_ne_nil hne
  exact absurd ((h x (hwithin.subset List.mem_cons_self)).symm.trans
    (hfree x List.mem_cons_self)) nofun

/-- What a covering holds of a text's one symbol: that symbol is in a piece. -/
theorem Covered.mem {pieces : List (List α)} {text : List α} {x : α}
    (h : Covered separates pieces text) (hx : x ∈ text) (hfree : separates x = false) :
    ∃ piece ∈ pieces, x ∈ piece := by
  obtain ⟨before, after, rfl⟩ := List.append_of_mem hx
  obtain ⟨piece, hpiece, hin⟩ := h [x] nofun ⟨before, after, by simp⟩ (by simpa using hfree)
  exact ⟨piece, hpiece, hin.subset List.mem_cons_self⟩

section Splitn

variable {text rest : List α} {x : α} {n : ℕ}

theorem splitn_append_cons (hfree : ∀ y ∈ text, separates y = false) (hx : separates x = true)
    (n : ℕ) (rest : List α) :
    splitn separates (n + 2) (text ++ x :: rest) = text :: splitn separates (n + 1) rest := by
  have hdrop : ((text ++ x :: rest).dropWhile fun y => !separates y) = x :: rest := by
    rw [List.dropWhile_append_of_pos (by simpa using hfree),
      List.dropWhile_cons_of_neg (by simp [hx])]
  have htake : ((text ++ x :: rest).takeWhile fun y => !separates y) = text := by
    rw [List.takeWhile_append_of_pos (by simpa using hfree),
      List.takeWhile_cons_of_neg (by simp [hx]), List.append_nil]
  rw [splitn, hdrop]
  simp only [htake]

theorem splitn_of_free (hfree : ∀ y ∈ text, separates y = false) (n : ℕ) :
    splitn separates (n + 1) text = [text] := by
  cases n with
  | zero => rfl
  | succ n =>
    have hdrop : (text.dropWhile fun y => !separates y) = [] := by
      rw [← List.append_nil text, List.dropWhile_append_of_pos (by simpa using hfree),
        List.dropWhile_nil]
    rw [splitn, hdrop]

/-- The last field takes the ends that are left. -/
example : splitn (· == 0) 2 [1, 0, 2, 0, 3] = [[1], [2, 0, 3]] := by decide +kernel

/-- A text either holds no separator, or is cut at its first. -/
theorem exists_first (separates : α → Bool) (text : List α) :
    (∀ y ∈ text, separates y = false) ∨
      ∃ before x after, text = before ++ x :: after ∧ separates x = true ∧
        ∀ y ∈ before, separates y = false := by
  cases hfind : text.find? separates with
  | none => exact .inl (by simpa using hfind)
  | some x =>
    obtain ⟨hx, before, after, rfl, hfree⟩ := List.find?_eq_some_iff_append.mp hfind
    exact .inr ⟨before, x, after, rfl, hx, by simpa using hfree⟩

/-- A stretch without a separator lies within one field. -/
theorem exists_field (n : ℕ) {stretch : List α} (h : stretch <:+: text)
    (hfree : ∀ y ∈ stretch, separates y = false) :
    ∃ field ∈ splitn separates (n + 1) text, stretch <:+: field := by
  induction n generalizing text with
  | zero => exact ⟨text, List.mem_singleton_self text, h⟩
  | succ n ih =>
    rcases exists_first separates text with hnone | ⟨before, x, after, rfl, hx, hbefore⟩
    · rw [splitn_of_free hnone]
      exact ⟨text, List.mem_singleton_self text, h⟩
    · rw [splitn_append_cons hbefore hx]
      have hnot : x ∉ stretch := fun hmem => absurd (hx.symm.trans (hfree x hmem)) nofun
      rcases infix_append_cons hnot h with hin | hin
      · exact ⟨before, List.mem_cons_self, hin⟩
      · obtain ⟨field, hfield, hin⟩ := ih hin
        exact ⟨field, List.mem_cons_of_mem _ hfield, hin⟩

/-- The fields hold every symbol but the separators the cut fell at. -/
theorem count_splitn [DecidableEq α] (n : ℕ) (hx : separates x = false) :
    (splitn separates (n + 1) text).flatten.count x = text.count x := by
  induction n generalizing text with
  | zero => rw [splitn, List.flatten_singleton]
  | succ n ih =>
    rcases exists_first separates text with hnone | ⟨before, y, after, rfl, hy, hbefore⟩
    · rw [splitn_of_free hnone, List.flatten_singleton]
    · have hne : y ≠ x := by
        rintro rfl
        exact absurd (hx.symm.trans hy) nofun
      rw [splitn_append_cons hbefore hy, List.flatten_cons, List.count_append, ih,
        List.count_append, List.count_cons_of_ne hne]

/-- A cut is into one field more than it met separators, up to the fields it may make. -/
theorem length_splitn (n : ℕ) :
    (splitn separates (n + 1) text).length = min (n + 1) (text.countP separates + 1) := by
  induction n generalizing text with
  | zero => simp [splitn]
  | succ n ih =>
    rcases exists_first separates text with hnone | ⟨before, x, after, rfl, hx, hbefore⟩
    · have hcount : text.countP separates = 0 := by
        rw [List.countP_eq_zero]
        simpa using hnone
      rw [splitn_of_free hnone, hcount]
      simp
    · have hcount : before.countP separates = 0 := by
        rw [List.countP_eq_zero]
        simpa using hbefore
      rw [splitn_append_cons hbefore hx, List.length_cons, ih, List.countP_append, hcount,
        List.countP_cons_of_pos hx]
      omega

theorem mem_of_mem_splitn {field : List α} (n : ℕ) (h : field ∈ splitn separates (n + 1) text)
    (hx : x ∈ field) : x ∈ text := by
  induction n generalizing text with
  | zero =>
    rw [splitn, List.mem_singleton] at h
    exact h ▸ hx
  | succ n ih =>
    rcases exists_first separates text with hnone | ⟨before, y, after, rfl, hy, hbefore⟩
    · rw [splitn_of_free hnone, List.mem_singleton] at h
      exact h ▸ hx
    · rw [splitn_append_cons hbefore hy, List.mem_cons] at h
      rcases h with rfl | h
      · exact List.mem_append_left _ hx
      · exact List.mem_append_right _ (List.mem_cons_of_mem y (ih h))

/-- A symbol that separates nothing is in a field. -/
theorem exists_mem_splitn (n : ℕ) (hx : x ∈ text) (hfree : separates x = false) :
    ∃ field ∈ splitn separates (n + 1) text, x ∈ field := by
  obtain ⟨before, after, rfl⟩ := List.append_of_mem hx
  have hone : [x] <:+: before ++ x :: after := ⟨before, after, by simp⟩
  obtain ⟨field, hfield, hin⟩ := exists_field n hone (by simpa using hfree)
  exact ⟨field, hfield, hin.subset List.mem_cons_self⟩

end Splitn

section Framed

variable {ends : α → Bool} {stream : List α} {x : α}

/-- A stretch without a record's end lies within one record. -/
theorem exists_record {stretch : List α} (h : stretch <:+: stream)
    (hfree : ∀ y ∈ stretch, ends y = false) :
    ∃ record ∈ stream.splitOnP ends, stretch <:+: record := by
  induction hlength : stream.length using Nat.strong_induction_on generalizing stream with
  | _ length ih =>
    rcases exists_first ends stream with hnone | ⟨before, y, after, rfl, hy, hbefore⟩
    · rw [List.splitOnP_eq_singleton hnone]
      exact ⟨stream, List.mem_singleton_self stream, h⟩
    · rw [List.splitOnP_append_cons_of_forall_mem hbefore y hy]
      have hnot : y ∉ stretch := fun hmem => absurd (hy.symm.trans (hfree y hmem)) nofun
      rcases infix_append_cons hnot h with hin | hin
      · exact ⟨before, List.mem_cons_self, hin⟩
      · obtain ⟨record, hrecord, hin⟩ := ih after.length (by simp at hlength; omega) hin rfl
        exact ⟨record, List.mem_cons_of_mem _ hrecord, hin⟩

theorem mem_of_mem_splitOnP {record : List α} (h : record ∈ stream.splitOnP ends)
    (hx : x ∈ record) : x ∈ stream := by
  induction hlength : stream.length using Nat.strong_induction_on generalizing stream with
  | _ length ih =>
    rcases exists_first ends stream with hnone | ⟨before, y, after, rfl, hy, hbefore⟩
    · rw [List.splitOnP_eq_singleton hnone, List.mem_singleton] at h
      exact h ▸ hx
    · rw [List.splitOnP_append_cons_of_forall_mem hbefore y hy, List.mem_cons] at h
      rcases h with rfl | h
      · exact List.mem_append_left _ hx
      · have hmem := ih after.length (by simp at hlength; omega) h rfl
        exact List.mem_append_right _ (List.mem_cons_of_mem y hmem)

/-- No record holds a record's end. -/
theorem free_of_mem_splitOnP {record : List α} (h : record ∈ stream.splitOnP ends)
    (hx : x ∈ record) : ends x = false := by
  induction hlength : stream.length using Nat.strong_induction_on generalizing stream with
  | _ length ih =>
    rcases exists_first ends stream with hnone | ⟨before, y, after, rfl, hy, hbefore⟩
    · rw [List.splitOnP_eq_singleton hnone, List.mem_singleton] at h
      exact hnone x (h ▸ hx)
    · rw [List.splitOnP_append_cons_of_forall_mem hbefore y hy, List.mem_cons] at h
      rcases h with rfl | h
      · exact hbefore x hx
      · exact ih after.length (by simp at hlength; omega) h rfl

/-- What stands before a stream without a record's end stands in its first record. -/
theorem splitOnP_free_append {before : List α} (hfree : ∀ y ∈ before, ends y = false) :
    (before ++ stream).splitOnP ends = (stream.splitOnP ends).modifyHead (before ++ ·) := by
  induction before with
  | nil =>
    rw [List.nil_append]
    cases stream.splitOnP ends <;> rfl
  | cons y before ih =>
    have hy := hfree y List.mem_cons_self
    rw [List.cons_append, List.splitOnP_cons_eq_if_modifyHead, if_neg (by simp [hy]),
      ih fun z hz => hfree z (List.mem_cons_of_mem y hz)]
    cases stream.splitOnP ends <;> rfl

/-- The records of a stream, read through a map. -/
theorem splitOnP_map {β : Type*} {ends : β → Bool} (f : α → β) :
    (stream.map f).splitOnP ends = (stream.splitOnP (ends ∘ f)).map (List.map f) := by
  induction stream with
  | nil => rfl
  | cons y stream ih =>
    rw [List.map_cons, List.splitOnP_cons_eq_if_modifyHead, List.splitOnP_cons_eq_if_modifyHead,
      ih]
    by_cases hy : ends (f y) = true
    · simp [hy]
    · cases hrest : stream.splitOnP (ends ∘ f) <;> simp [hy]

/-- A stretch none of whose symbols stand before a text lies in that text. -/
theorem infix_of_append {stretch after : List α} (before : List α)
    (h : stretch <:+: before ++ after)
    (hnone : ∀ y ∈ stretch, y ∉ before) : stretch <:+: after := by
  induction before with
  | nil => exact h
  | cons y before ih =>
    rw [List.cons_append, List.infix_cons_iff] at h
    rcases h with hprefix | h
    · cases stretch with
      | nil => exact List.nil_infix
      | cons first rest =>
        obtain ⟨rfl, -⟩ := List.cons_prefix_cons.mp hprefix
        exact absurd List.mem_cons_self (hnone first List.mem_cons_self)
    · exact ih h fun z hz hmem => hnone z hz (List.mem_cons_of_mem y hmem)

/-- Where a scan keeps part of each record and loses the rest, what it keeps of a stream and
what it loses hold each symbol as often as the stream does. -/
theorem count_kept_add_lost [DecidableEq α] {kept lost : List α → List α} (hx : ends x = false)
    (hrecord : ∀ record, (kept record).count x + (lost record).count x = record.count x) :
    ((stream.splitOnP ends).flatMap kept).count x +
      ((stream.splitOnP ends).flatMap lost).count x = stream.count x := by
  induction hlength : stream.length using Nat.strong_induction_on generalizing stream with
  | _ length ih =>
    rcases exists_first ends stream with hnone | ⟨before, y, after, rfl, hy, hbefore⟩
    · rw [List.splitOnP_eq_singleton hnone]
      simpa using hrecord stream
    · have hne : y ≠ x := by
        rintro rfl
        exact absurd (hx.symm.trans hy) nofun
      have hafter := ih after.length (by simp at hlength; omega) rfl
      rw [List.splitOnP_append_cons_of_forall_mem hbefore y hy, List.flatMap_cons,
        List.flatMap_cons, List.count_append, List.count_append, List.count_append,
        List.count_cons_of_ne hne, ← hrecord before]
      omega

/-- A symbol a stream holds once, and a scan loses, is in nothing the scan keeps. -/
theorem not_mem_kept [DecidableEq α] (kept lost : List α → List α) (hx : ends x = false)
    (hrecord : ∀ record, (kept record).count x + (lost record).count x = record.count x)
    (honce : stream.count x ≤ 1) {record : List α} (hmem : record ∈ stream.splitOnP ends)
    (hlost : x ∈ lost record) {other : List α} (hother : other ∈ stream.splitOnP ends) :
    x ∉ kept other := by
  intro hkept
  have hsum : ((stream.splitOnP ends).flatMap kept).count x +
      ((stream.splitOnP ends).flatMap lost).count x = stream.count x :=
    count_kept_add_lost hx hrecord
  have hone : 0 < ((stream.splitOnP ends).flatMap kept).count x :=
    List.count_pos_iff.mpr (List.mem_flatMap.mpr ⟨other, hother, hkept⟩)
  have htwo : 0 < ((stream.splitOnP ends).flatMap lost).count x :=
    List.count_pos_iff.mpr (List.mem_flatMap.mpr ⟨record, hmem, hlost⟩)
  omega

end Framed

end Foundations
