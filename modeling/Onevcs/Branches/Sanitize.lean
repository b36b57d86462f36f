import Mathlib.Data.List.Chain
import Onevcs.Branches.RefFormat
import Onevcs.Foundations.Trimming

/-!
# The branch name a proposed one becomes

`sanitize` maps what a caller proposes to a name git accepts, component by component: every other
character becomes `-`, runs of `-` and of `.` collapse, each component loses the `-` and `.` at its
ends and any `.lock` it ends in, and the components that are left empty are dropped.

A component that is left begins with a letter, a digit or an underscore, which no later step takes
away; so stripping `.lock` ends before it empties one, and what is left is a component that the
steps leave alone.
-/

namespace Onevcs.Branches

open Foundations (Bare Text trimMatches)

def isAsciiAlphanumeric (c : Char) : Bool :=
  ('a' ≤ c && c ≤ 'z') || ('A' ≤ c && c ≤ 'Z') || c.isDigit

/-- A character as the name has it. -/
def mapChar (c : Char) : Char :=
  if isAsciiAlphanumeric c then c
  else if c = '-' ∨ c = '_' ∨ c = '.' ∨ c = '/' then c
  else '-'

/-- A character that a component neither begins nor ends with, and does not repeat. -/
def isEdge (c : Char) : Bool := c == '-' || c == '.'

/-- One character more, unless it repeats the last. -/
def push (collapsed : Text) (c : Char) : Text :=
  if isEdge c && collapsed.getLast? == some c then collapsed else collapsed ++ [c]

/-- The suffix that a component may not end in. -/
def lock : Text := ".lock".toList

/-- A component without any `.lock` at its end. -/
def stripLocks (trimmed : Text) : Text :=
  if _h : lock <:+ trimmed then
    stripLocks ((trimmed.take (trimmed.length - lock.length)).rdropWhile isEdge)
  else trimmed
termination_by trimmed.length
decreasing_by
  refine (List.rdropWhile_prefix _ _).length_le.trans_lt ?_
  have hle : lock.length ≤ trimmed.length := _h.length_le
  have hpos : 0 < lock.length := by decide
  rw [List.length_take]
  omega

/-- `component`: one component of a sanitized name, or `none` where nothing is left of it. -/
def component (raw : Text) : Option Text :=
  let trimmed := stripLocks (trimMatches isEdge (raw.foldl push []))
  if trimmed.isEmpty then none else some trimmed

/-- `sanitize`: the branch name a proposed one becomes, or `none` where nothing is left of it. -/
def sanitize (proposed : Text) : Option Text :=
  let components := ((proposed.map mapChar).splitOn '/').filterMap component
  let name := ['/'].intercalate components
  if name.isEmpty then none else some name

/-! ## Components -/

/-- A character that a component may have. -/
def componentChar (c : Char) : Bool := isAsciiAlphanumeric c || c == '-' || c == '_' || c == '.'

/-- Neither a `-` nor a `.` is followed by itself. -/
def Apart (c next : Char) : Prop := isEdge c = true → next ≠ c

/-- A component that sanitizing leaves alone, but for what it may end in. -/
structure Trim (component : Text) : Prop where
  nonempty : component ≠ []
  allowed : ∀ c ∈ component, componentChar c = true
  bare : Bare isEdge component
  apart : component.IsChain Apart

/-- A component that sanitizing leaves alone. -/
structure Tidy (component : Text) : Prop extends Trim component where
  noLock : ¬ lock <:+ component

variable {raw left : Text} {c : Char}

theorem isChain_push {collapsed : Text} (h : collapsed.IsChain Apart) (c : Char) :
    (push collapsed c).IsChain Apart := by
  unfold push
  split
  case isTrue => exact h
  case isFalse hnot =>
    refine List.isChain_append.mpr ⟨h, List.isChain_singleton c, ?_⟩
    intro last hlast next hnext hedge heq
    obtain rfl : c = next := Option.some.inj hnext
    subst heq
    exact hnot (by rw [hedge, Option.mem_def.mp hlast, Bool.true_and, beq_self_eq_true])

theorem mem_push {collapsed : Text} {c d : Char} :
    d ∈ push collapsed c ↔ d ∈ collapsed ∨ d = c := by
  unfold push
  split
  case isTrue hrepeated =>
    rw [Bool.and_eq_true, beq_iff_eq] at hrepeated
    refine ⟨.inl, fun h => h.elim id ?_⟩
    rintro rfl
    exact List.mem_of_getLast? hrepeated.2
  case isFalse => rw [List.mem_append, List.mem_singleton]

theorem isChain_collapse (raw : Text) {collapsed : Text} (h : collapsed.IsChain Apart) :
    (raw.foldl push collapsed).IsChain Apart := by
  induction raw generalizing collapsed with
  | nil => exact h
  | cons c raw ih => exact ih (isChain_push h c)

theorem mem_collapse {collapsed : Text} :
    c ∈ raw.foldl push collapsed ↔ c ∈ collapsed ∨ c ∈ raw := by
  induction raw generalizing collapsed with
  | nil => simp
  | cons d raw ih => rw [List.foldl_cons, ih, mem_push, List.mem_cons, or_assoc]

theorem collapse_eq_append {collapsed : Text} (h : (collapsed ++ raw).IsChain Apart) :
    raw.foldl push collapsed = collapsed ++ raw := by
  induction raw generalizing collapsed with
  | nil => simp
  | cons c raw ih =>
    have hpush : push collapsed c = collapsed ++ [c] := by
      refine if_neg fun hrepeated => ?_
      rw [Bool.and_eq_true, beq_iff_eq] at hrepeated
      exact (List.isChain_append.mp h).2.2 c hrepeated.2 c rfl hrepeated.1 rfl
    have hsplit : collapsed ++ c :: raw = collapsed ++ [c] ++ raw := by simp
    rw [List.foldl_cons, hpush, ih (hsplit ▸ h), hsplit]

/-- What is left of a trimmed component without its `.lock`, once its end is trimmed again. -/
theorem trim_strip (h : Trim raw) (hlock : lock <:+ raw) :
    Trim ((raw.take (raw.length - lock.length)).rdropWhile isEdge) := by
  obtain ⟨rest, rfl⟩ := hlock
  have htake : (rest ++ lock).take ((rest ++ lock).length - lock.length) = rest := by
    rw [List.length_append, Nat.add_sub_cancel, List.take_left]
  rw [htake]
  -- the component does not begin with the suffix's dot
  have hne : rest ≠ [] := by
    rintro rfl
    exact absurd (h.bare.head '.' rfl) (by decide)
  obtain ⟨first, tail, rfl⟩ := List.exists_cons_of_ne_nil hne
  have hfirst : isEdge first = false := h.bare.head first rfl
  obtain ⟨more, hmore⟩ := List.rdropWhile_prefix isEdge (first :: tail)
  have hleft : (first :: tail).rdropWhile isEdge ≠ [] := by
    rw [Ne, List.rdropWhile_eq_nil_iff]
    intro hall
    rw [hall first List.mem_cons_self] at hfirst
    cases hfirst
  refine
    { nonempty := hleft
      allowed := fun c hc => h.allowed c ?_
      bare := ⟨fun c hc => ?_, Foundations.last_rdropWhile isEdge _⟩
      apart := h.apart.prefix ((List.rdropWhile_prefix _ _).trans (List.prefix_append _ _)) }
  · exact List.mem_append_left _ ((List.rdropWhile_prefix _ _).subset hc)
  · obtain ⟨other, behind, hcons⟩ := List.exists_cons_of_ne_nil hleft
    rw [hcons] at hmore hc
    obtain rfl : other = c := Option.some.inj hc
    rw [(List.cons.inj hmore).1]
    exact hfirst

theorem tidy_stripLocks (h : Trim raw) : Tidy (stripLocks raw) := by
  fun_induction stripLocks raw with
  | case1 trimmed hlock ih => exact ih (trim_strip h hlock)
  | case2 trimmed hlock => exact ⟨h, hlock⟩

theorem stripLocks_of_tidy (h : Tidy raw) : stripLocks raw = raw := by
  rw [stripLocks, dif_neg h.noLock]

theorem trim_collapsed (hallowed : ∀ c ∈ raw, componentChar c = true)
    (hsome : ∃ c ∈ raw, isEdge c = false) : Trim (trimMatches isEdge (raw.foldl push [])) := by
  obtain ⟨front, back, hfront, hback, hcollapsed⟩ :=
    Foundations.exists_trimMatches isEdge (raw.foldl push [])
  have hin : trimMatches isEdge (raw.foldl push []) <:+: raw.foldl push [] :=
    ⟨front, back, by rw [List.append_assoc]; exact hcollapsed.symm⟩
  refine
    { nonempty := fun hnil => ?_
      allowed := fun c hc => hallowed c ((mem_collapse.mp (hin.subset hc)).resolve_left nofun)
      bare := Foundations.bare_trimMatches isEdge _
      apart := List.IsChain.infix (isChain_collapse raw List.isChain_nil) hin }
  obtain ⟨c, hc, hedge⟩ := hsome
  have hmem : c ∈ front ++ back := by
    rw [hnil, List.nil_append] at hcollapsed
    rw [← hcollapsed]
    exact mem_collapse.mpr (.inr hc)
  rcases List.mem_append.mp hmem with hc | hc
  · rw [hfront c hc] at hedge
    cases hedge
  · rw [hback c hc] at hedge
    cases hedge

theorem component_eq_none_iff (hallowed : ∀ c ∈ raw, componentChar c = true) :
    component raw = none ↔ ∀ c ∈ raw, isEdge c = true := by
  constructor
  · intro h
    by_contra hnot
    push Not at hnot
    obtain ⟨c, hc, hedge⟩ := hnot
    have htidy := tidy_stripLocks (trim_collapsed hallowed ⟨c, hc, Bool.not_eq_true _ ▸ hedge⟩)
    unfold component at h
    dsimp only at h
    rw [if_neg (by rw [List.isEmpty_iff]; exact htidy.nonempty)] at h
    cases h
  · intro h
    have htrim : trimMatches isEdge (raw.foldl push []) = [] := by
      rw [trimMatches, List.dropWhile_eq_nil_iff.mpr]
      · rfl
      · exact fun c hc => h c ((mem_collapse.mp hc).resolve_left List.not_mem_nil)
    have hstrip : stripLocks [] = [] := by
      rw [stripLocks, dif_neg (by decide)]
    rw [component, htrim, hstrip]
    rfl

theorem component_eq_some (hallowed : ∀ c ∈ raw, componentChar c = true)
    (h : component raw = some left) : Tidy left := by
  have hsome : ∃ c ∈ raw, isEdge c = false := by
    by_contra hnone
    push Not at hnone
    rw [(component_eq_none_iff hallowed).mpr fun c hc => by simpa using hnone c hc] at h
    cases h
  unfold component at h
  dsimp only at h
  split at h
  case isTrue => cases h
  case isFalse =>
    obtain rfl := Option.some.inj h
    exact tidy_stripLocks (trim_collapsed hallowed hsome)

theorem component_eq_self (h : Tidy raw) : component raw = some raw := by
  have hcollapse : raw.foldl push [] = raw := collapse_eq_append h.apart
  rw [component, hcollapse, Foundations.trimMatches_self h.bare, stripLocks_of_tidy h]
  exact if_neg (by rw [List.isEmpty_iff]; exact h.nonempty)

/-! ## Names -/

def nameChar (c : Char) : Bool := componentChar c || c == '/'

theorem nameChar_mapChar (c : Char) : nameChar (mapChar c) = true := by
  unfold mapChar
  split
  case isTrue h => simp [nameChar, componentChar, h]
  case isFalse =>
    split
    case isTrue h =>
      obtain rfl | rfl | rfl | rfl := h
      · decide
      · decide
      · decide
      · decide
    case isFalse => decide

theorem mapChar_eq_self (h : nameChar c = true) : mapChar c = c := by
  simp only [nameChar, componentChar, Bool.or_eq_true, beq_iff_eq] at h
  unfold mapChar
  split
  case isTrue => rfl
  case isFalse hnot =>
    refine if_pos ?_
    tauto

theorem mapChar_kept_iff : (mapChar c ≠ '/' ∧ isEdge (mapChar c) = false) ↔
    isAsciiAlphanumeric c = true ∨ c = '_' := by
  unfold mapChar
  split
  case isTrue h =>
    refine iff_of_true ⟨?_, ?_⟩ (.inl h)
    · rintro rfl
      cases h
    · rw [isEdge, Bool.or_eq_false_iff, beq_eq_false_iff_ne, beq_eq_false_iff_ne]
      constructor
      · rintro rfl
        cases h
      · rintro rfl
        cases h
  case isFalse h =>
    rw [or_iff_right h]
    split
    case isTrue hkept =>
      obtain rfl | rfl | rfl | rfl := hkept
      · decide
      · decide
      · decide
      · decide
    case isFalse hkept =>
      refine iff_of_false (fun hdash => absurd hdash.2 (by decide)) fun heq => hkept ?_
      exact .inr (.inl heq)

theorem allowed_of_mem_splitOn {proposed piece : Text}
    (h : piece ∈ (proposed.map mapChar).splitOn '/') : ∀ c ∈ piece, componentChar c = true := by
  intro c hc
  rw [List.splitOn_eq_splitOnP] at h
  have hfree := Foundations.free_of_mem_splitOnP h hc
  obtain ⟨d, -, rfl⟩ := List.mem_map.mp (Foundations.mem_of_mem_splitOnP h hc)
  have hname := nameChar_mapChar d
  rw [nameChar, hfree, Bool.or_false] at hname
  exact hname

theorem mem_splitOn_iff {text : Text} (hslash : c ≠ '/') :
    (∃ piece ∈ text.splitOn '/', c ∈ piece) ↔ c ∈ text := by
  rw [List.splitOn_eq_splitOnP]
  constructor
  · rintro ⟨piece, hpiece, hc⟩
    exact Foundations.mem_of_mem_splitOnP hpiece hc
  · intro hc
    obtain ⟨before, after, rfl⟩ := List.append_of_mem hc
    have hwithin : [c] <:+: before ++ c :: after := ⟨before, after, by simp⟩
    have hfree : ∀ d ∈ [c], (d == '/') = false := by simpa using hslash
    obtain ⟨piece, hpiece, hin⟩ := Foundations.exists_record hwithin hfree
    exact ⟨piece, hpiece, hin.subset List.mem_cons_self⟩

theorem intercalate_eq_nil_iff {components : List Text} (h : ∀ piece ∈ components, piece ≠ []) :
    ['/'].intercalate components = [] ↔ components = [] := by
  match components with
  | [] => exact iff_of_true rfl rfl
  | [only] => simpa using h only List.mem_cons_self
  | first :: second :: rest =>
    simp [List.intercalate]

/-- The components a proposal becomes. -/
def componentsOf (proposed : Text) : List Text :=
  ((proposed.map mapChar).splitOn '/').filterMap component

theorem tidy_of_mem_componentsOf {proposed piece : Text} (h : piece ∈ componentsOf proposed) :
    Tidy piece := by
  obtain ⟨raw, hraw, hpiece⟩ := List.mem_filterMap.mp h
  exact component_eq_some (allowed_of_mem_splitOn hraw) hpiece

theorem sanitize_eq (proposed : Text) : sanitize proposed =
    if componentsOf proposed = [] then none
    else some (['/'].intercalate (componentsOf proposed)) := by
  have hempty := intercalate_eq_nil_iff fun piece (hpiece : piece ∈ componentsOf proposed) =>
    (tidy_of_mem_componentsOf hpiece).nonempty
  unfold sanitize
  simp only [List.isEmpty_iff]
  exact if_congr hempty rfl rfl

theorem sanitize_eq_none_iff (proposed : Text) : sanitize proposed = none ↔
    ∀ c ∈ proposed, ¬ (isAsciiAlphanumeric c = true ∨ c = '_') := by
  have hnone : sanitize proposed = none ↔ componentsOf proposed = [] := by
    rw [sanitize_eq]
    split
    case isTrue h => exact iff_of_true rfl h
    case isFalse h => exact iff_of_false (fun heq => nomatch heq) h
  rw [hnone, componentsOf, List.filterMap_eq_nil_iff]
  constructor
  · intro h c hc hkept
    obtain ⟨hslash, hedge⟩ := mapChar_kept_iff.mpr hkept
    obtain ⟨piece, hpiece, hmem⟩ :=
      (mem_splitOn_iff hslash).mpr (List.mem_map_of_mem (f := mapChar) hc)
    rw [(component_eq_none_iff (allowed_of_mem_splitOn hpiece)).mp (h piece hpiece) _ hmem] at hedge
    cases hedge
  · intro h piece hpiece
    refine (component_eq_none_iff (allowed_of_mem_splitOn hpiece)).mpr fun c hc => ?_
    rw [List.splitOn_eq_splitOnP] at hpiece
    obtain ⟨d, hd, rfl⟩ := List.mem_map.mp (Foundations.mem_of_mem_splitOnP hpiece hc)
    by_contra hedge
    refine h d hd (mapChar_kept_iff.mp ⟨?_, by simpa using hedge⟩)
    simpa using Foundations.free_of_mem_splitOnP hpiece hc

section Accepted

variable {components : List Text}

theorem slash_notMem (h : Tidy raw) : '/' ∉ raw := fun hmem =>
  absurd (h.allowed '/' hmem) (by decide)

theorem splitOn_joined (hne : components ≠ []) (h : ∀ piece ∈ components, Tidy piece) :
    (['/'].intercalate components).splitOn '/' = components :=
  List.splitOn_intercalate '/' (fun piece hpiece => slash_notMem (h piece hpiece)) hne

theorem nameChar_of_mem_joined (hne : components ≠ []) (h : ∀ piece ∈ components, Tidy piece) :
    ∀ c ∈ ['/'].intercalate components, nameChar c = true := by
  intro c hc
  by_cases hslash : c = '/'
  · rw [hslash]
    decide
  · obtain ⟨piece, hpiece, hmem⟩ := (mem_splitOn_iff hslash).mpr hc
    rw [splitOn_joined hne h] at hpiece
    rw [nameChar, (h piece hpiece).allowed c hmem, Bool.true_or]

theorem forbidden_of_nameChar (h : nameChar c = true) : forbidden c = false := by
  have hascii : ∀ n < 0x80, nameChar (Char.ofNat n) = true → forbidden (Char.ofNat n) = false := by
    decide +kernel
  have hlt : c.toNat < 0x80 := by
    simp only [nameChar, componentChar, isAsciiAlphanumeric, Char.isDigit, Bool.or_eq_true,
      Bool.and_eq_true, decide_eq_true_iff, beq_iff_eq] at h
    have hz : ∀ {d : Char}, c ≤ d → d.toNat < 0x80 → c.toNat < 0x80 := fun hle hd =>
      (show c.toNat ≤ _ from hle).trans_lt hd
    rcases h with (((((⟨-, h⟩ | ⟨-, h⟩) | ⟨-, h⟩) | rfl) | rfl) | rfl) | rfl
    · exact hz h (by decide)
    · exact hz h (by decide)
    · exact hz h (by decide)
    · decide
    · decide
    · decide
    · decide
  have hforbidden := hascii c.toNat hlt
  rw [Char.ofNat_toNat] at hforbidden
  exact hforbidden h

theorem getLast?_joined (hne : components ≠ []) (h : ∀ piece ∈ components, Tidy piece) :
    (['/'].intercalate components).getLast? ≠ some '.' := by
  induction components with
  | nil => exact absurd rfl hne
  | cons first rest ih =>
    cases rest with
    | nil =>
      rw [List.intercalate_singleton]
      exact fun hlast => absurd ((h first List.mem_cons_self).bare.last '.' hlast) (by decide)
    | cons second rest =>
      have hrest := fun piece hpiece => h piece (List.mem_cons_of_mem first hpiece)
      have hiff := intercalate_eq_nil_iff fun piece hpiece => (hrest piece hpiece).nonempty
      have hjoined : ['/'].intercalate (second :: rest) ≠ [] := fun hnil =>
        List.cons_ne_nil _ _ (hiff.mp hnil)
      rw [List.intercalate_cons_cons, List.getLast?_append_of_ne_nil _ hjoined]
      exact ih (List.cons_ne_nil _ _) hrest

theorem branchFormat_joined (hne : components ≠ []) (h : ∀ piece ∈ components, Tidy piece) :
    BranchFormat (['/'].intercalate components) where
  components := by
    intro piece hpiece
    rw [splitOn_joined hne h] at hpiece
    have htidy := h piece hpiece
    exact ⟨htidy.nonempty, fun hdot => absurd (htidy.bare.head '.' hdot) (by decide), htidy.noLock⟩
  noDots := by
    intro hdots
    have hfree : ∀ d ∈ ['.', '.'], (d == '/') = false := by simp
    obtain ⟨piece, hpiece, hin⟩ := Foundations.exists_record hdots hfree
    rw [← List.splitOn_eq_splitOnP, splitOn_joined hne h] at hpiece
    have hpair : ['.', '.'].IsChain Apart := List.IsChain.infix (h piece hpiece).apart hin
    exact List.isChain_pair.mp hpair (by decide) rfl
  allowed c hc := forbidden_of_nameChar (nameChar_of_mem_joined hne h c hc)
  noDotEnd := getLast?_joined hne h
  noReflog := by
    intro hin
    have hat := nameChar_of_mem_joined hne h '@' (hin.subset List.mem_cons_self)
    revert hat
    decide

theorem sanitize_joined (hne : components ≠ []) (h : ∀ piece ∈ components, Tidy piece) :
    sanitize (['/'].intercalate components) = some (['/'].intercalate components) := by
  have hmap : (['/'].intercalate components).map mapChar = ['/'].intercalate components :=
    (List.map_congr_left fun c hc => mapChar_eq_self (nameChar_of_mem_joined hne h c hc)).trans
      (List.map_id _)
  have hcomponents : componentsOf (['/'].intercalate components) = components := by
    rw [componentsOf, hmap, splitOn_joined hne h,
      List.filterMap_congr fun piece hpiece => component_eq_self (h piece hpiece)]
    exact List.filterMap_some
  rw [sanitize_eq, hcomponents, if_neg hne]

end Accepted

/-- A proposed name becomes one git accepts, of letters, digits and `-`, `_`, `.` and `/`, that
sanitizing leaves alone; or nothing, where it has no letter, digit or underscore. -/
theorem sanitize_accepted (proposed : Text) :
    (sanitize proposed = none ↔
      ∀ c ∈ proposed, ¬ (isAsciiAlphanumeric c = true ∨ c = '_')) ∧
    ∀ name ∈ sanitize proposed, RefFormat (heads name) ∧
      (∀ c ∈ name, isAsciiAlphanumeric c = true ∨ c = '-' ∨ c = '_' ∨ c = '.' ∨ c = '/') ∧
      sanitize name = some name := by
  refine ⟨sanitize_eq_none_iff proposed, fun name hname => ?_⟩
  rw [Option.mem_def, sanitize_eq] at hname
  split at hname
  case isTrue => cases hname
  case isFalse hne =>
    obtain rfl := Option.some.inj hname
    have htidy : ∀ piece ∈ componentsOf proposed, Tidy piece :=
      fun piece hpiece => tidy_of_mem_componentsOf hpiece
    refine ⟨(refFormat_heads_iff _).mpr (branchFormat_joined hne htidy), fun c hc => ?_,
      sanitize_joined hne htidy⟩
    have hchar := nameChar_of_mem_joined hne htidy c hc
    simp only [nameChar, componentChar, Bool.or_eq_true, beq_iff_eq, or_assoc] at hchar
    exact hchar

theorem sanitize_accepted_spaced : ∃ name, sanitize "a b.lock".toList = some name ∧
    RefFormat (heads name) ∧ sanitize name = some name := by
  have haccepted := sanitize_accepted "a b.lock".toList
  cases hname : sanitize "a b.lock".toList with
  | none => exact absurd (.inl (by decide)) (haccepted.1.mp hname 'a' List.mem_cons_self)
  | some name =>
    obtain ⟨hformat, -, hself⟩ := haccepted.2 name hname
    exact ⟨name, rfl, hformat, hself⟩

end Onevcs.Branches
