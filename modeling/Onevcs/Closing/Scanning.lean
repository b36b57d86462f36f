import Onevcs.Closing.References
import Onevcs.Foundations.Delimited

/-!
# The scanner finds every reference

A line scanned from left to right skips what each reference took. Nothing is lost by it: no keyword
that precedes a reference stands inside a token that is one.
-/

namespace Onevcs.Closings

open Foundations (Text cut_inj)
open Store (isWhitespace stripPrefix splitOnce)
open Review (lowercase stripPrefix_append stripPrefix_eq_some_iff splitOnce_append
  splitOnce_eq_some_iff)

section Tokens

variable {text token reference host owner name number : Text} {c : Char}

/-! ## What parts of a token are made of -/

theorem ne_nil_of_isNumber (h : isNumber text = true) : text ≠ [] := by
  rw [isNumber, Bool.and_eq_true, Bool.not_eq_true', List.isEmpty_eq_false_iff] at h
  exact h.1

theorem ne_nil_of_isOwner (h : isOwner text = true) : text ≠ [] := by
  rw [isOwner, Bool.and_eq_true, Bool.not_eq_true', List.isEmpty_eq_false_iff] at h
  exact h.1

theorem isDigit_of_isNumber (h : isNumber text = true) (hc : c ∈ text) : c.isDigit = true := by
  rw [isNumber, Bool.and_eq_true] at h
  exact List.all_eq_true.mp h.2 c hc

theorem of_mem_isOwner (h : isOwner text = true) (hc : c ∈ text) :
    (c.isAlphanum || c == '-') = true := by
  rw [isOwner, Bool.and_eq_true] at h
  exact List.all_eq_true.mp h.2 c hc

theorem of_mem_isName (h : isName text = true) (hc : c ∈ text) :
    (c.isAlphanum || decide (c ∈ ['-', '_', '.'])) = true := by
  rw [isName, Bool.and_eq_true] at h
  exact List.all_eq_true.mp h.2 c hc

theorem not_mem_of_forall {p : Char → Bool} (hslash : p '/' = false) (hhash : p '#' = false)
    (hcolon : p ':' = false) (hall : ∀ c ∈ text, p c = true) (hc : c ∈ ['/', '#', ':']) :
    c ∉ text := by
  intro hmem
  have hpart := hall c hmem
  simp only [List.mem_cons, List.not_mem_nil, or_false] at hc
  rcases hc with rfl | rfl | rfl
  · exact absurd hpart (hslash ▸ Bool.false_ne_true)
  · exact absurd hpart (hhash ▸ Bool.false_ne_true)
  · exact absurd hpart (hcolon ▸ Bool.false_ne_true)

theorem not_mem_isNumber (h : isNumber text = true) (hc : c ∈ ['/', '#', ':']) : c ∉ text :=
  not_mem_of_forall (by decide) (by decide) (by decide) (fun _ => isDigit_of_isNumber h) hc

theorem not_mem_isOwner (h : isOwner text = true) (hc : c ∈ ['/', '#', ':']) : c ∉ text :=
  not_mem_of_forall (p := fun c => c.isAlphanum || c == '-') (by decide) (by decide) (by decide)
    (fun _ => of_mem_isOwner h) hc

theorem not_mem_isName (h : isName text = true) (hc : c ∈ ['/', '#', ':']) : c ∉ text :=
  not_mem_of_forall (p := fun c => c.isAlphanum || decide (c ∈ ['-', '_', '.'])) (by decide)
    (by decide) (by decide) (fun _ => of_mem_isName h) hc

/-- What stands behind the host of an issue's URL. -/
def afterHost (owner name number : Text) : Text :=
  owner ++ '/' :: (name ++ '/' :: ("issues".toList ++ '/' :: number))

theorem intercalate_eq : List.intercalate ['/'] [host, owner, name, "issues".toList, number] =
    host ++ '/' :: afterHost owner name number := by
  simp [List.intercalate, afterHost]

theorem colon_not_mem_afterHost (howner : isOwner owner = true) (hname : isName name = true)
    (hnumber : isNumber number = true) : ':' ∉ afterHost owner name number := by
  have hissues : ':' ∉ "issues".toList := by decide
  simp [afterHost, not_mem_isOwner howner, not_mem_isName hname, not_mem_isNumber hnumber]

theorem issueOfUrl_eq_some_iff {url : Text} :
    issueOfUrl token url = some reference ↔ ∃ host owner name number,
      url = List.intercalate ['/'] [host, owner, name, "issues".toList, number] ∧ '/' ∉ host ∧
        isOwner owner = true ∧ isName name = true ∧ isNumber number = true ∧
        reference = if lowercase host = "github.com".toList then shortForm owner name number
          else token := by
  unfold issueOfUrl
  constructor
  · intro h
    split at h
    · next host owner name kind number hsplit =>
      split at h
      · next hparts =>
        simp only [Bool.and_eq_true, decide_eq_true_iff] at hparts
        obtain ⟨⟨⟨rfl, howner⟩, hname⟩, hnumber⟩ := hparts
        have hurl : List.intercalate ['/'] (url.splitOn '/') = url :=
          List.intercalate_splitOn '/'
        rw [hsplit] at hurl
        have hhost : '/' ∉ host := by
          intro hmem
          have hpiece : host ∈ url.splitOn '/' := by
            rw [hsplit]
            exact List.mem_cons_self
          rw [List.splitOn_eq_splitOnP] at hpiece
          simpa using Foundations.free_of_mem_splitOnP hpiece hmem
        exact ⟨host, owner, name, number, hurl.symm, hhost, howner, hname, hnumber,
          (Option.some.inj h).symm⟩
      · cases h
    · cases h
  · rintro ⟨host, owner, name, number, rfl, hhost, howner, hname, hnumber, rfl⟩
    have hsplit : (List.intercalate ['/'] [host, owner, name, "issues".toList, number]).splitOn '/' =
        [host, owner, name, "issues".toList, number] := by
      refine List.splitOn_intercalate '/' ?_ (by simp)
      have hissues : '/' ∉ "issues".toList := by decide
      simp [hhost, not_mem_isOwner howner, not_mem_isName hname, not_mem_isNumber hnumber]
    rw [hsplit]
    simp only [howner, hname, hnumber, decide_true, Bool.and_self, if_true]

theorem issueOfShort_eq_some_iff :
    issueOfShort token = some reference ↔ ∃ owner name number,
      token = shortForm owner name number ∧ isOwner owner = true ∧ isName name = true ∧
        isNumber number = true ∧ reference = shortForm owner name number := by
  unfold issueOfShort
  constructor
  · intro h
    obtain ⟨⟨repository, number⟩, hmark, hrest⟩ := Option.bind_eq_some_iff.mp h
    obtain ⟨⟨owner, name⟩, hslash, hnamed⟩ := Option.bind_eq_some_iff.mp hrest
    obtain ⟨htoken, -⟩ := splitOnce_eq_some_iff.mp hmark
    obtain ⟨hrepository, -⟩ := splitOnce_eq_some_iff.mp hslash
    have hform : token = shortForm owner name number := by
      rw [htoken, hrepository, shortForm, List.append_assoc, List.cons_append]
    by_cases hparts : (isOwner owner && isName name && isNumber number) = true
    · simp only [hparts, if_true] at hnamed
      simp only [Bool.and_eq_true] at hparts
      exact ⟨owner, name, number, hform, hparts.1.1, hparts.1.2, hparts.2,
        (Option.some.inj hnamed).symm⟩
    · simp only [if_neg hparts] at hnamed
      cases hnamed
  · rintro ⟨owner, name, number, rfl, howner, hname, hnumber, rfl⟩
    have hmark : splitOnce '#' (shortForm owner name number) =
        some (owner ++ '/' :: name, number) := by
      have hsame : shortForm owner name number = (owner ++ '/' :: name) ++ '#' :: number := by
        simp [shortForm]
      rw [hsame]
      exact splitOnce_append (by
        simp [not_mem_isOwner howner, not_mem_isName hname])
    have hslash : splitOnce '/' (owner ++ '/' :: name) = some (owner, name) :=
      splitOnce_append (not_mem_isOwner howner (by simp))
    simp only [hmark, Option.bind_some, hslash, howner, hname, hnumber, Bool.and_self, if_true]

theorem stripPrefix_scheme_eq_none {scheme before rest : Text} (hbefore : '/' ∉ before)
    (hne : before ++ ['/', '/'] ≠ scheme) (hscheme : ∃ start, '/' ∉ start ∧ scheme = start ++ ['/', '/']) :
    stripPrefix scheme (before ++ '/' :: rest) = none := by
  obtain ⟨start, hstart, rfl⟩ := hscheme
  cases hstrip : stripPrefix (start ++ ['/', '/']) (before ++ '/' :: rest) with
  | none => rfl
  | some left =>
    have heq := stripPrefix_eq_some_iff.mp hstrip
    have hcut : splitOnce '/' (before ++ '/' :: rest) = some (start, '/' :: left) := by
      rw [heq, List.append_assoc]
      exact splitOnce_append hstart
    rw [splitOnce_append hbefore] at hcut
    obtain ⟨rfl, -⟩ := Prod.mk.inj (Option.some.inj hcut)
    exact absurd rfl hne

theorem stripPrefix_mark_eq_none {text rest : Text} (hne : text ≠ []) (h : '#' ∉ text) :
    stripPrefix ['#'] (text ++ rest) = none := by
  cases hstrip : stripPrefix ['#'] (text ++ rest) with
  | none => rfl
  | some left =>
    obtain ⟨c, tail, rfl⟩ := List.exists_cons_of_ne_nil hne
    obtain ⟨rfl, -⟩ := List.cons.inj (stripPrefix_eq_some_iff.mp hstrip)
    exact absurd List.mem_cons_self h

theorem issue_eq_some_iff : issue token = some reference ↔ Names token reference := by
  unfold issue
  constructor
  · intro h
    split at h
    · next number hmark =>
      obtain rfl := stripPrefix_eq_some_iff.mp hmark
      split at h
      · next hnumber =>
        obtain rfl := Option.some.inj h
        exact .number hnumber
      · cases h
    · split at h
      · next url hurl =>
        obtain ⟨host, owner, name, number, rfl, hhost, howner, hname, hnumber, rfl⟩ :=
          issueOfUrl_eq_some_iff.mp h
        have hscheme : ∃ scheme, (scheme = "https://".toList ∨ scheme = "http://".toList) ∧
            token = scheme ++ List.intercalate ['/'] [host, owner, name, "issues".toList, number] := by
          rcases Option.or_eq_some_iff.mp hurl with hsecure | ⟨-, hplain⟩
          · exact ⟨_, .inl rfl, stripPrefix_eq_some_iff.mp hsecure⟩
          · exact ⟨_, .inr rfl, stripPrefix_eq_some_iff.mp hplain⟩
        obtain ⟨scheme, hscheme, rfl⟩ := hscheme
        exact .url hscheme hhost howner hname hnumber
      · obtain ⟨owner, name, number, rfl, howner, hname, hnumber, rfl⟩ :=
          issueOfShort_eq_some_iff.mp h
        exact .short howner hname hnumber
  · intro h
    cases h with
    | @number number hnumber =>
      have hmark : stripPrefix ['#'] ('#' :: number) = some number := stripPrefix_append ['#'] number
      simp only [hmark, hnumber, if_true]
    | @short owner name number howner hname hnumber =>
      have hslash := not_mem_isOwner howner (c := '/') (by simp)
      have hcolon : ':' ∉ owner := not_mem_isOwner howner (by simp)
      have hmark : stripPrefix ['#'] (shortForm owner name number) = none :=
        stripPrefix_mark_eq_none (ne_nil_of_isOwner howner) (not_mem_isOwner howner (by simp))
      have hsecure : stripPrefix "https://".toList (shortForm owner name number) = none := by
        refine stripPrefix_scheme_eq_none hslash (fun heq => ?_) ⟨"https:".toList, by decide, rfl⟩
        have hmem : ':' ∈ owner ++ ['/', '/'] := heq ▸ (by decide)
        simp [hcolon] at hmem
      have hplain : stripPrefix "http://".toList (shortForm owner name number) = none := by
        refine stripPrefix_scheme_eq_none hslash (fun heq => ?_) ⟨"http:".toList, by decide, rfl⟩
        have hmem : ':' ∈ owner ++ ['/', '/'] := heq ▸ (by decide)
        simp [hcolon] at hmem
      simp only [hmark, hsecure, hplain, Option.or_none]
      exact issueOfShort_eq_some_iff.mpr ⟨owner, name, number, rfl, howner, hname, hnumber, rfl⟩
    | @url scheme host owner name number hscheme hhost howner hname hnumber =>
      have hurl : (stripPrefix "https://".toList (scheme ++
          List.intercalate ['/'] [host, owner, name, "issues".toList, number])).or
            (stripPrefix "http://".toList (scheme ++
              List.intercalate ['/'] [host, owner, name, "issues".toList, number])) =
          some (List.intercalate ['/'] [host, owner, name, "issues".toList, number]) := by
        rcases hscheme with rfl | rfl
        · rw [stripPrefix_append, Option.some_or]
        · have hsecure : stripPrefix "https://".toList ("http://".toList ++
              List.intercalate ['/'] [host, owner, name, "issues".toList, number]) = none :=
            if_neg (by rw [Bool.not_eq_true]; rfl)
          rw [stripPrefix_append, hsecure, Option.none_or]
      have hmark : stripPrefix ['#'] (scheme ++
          List.intercalate ['/'] [host, owner, name, "issues".toList, number]) = none := by
        rcases hscheme with rfl | rfl
        · exact stripPrefix_mark_eq_none (by decide) (by decide)
        · exact stripPrefix_mark_eq_none (by decide) (by decide)
      simp only [hmark, hurl]
      exact issueOfUrl_eq_some_iff.mpr
        ⟨host, owner, name, number, rfl, hhost, howner, hname, hnumber, rfl⟩

variable {gap tail candidate after : Text} {used : ℕ}

theorem isTerminator_of_isWhitespace (h : isWhitespace c = true) : isTerminator c = true := by
  rw [isTerminator, h, Bool.true_or]

theorem isTerminator_eq_false_of_isTrailing (h : isTrailing c = true) : isTerminator c = false := by
  simp only [isTrailing, decide_eq_true_iff, List.mem_cons, List.not_mem_nil, or_false] at h
  rcases h with rfl | rfl | rfl | rfl <;> decide

theorem Names.getLast (h : Names token reference) : ∃ digit, token.getLast? = some digit ∧
    digit.isDigit = true := by
  have hlast : ∀ {number start : Text}, isNumber number = true →
      ∃ digit, (start ++ number).getLast? = some digit ∧ digit.isDigit = true := by
    intro number start hnumber
    have hne := ne_nil_of_isNumber hnumber
    refine ⟨number.getLast hne, ?_, isDigit_of_isNumber hnumber (List.getLast_mem hne)⟩
    rw [List.getLast?_append_of_ne_nil _ hne, List.getLast?_eq_some_getLast hne]
  cases h with
  | @number number hnumber =>
    have hform : '#' :: number = ['#'] ++ number := rfl
    rw [hform]
    exact hlast hnumber
  | @short owner name number _ _ hnumber =>
    have hform : shortForm owner name number = (owner ++ '/' :: (name ++ ['#'])) ++ number := by
      simp [shortForm]
    rw [hform]
    exact hlast hnumber
  | @url scheme host owner name number _ _ _ _ hnumber =>
    rw [intercalate_eq]
    have hform : scheme ++ (host ++ '/' :: afterHost owner name number) =
        (scheme ++ (host ++ '/' :: (owner ++ '/' :: (name ++ '/' :: ("issues".toList ++ ['/']))))) ++
          number := by
      simp [afterHost]
    rw [hform]
    exact hlast hnumber

theorem Names.ne_nil (h : Names token reference) : token ≠ [] := by
  rintro rfl
  obtain ⟨digit, hdigit, -⟩ := h.getLast
  cases hdigit

/-- A token without terminators that ends in a digit is the one its text starts with. -/
theorem tokenOf_append (hfree : ∀ c ∈ token, isTerminator c = false)
    (hlast : ∃ digit, token.getLast? = some digit ∧ digit.isDigit = true) (hends : Ends tail) :
    tokenOf (token ++ tail) = token := by
  have hpunctuation : ∀ c ∈ tail.takeWhile fun c => !isTerminator c, isTrailing c = true := by
    intro c hc
    by_contra hnot
    -- The first mark that is not trailing would stand before the terminator.
    have hsplit : tail.takeWhile isTrailing ++ tail.dropWhile isTrailing = tail :=
      List.takeWhile_append_dropWhile
    have hmarks : ∀ d ∈ tail.takeWhile isTrailing, (!isTerminator d) = true := fun d hd => by
      rw [isTerminator_eq_false_of_isTrailing (List.mem_takeWhile_imp hd), Bool.not_false]
    rw [← hsplit, List.takeWhile_append_of_pos hmarks, List.mem_append] at hc
    rcases hc with hc | hc
    · exact hnot (List.mem_takeWhile_imp hc)
    · cases hdrop : tail.dropWhile isTrailing with
      | nil =>
        rw [hdrop] at hc
        cases hc
      | cons d rest =>
        have hd := hends d (by rw [hdrop]; rfl)
        rw [hdrop, List.takeWhile_cons_of_neg (by simp [hd])] at hc
        cases hc
  obtain ⟨digit, hdigit, hisDigit⟩ := hlast
  have hdigit' : isTrailing digit = false := by
    by_contra htrailing
    simp only [Bool.not_eq_false, isTrailing, decide_eq_true_iff, List.mem_cons, List.not_mem_nil,
      or_false] at htrailing
    rcases htrailing with rfl | rfl | rfl | rfl <;> exact absurd hisDigit (by decide)
  have hne : token ≠ [] := by
    rintro rfl
    cases hdigit
  rw [tokenOf, List.takeWhile_append_of_pos fun c hc => by rw [hfree c hc, Bool.not_false],
    List.rdropWhile, List.reverse_append, List.dropWhile_append_of_pos fun c hc =>
      hpunctuation c (List.mem_reverse.mp hc)]
  have hkept : token.reverse.dropWhile isTrailing = token.reverse := by
    rw [List.dropWhile_eq_self_iff]
    intro hlength
    rw [List.getElem_zero, List.head_reverse]
    have hlast := List.getLast?_eq_some_getLast hne
    rw [hdigit, Option.some.injEq] at hlast
    rw [← hlast, hdigit']
    exact Bool.false_ne_true
  rw [hkept, List.reverse_reverse]

/-- The token a text starts with has no terminators, and ends there. -/
theorem tokenOf_spec (candidate : Text) : ∃ tail, candidate = tokenOf candidate ++ tail ∧
    (∀ c ∈ tokenOf candidate, isTerminator c = false) ∧ Ends tail := by
  let stretch := candidate.takeWhile fun c => !isTerminator c
  have hcandidate : stretch ++ candidate.dropWhile (fun c => !isTerminator c) = candidate :=
    List.takeWhile_append_dropWhile
  have hstretch : tokenOf candidate ++ stretch.rtakeWhile isTrailing = stretch :=
    List.rdropWhile_append_rtakeWhile
  have hfree : ∀ c ∈ stretch, isTerminator c = false := fun c hc => by
    simpa using List.mem_takeWhile_imp hc
  refine ⟨stretch.rtakeWhile isTrailing ++ candidate.dropWhile fun c => !isTerminator c, ?_,
    fun c hc => hfree c (hstretch ▸ List.mem_append_left _ hc), fun c hc => ?_⟩
  · rw [← List.append_assoc, hstretch, hcandidate]
  · rw [List.dropWhile_append_of_pos fun d hd => List.mem_rtakeWhile_imp hd] at hc
    cases hdrop : candidate.dropWhile fun c => !isTerminator c with
    | nil =>
      rw [hdrop] at hc
      cases hc
    | cons d rest =>
      have hd : isTerminator d = true := by
        have hhead := List.head_dropWhile_not (fun c => !isTerminator c) (l := candidate)
          (by rw [hdrop]; exact List.cons_ne_nil _ _)
        simpa [hdrop] using hhead
      have htrailing : ¬ isTrailing d = true := fun h => by
        rw [isTerminator_eq_false_of_isTrailing h] at hd
        cases hd
      rw [hdrop, List.dropWhile_cons_of_neg htrailing] at hc
      obtain rfl := Option.some.inj hc
      exact hd

theorem head_not_isWhitespace (hfree : ∀ c ∈ token, isTerminator c = false) (hne : token ≠ []) :
    (token ++ tail).takeWhile isWhitespace = [] := by
  obtain ⟨c, rest, rfl⟩ := List.exists_cons_of_ne_nil hne
  have hc : ¬ isWhitespace c = true := fun h => by
    have hnot := hfree c List.mem_cons_self
    rw [isTerminator_of_isWhitespace h] at hnot
    cases hnot
  rw [List.cons_append, List.takeWhile_cons_of_neg hc]

/-- A reference follows a keyword where a token that names it does, after a gap. -/
theorem referenceAfter_eq_some_iff : referenceAfter after = some (reference, used) ↔
    ∃ gap token tail, after = gap ++ (token ++ tail) ∧ Gap gap ∧ Names token reference ∧
      (∀ c ∈ token, isTerminator c = false) ∧ Ends tail ∧ used = gap.length + token.length := by
  simp only [referenceAfter]
  generalize hcolon : (if after.head? = some ':' then 1 else 0) = colon
  -- The colon, where there is one, and what follows it.
  have hafter : after.take colon = [] ∧ colon = 0 ∧ after.head? ≠ some ':' ∨
      after.take colon = [':'] ∧ colon = 1 ∧ ∃ rest, after = ':' :: rest := by
    split at hcolon
    · next hhead =>
      obtain rfl := hcolon.symm
      obtain ⟨rest, rfl⟩ := List.head?_eq_some_iff.mp hhead
      exact .inr ⟨rfl, rfl, rest, rfl⟩
    · next hhead =>
      obtain rfl := hcolon.symm
      exact .inl ⟨rfl, rfl, hhead⟩
  constructor
  · intro h
    split at h
    · cases h
    · next hpos =>
      obtain ⟨found, hissue, heq⟩ := Option.map_eq_some_iff.mp h
      obtain ⟨rfl, rfl⟩ := Prod.mk.inj heq
      let spaces := (after.drop colon).takeWhile isWhitespace
      obtain ⟨tail, htail, hfree, hends⟩ := tokenOf_spec (after.drop (colon + spaces.length))
      have hspaces : spaces ++ after.drop (colon + spaces.length) = after.drop colon := by
        rw [← List.drop_drop]
        exact List.prefix_iff_eq_append.mp (List.takeWhile_prefix _)
      have hlength : (after.take colon).length = colon := by
        rcases hafter with ⟨htake, hzero, -⟩ | ⟨htake, hone, -⟩
        · rw [htake, hzero]
          rfl
        · rw [htake, hone]
          rfl
      refine ⟨after.take colon ++ spaces, _, tail, ?_, ⟨?_, after.take colon, spaces, rfl, ?_, ?_⟩,
        issue_eq_some_iff.mp hissue, hfree, hends, ?_⟩
      · rw [← htail, List.append_assoc, hspaces, List.take_append_drop]
      · intro hnil
        have hzero := congrArg List.length hnil
        rw [List.length_append, hlength] at hzero
        exact hpos hzero
      · exact hafter.imp (fun h => h.1) fun h => h.1
      · exact fun c hc => List.mem_takeWhile_imp hc
      · rw [List.length_append, hlength]
  · rintro ⟨gap, token, tail, rfl, ⟨hgap, mark, spaces, rfl, hmark, hspaces⟩, hnames, hfree, hends,
      rfl⟩
    have hwhite : (spaces ++ (token ++ tail)).takeWhile isWhitespace = spaces := by
      rw [List.takeWhile_append_of_pos hspaces, head_not_isWhitespace hfree hnames.ne_nil,
        List.append_nil]
    have hcount : colon = mark.length := by
      rcases hmark with rfl | rfl
      · rw [List.nil_append] at hgap
        obtain ⟨c, rest, rfl⟩ := List.exists_cons_of_ne_nil hgap
        have hc : c ≠ ':' := by
          rintro rfl
          exact absurd (hspaces ':' List.mem_cons_self) (by decide)
        rw [← hcolon]
        exact if_neg fun h => hc (Option.some.inj h)
      · rw [← hcolon]
        exact if_pos rfl
    have hdrop : (mark ++ spaces ++ (token ++ tail)).drop colon = spaces ++ (token ++ tail) := by
      rw [hcount, List.append_assoc, List.drop_left]
    have hstart : (mark ++ spaces ++ (token ++ tail)).drop (colon + spaces.length) =
        token ++ tail := by
      rw [← List.drop_drop, hdrop, List.drop_left]
    have hpos : ¬ colon + spaces.length = 0 := by
      rw [hcount, ← List.length_append]
      exact fun h => hgap (List.length_eq_zero_iff.mp h)
    rw [hdrop, hwhite, if_neg hpos, hstart, tokenOf_append hfree hnames.getLast hends,
      issue_eq_some_iff.mpr hnames, Option.map_some, List.length_append, hcount]

/-- A colon may stand before a token, and the end of a sentence behind it. -/
example : referenceAfter ": #12.".toList = some ("#12".toList, 5) := by
  decide +kernel

end Tokens

section Scanning

variable {unicode : Unicode} {line rest tail token reference word gap : Text} {before : Option Char}
  {closing : Closing} {used : ℕ} {c : Char}

/-! ## Where a keyword stands -/

theorem isAlpha_of_keyword (h : lowercase word ∈ keywords) (hc : c ∈ word) : c.isAlpha = true := by
  have hletters : (keywords.all fun keyword => keyword.all Char.isAlpha) = true := by
    rfl
  have hlower : c.toLower.isAlpha = true :=
    List.all_eq_true.mp (List.all_eq_true.mp hletters _ h) _ (List.mem_map_of_mem hc)
  unfold Char.toLower at hlower
  split at hlower
  · next hupper => rw [Char.isAlpha, Char.isUpper, decide_eq_true hupper, Bool.true_or]
  · exact hlower

theorem keyword_ne_nil (h : lowercase word ∈ keywords) : word ≠ [] := by
  rintro rfl
  exact absurd h (by decide)

theorem isAlpha_eq_false_of_isWhitespace (h : isWhitespace c = true) : c.isAlpha = false := by
  by_contra hnot
  simp only [Bool.not_eq_false, Char.isAlpha, Char.isUpper, Char.isLower, Bool.or_eq_true,
    Bool.and_eq_true, decide_eq_true_iff, ge_iff_le, UInt32.le_iff_toNat_le] at hnot
  simp only [isWhitespace, Bool.or_eq_true, Bool.and_eq_true, decide_eq_true_iff,
    List.contains_iff_mem, List.mem_cons, List.not_mem_nil, or_false] at h
  have hcode : c.toNat = c.val.toNat := rfl
  simp at hnot
  omega

theorem isAlpha_eq_false_of_isDigit (h : c.isDigit = true) : c.isAlpha = false := by
  by_contra hnot
  simp only [Bool.not_eq_false, Char.isAlpha, Char.isUpper, Char.isLower, Char.isDigit,
    Bool.or_eq_true, Bool.and_eq_true, decide_eq_true_iff, ge_iff_le,
    UInt32.le_iff_toNat_le] at hnot h
  simp at hnot h
  omega

theorem Gap.isAlpha_eq_false (h : Gap gap) (hc : c ∈ gap) : c.isAlpha = false := by
  obtain ⟨-, mark, spaces, rfl, hmark, hspaces⟩ := h
  rcases List.mem_append.mp hc with hc | hc
  · rcases hmark with rfl | rfl
    · cases hc
    · obtain rfl := List.mem_singleton.mp hc
      decide
  · exact isAlpha_eq_false_of_isWhitespace (hspaces c hc)

theorem closingAt_eq_some_iff : closingAt unicode before rest = some (closing, used) ↔
    startsWord unicode before = true ∧ ∃ word gap token tail,
      rest = word ++ (gap ++ (token ++ tail)) ∧ lowercase word ∈ keywords ∧ Gap gap ∧
        Names token closing.reference ∧ (∀ c ∈ token, isTerminator c = false) ∧ Ends tail ∧
        closing.keyword = capitalised word ∧
        used = word.length + (gap.length + token.length) := by
  simp only [closingAt]
  constructor
  · intro h
    split at h
    · next hkeyword =>
      rw [Bool.and_eq_true, decide_eq_true_iff] at hkeyword
      obtain ⟨⟨reference, taken⟩, hafter, heq⟩ := Option.map_eq_some_iff.mp h
      obtain ⟨rfl, rfl⟩ := Prod.mk.inj heq
      obtain ⟨gap, token, tail, hdrop, hgap, hnames, hfree, hends, rfl⟩ :=
        referenceAfter_eq_some_iff.mp hafter
      refine ⟨hkeyword.1, _, gap, token, tail, ?_, hkeyword.2, hgap, hnames, hfree, hends, rfl,
        rfl⟩
      rw [← hdrop]
      exact (List.prefix_iff_eq_append.mp (List.takeWhile_prefix _)).symm
    · cases h
  · rintro ⟨hstarts, word, gap, token, tail, rfl, hkeyword, hgap, hnames, hfree, hends, hcapital,
      rfl⟩
    have hword : (word ++ (gap ++ (token ++ tail))).takeWhile Char.isAlpha = word := by
      obtain ⟨c, rest, rfl⟩ := List.exists_cons_of_ne_nil hgap.1
      have hc := hgap.isAlpha_eq_false List.mem_cons_self
      rw [List.takeWhile_append_of_pos fun d hd => isAlpha_of_keyword hkeyword hd, List.cons_append,
        List.takeWhile_cons_of_neg (by rw [hc]; exact Bool.false_ne_true), List.append_nil]
    have hafter : referenceAfter (gap ++ (token ++ tail)) =
        some (closing.reference, gap.length + token.length) :=
      referenceAfter_eq_some_iff.mpr ⟨gap, token, tail, rfl, hgap, hnames, hfree, hends, rfl⟩
    rw [hword, hstarts, decide_eq_true hkeyword, Bool.and_self, if_pos rfl, List.drop_left, hafter,
      Option.map_some, ← hcapital]

theorem closingAt_after_letter (h : c.isAlpha = true) : closingAt unicode (some c) rest = none := by
  rw [Option.eq_none_iff_forall_ne_some]
  rintro ⟨closing, used⟩ hat
  have hstarts := (closingAt_eq_some_iff.mp hat).1
  rw [startsWord, Option.all_some, unicode.isAlphanumeric_of_isAlpha c h] at hstarts
  cases hstarts

theorem closingAt_of_not_letter (h : c.isAlpha = false) :
    closingAt unicode before (c :: rest) = none := by
  rw [Option.eq_none_iff_forall_ne_some]
  rintro ⟨closing, used⟩ hat
  obtain ⟨-, word, gap, token, tail, hrest, hkeyword, -⟩ := closingAt_eq_some_iff.mp hat
  obtain ⟨first, more, rfl⟩ := List.exists_cons_of_ne_nil (keyword_ne_nil hkeyword)
  obtain ⟨rfl, -⟩ := List.cons.inj hrest
  rw [isAlpha_of_keyword hkeyword List.mem_cons_self] at h
  cases h

theorem not_names_slash (rest other : Text) : ¬ Names ('/' :: rest) other := by
  intro h
  generalize hwhole : '/' :: rest = whole at h
  cases h with
  | number => cases hwhole
  | @short owner name number howner =>
    obtain ⟨first, more, rfl⟩ := List.exists_cons_of_ne_nil (ne_nil_of_isOwner howner)
    obtain ⟨rfl, -⟩ := List.cons.inj hwhole
    exact not_mem_isOwner howner (by simp) List.mem_cons_self
  | url hscheme =>
    rcases hscheme with rfl | rfl
    · exact absurd (List.cons.inj hwhole).1 (by decide)
    · exact absurd (List.cons.inj hwhole).1 (by decide)

/-- The rest of a host and what stands behind it name no issue. -/
theorem not_names_host {behind owner name number other : Text} (hbehind : '/' ∉ behind)
    (howner : isOwner owner = true) : ¬ Names (behind ++ '/' :: afterHost owner name number) other := by
  intro h
  obtain ⟨first, more, hfirst⟩ := List.exists_cons_of_ne_nil (ne_nil_of_isOwner howner)
  have hslash : '/' ∈ afterHost owner name number :=
    List.mem_append_right _ List.mem_cons_self
  generalize hwhole : behind ++ '/' :: afterHost owner name number = whole at h
  cases h with
  | @number number' hnumber =>
    have hmem : '/' ∈ '#' :: number' := hwhole ▸ List.mem_append_right _ List.mem_cons_self
    exact not_mem_isNumber hnumber (by simp) ((List.mem_cons.mp hmem).resolve_left (by decide))
  | @short owner' name' number' howner' hname' hnumber' =>
    obtain ⟨-, hrest⟩ := cut_inj hbehind (not_mem_isOwner howner' (by simp)) hwhole
    rw [hrest] at hslash
    simp [not_mem_isName hname', not_mem_isNumber hnumber'] at hslash
  | @url scheme host owner' name' number' hscheme =>
    have hcut : ∃ start, '/' ∉ start ∧ scheme = start ++ ['/', '/'] := by
      rcases hscheme with rfl | rfl
      · exact ⟨"https:".toList, by decide, rfl⟩
      · exact ⟨"http:".toList, by decide, rfl⟩
    obtain ⟨start, hstart, rfl⟩ := hcut
    rw [List.append_assoc] at hwhole
    obtain ⟨-, hrest⟩ := cut_inj hbehind hstart hwhole
    rw [afterHost, hfirst] at hrest
    obtain ⟨rfl, -⟩ := List.cons.inj hrest
    exact not_mem_isOwner howner (by simp) (hfirst ▸ List.mem_cons_self)

/-- What stands behind a colon in a token that names an issue is no such token. -/
theorem not_names_after_colon {start whole other : Text} (hwhole : whole = start ++ ':' :: token)
    (hnames : Names whole reference) : ¬ Names token other := by
  have hcolon : ':' ∈ whole := hwhole ▸ List.mem_append_right _ List.mem_cons_self
  cases hnames with
  | @number number hnumber =>
    exact absurd ((List.mem_cons.mp hcolon).resolve_left (by decide))
      (not_mem_isNumber hnumber (by simp))
  | @short owner name number howner hname hnumber =>
    simp [shortForm, not_mem_isOwner howner, not_mem_isName hname, not_mem_isNumber hnumber]
      at hcolon
  | @url scheme host owner name number hscheme hhost howner hname hnumber =>
    rw [intercalate_eq] at hwhole
    have hbehind := colon_not_mem_afterHost howner hname hnumber
    -- In the host, or right behind the scheme, the host goes on behind the colon.
    have hinside : ∀ before, host ++ '/' :: afterHost owner name number = before ++ ':' :: token →
        ¬ Names token other := by
      intro before hrest
      rcases List.append_eq_append_iff.mp hrest with ⟨middle, -, hmiddle⟩ | ⟨middle, hhead, hmiddle⟩
      · have hmem : ':' ∈ '/' :: afterHost owner name number :=
          hmiddle ▸ List.mem_append_right _ List.mem_cons_self
        exact absurd ((List.mem_cons.mp hmem).resolve_left (by decide)) hbehind
      · cases middle with
        | nil => exact absurd (List.cons.inj hmiddle).1 (by decide)
        | cons c behind =>
          obtain ⟨-, rfl⟩ := List.cons.inj hmiddle
          refine not_names_host (fun hmem => hhost ?_) howner
          rw [hhead]
          exact List.mem_append_right _ (List.mem_cons_of_mem _ hmem)
    rcases List.append_eq_append_iff.mp hwhole with ⟨middle, -, hrest⟩ | ⟨middle, hhead, hrest⟩
    · exact hinside middle hrest
    · cases middle with
      | nil => exact hinside [] hrest.symm
      | cons c behind =>
        obtain ⟨rfl, rfl⟩ := List.cons.inj hrest
        -- It is the scheme's own.
        have honce : scheme.count ':' = 1 := by
          rcases hscheme with rfl | rfl <;> decide
        have hstart : ':' ∉ start := by
          rw [hhead, List.count_append, List.count_cons_self] at honce
          exact List.count_eq_zero.mp (by omega)
        have hslashes : behind = ['/', '/'] := by
          rcases hscheme with rfl | rfl
          · have hform : "https://".toList = "https".toList ++ ':' :: ['/', '/'] := rfl
            exact (cut_inj (by decide) hstart (hform.symm.trans hhead)).2.symm
          · have hform : "http://".toList = "http".toList ++ ':' :: ['/', '/'] := rfl
            exact (cut_inj (by decide) hstart (hform.symm.trans hhead)).2.symm
        rw [hslashes]
        exact not_names_slash _ _

theorem closingAt_inside {start behind : Text} (hnames : Names token reference)
    (hfree : ∀ c ∈ token, isTerminator c = false) (hends : Ends tail)
    (hsplit : token = start ++ behind) (hne : behind ≠ []) :
    closingAt unicode before (behind ++ tail) = none := by
  rw [Option.eq_none_iff_forall_ne_some]
  rintro ⟨closing, used⟩ hat
  obtain ⟨-, word, gap, other, rest, hrest, hkeyword, ⟨hgap, mark, spaces, rfl, hmark, hspaces⟩,
    hother, hotherFree, hotherEnds, -, -⟩ := closingAt_eq_some_iff.mp hat
  obtain ⟨digit, hdigit, hisDigit⟩ := hnames.getLast
  have hlast : behind.getLast? = some digit := by
    rw [hsplit, List.getLast?_append_of_ne_nil _ hne] at hdigit
    exact hdigit
  -- The word ends inside the token, for the token's last character is a digit.
  have hdigitWord : digit ∉ word := by
    intro hmem
    have hletter := isAlpha_of_keyword hkeyword hmem
    rw [isAlpha_eq_false_of_isDigit hisDigit] at hletter
    cases hletter
  have hword : ∃ left, behind = word ++ left ∧
      left ++ tail = mark ++ spaces ++ (other ++ rest) := by
    rcases List.append_eq_append_iff.mp hrest with ⟨left, hword, -⟩ | ⟨left, hbehind, hleft⟩
    · exact absurd (hword ▸ List.mem_append_left _ (List.mem_of_getLast? hlast)) hdigitWord
    · exact ⟨left, hbehind, hleft.symm⟩
  obtain ⟨left, rfl, hleft⟩ := hword
  have hleftNe : left ≠ [] := by
    rintro rfl
    rw [List.append_nil] at hlast
    exact hdigitWord (List.mem_of_getLast? hlast)
  rw [List.getLast?_append_of_ne_nil _ hleftNe] at hlast
  have hleftFree : ∀ c ∈ left, isTerminator c = false := fun c hc =>
    hfree c (hsplit ▸ List.mem_append_right _ (List.mem_append_right _ hc))
  obtain ⟨first, more, rfl⟩ := List.exists_cons_of_ne_nil hleftNe
  have hnotSpace : ∀ c ∈ first :: more, c ∉ spaces := fun c hc hmem => by
    have hterminator := isTerminator_of_isWhitespace (hspaces c hmem)
    rw [hleftFree c hc] at hterminator
    cases hterminator
  -- So a colon follows it at once, and the other token that.
  rcases hmark with rfl | rfl
  · obtain ⟨c, others, rfl⟩ := List.exists_cons_of_ne_nil hgap
    obtain ⟨rfl, -⟩ := List.cons.inj hleft
    exact hnotSpace first List.mem_cons_self List.mem_cons_self
  · obtain ⟨rfl, hmore⟩ := List.cons.inj hleft
    have hmoreNe : more ≠ [] := by
      rintro rfl
      obtain rfl := Option.some.inj hlast
      exact absurd hisDigit (by decide)
    obtain ⟨second, others, rfl⟩ := List.exists_cons_of_ne_nil hmoreNe
    have hspaces : spaces = [] := by
      cases spaces with
      | nil => rfl
      | cons space spaces =>
        obtain ⟨rfl, -⟩ := List.cons.inj hmore
        exact absurd List.mem_cons_self
          (hnotSpace second (List.mem_cons_of_mem _ List.mem_cons_self))
    subst hspaces
    have hsame : second :: others = other := by
      have hlast' : ∃ digit, (second :: others).getLast? = some digit ∧ digit.isDigit = true :=
        ⟨digit, by rwa [List.getLast?_cons_cons] at hlast, hisDigit⟩
      have hrest : second :: others ++ tail = other ++ rest := hmore
      rw [← tokenOf_append (fun c hc => hleftFree c (List.mem_cons_of_mem _ hc)) hlast' hends, hrest]
      exact tokenOf_append hotherFree hother.getLast hotherEnds
    subst hsame
    have hwhole : token = (start ++ word) ++ ':' :: (second :: others) := by
      rw [hsplit, List.append_assoc]
    exact not_names_after_colon hwhole hnames hother

/-- The references that a keyword precedes, from every place of what is left of a line. -/
def occurrences (unicode : Unicode) (before : Option Char) : Text → List Closing
  | [] => []
  | c :: rest =>
    ((closingAt unicode before (c :: rest)).map Prod.fst).toList ++
      occurrences unicode (some c) rest

theorem getLast?_cons_or (c : Char) (start : Text) (before : Option Char) :
    (c :: start).getLast?.or before = start.getLast?.or (some c) := by
  rw [List.getLast?_cons, Option.some_or]
  cases start.getLast? <;> rfl

theorem mem_occurrences_iff : closing ∈ occurrences unicode before line ↔
    ∃ start rest used, line = start ++ rest ∧
      closingAt unicode (start.getLast?.or before) rest = some (closing, used) := by
  have hnil : ∀ {before : Option Char}, closingAt unicode before [] = none := by
    intro before
    rw [Option.eq_none_iff_forall_ne_some]
    rintro ⟨closing, used⟩ hat
    obtain ⟨-, word, gap, token, tail, hrest, hkeyword, -⟩ := closingAt_eq_some_iff.mp hat
    exact keyword_ne_nil hkeyword (List.append_eq_nil_iff.mp hrest.symm).1
  induction line generalizing before with
  | nil =>
    refine iff_of_false List.not_mem_nil ?_
    rintro ⟨start, rest, used, hline, hat⟩
    obtain ⟨rfl, rfl⟩ := List.append_eq_nil_iff.mp hline.symm
    rw [hnil] at hat
    cases hat
  | cons c line ih =>
    rw [occurrences, List.mem_append]
    refine (or_congr Iff.rfl ih).trans ?_
    constructor
    · rintro (hhere | ⟨start, rest, used, rfl, hat⟩)
      · rw [Option.mem_toList, Option.map_eq_some_iff] at hhere
        obtain ⟨⟨_, used⟩, hat, rfl⟩ := hhere
        exact ⟨[], c :: line, used, rfl, hat⟩
      · refine ⟨c :: start, rest, used, rfl, ?_⟩
        rwa [getLast?_cons_or]
    · rintro ⟨start, rest, used, hline, hat⟩
      cases start with
      | nil =>
        obtain rfl : c :: line = rest := hline
        have hhere : closingAt unicode before (c :: line) = some (closing, used) := hat
        exact .inl (by rw [hhere]; exact List.mem_singleton_self closing)
      | cons d start =>
        obtain ⟨rfl, rfl⟩ := List.cons.inj hline
        rw [getLast?_cons_or] at hat
        exact .inr ⟨start, rest, used, rfl, hat⟩

theorem occurrences_skip {stretch : Text}
    (h : ∀ start behind, stretch = start ++ behind → behind ≠ [] →
      closingAt unicode (start.getLast?.or before) (behind ++ tail) = none) :
    occurrences unicode before (stretch ++ tail) =
      occurrences unicode (stretch.getLast?.or before) tail := by
  induction stretch generalizing before with
  | nil => rfl
  | cons c stretch ih =>
    have hhere : closingAt unicode before (c :: (stretch ++ tail)) = none :=
      h [] (c :: stretch) rfl (List.cons_ne_nil _ _)
    rw [List.cons_append, occurrences, hhere, Option.map_none, Option.toList_none,
      List.nil_append, ih, getLast?_cons_or]
    intro start behind hsplit hne
    have hnext := h (c :: start) behind (by rw [hsplit, List.cons_append]) hne
    rwa [getLast?_cons_or] at hnext

theorem occurrences_taken {stretch : Text} (hword : ∀ c ∈ word, c.isAlpha = true) (hgap : Gap gap)
    (hnames : Names token reference) (hfree : ∀ c ∈ token, isTerminator c = false)
    (hends : Ends tail) (hc : c.isAlpha = true) (hstretch : stretch = word ++ (gap ++ token)) :
    occurrences unicode (some c) (stretch ++ tail) =
      occurrences unicode (stretch.getLast?.or (some c)) tail := by
  refine occurrences_skip fun start behind hsplit hne => ?_
  rw [hstretch] at hsplit
  rcases List.append_eq_append_iff.mp hsplit with ⟨middle, -, hrest⟩ | ⟨middle, hstart, -⟩
  · rcases List.append_eq_append_iff.mp hrest with ⟨inner, -, htoken⟩ | ⟨inner, hgapEq, rfl⟩
    · exact closingAt_inside hnames hfree hends htoken hne
    · cases inner with
      | nil =>
        exact closingAt_inside hnames hfree hends (show token = [] ++ ([] ++ token) from rfl)
          hnames.ne_nil
      | cons d inner =>
        refine closingAt_of_not_letter (hgap.isAlpha_eq_false ?_)
        rw [hgapEq]
        exact List.mem_append_right _ List.mem_cons_self
  · cases hlast : start.getLast? with
    | none => exact closingAt_after_letter hc
    | some d =>
      refine closingAt_after_letter (hword d ?_)
      rw [hstart]
      exact List.mem_append_left _ (List.mem_of_getLast? hlast)

/-- The scanner finds the references that a keyword precedes from every place. -/
theorem inLine_eq (unicode : Unicode) (before : Option Char) (line : Text) :
    inLine unicode before line = occurrences unicode before line := by
  fun_induction inLine unicode before line with
  | case1 => rfl
  | case2 before rest hne closing used hat ih =>
    obtain ⟨-, word, gap, token, tail, rfl, hkeyword, hgap, hnames, hfree, hends, -, rfl⟩ :=
      closingAt_eq_some_iff.mp hat
    have hlength : word.length + (gap.length + token.length) =
        (word ++ (gap ++ token)).length := by
      rw [List.length_append, List.length_append]
    have hassoc : word ++ (gap ++ (token ++ tail)) = word ++ (gap ++ token) ++ tail := by
      rw [List.append_assoc, List.append_assoc]
    rw [ih, hlength, hassoc, List.take_left, List.drop_left]
    rw [hlength, hassoc] at hat
    obtain ⟨first, more, rfl⟩ := List.exists_cons_of_ne_nil (keyword_ne_nil hkeyword)
    have hletters := fun d (hd : d ∈ first :: more) => isAlpha_of_keyword hkeyword hd
    have htaken : occurrences unicode (some first) (more ++ (gap ++ token) ++ tail) =
        occurrences unicode ((more ++ (gap ++ token)).getLast?.or (some first)) tail :=
      occurrences_taken (fun d hd => hletters d (List.mem_cons_of_mem _ hd)) hgap hnames hfree
        hends (hletters first List.mem_cons_self) rfl
    rw [List.cons_append, List.cons_append] at hat ⊢
    rw [occurrences, hat, Option.map_some, Option.toList_some, List.singleton_append, htaken,
      getLast?_cons_or]
  | case3 before rest hne hat skipped ih =>
    have hskip : occurrences unicode before (rest.take skipped ++ rest.drop skipped) =
        occurrences unicode ((rest.take skipped).getLast?.or before) (rest.drop skipped) := by
      refine occurrences_skip fun start behind hsplit hbehind => ?_
      cases hstart : start.getLast? with
      | none =>
        obtain rfl := List.getLast?_eq_none_iff.mp hstart
        rw [List.nil_append] at hsplit
        rw [← hsplit, List.take_append_drop]
        exact hat
      | some d =>
        -- More than one character is skipped of a word only.
        refine closingAt_after_letter ?_
        have hlong : skipped ≠ 1 := by
          intro hone
          have hlength := congrArg List.length hsplit
          have hlengthStart := List.length_pos_of_mem (List.mem_of_getLast? hstart)
          have hlengthBehind := List.length_pos_iff.mpr hbehind
          rw [List.length_append, List.length_take, hone] at hlength
          omega
        have hword : rest.take skipped = rest.takeWhile Char.isAlpha := by
          have hskipped : skipped = (rest.takeWhile Char.isAlpha).length := by
            by_contra hnot
            refine hlong ?_
            change stride unicode before rest = 1
            change stride unicode before rest ≠ _ at hnot
            simp only [stride] at hnot ⊢
            split at hnot
            · exact absurd rfl hnot
            · next hcond => rw [if_neg hcond]
          rw [hskipped]
          exact (List.prefix_iff_eq_take.mp (List.takeWhile_prefix _)).symm
        rw [hword] at hsplit
        exact List.mem_takeWhile_imp
          (hsplit ▸ List.mem_append_left _ (List.mem_of_getLast? hstart))
    rw [ih, ← hskip, List.take_append_drop]

theorem mem_inLine_iff : closing ∈ inLine unicode none line ↔ Precedes unicode line closing := by
  rw [inLine_eq, mem_occurrences_iff]
  constructor
  · rintro ⟨start, rest, used, rfl, hat⟩
    rw [Option.or_none] at hat
    obtain ⟨hstarts, word, gap, token, tail, rfl, hkeyword, hgap, hnames, hfree, hends, hcapital,
      -⟩ := closingAt_eq_some_iff.mp hat
    exact ⟨start, word, gap, token, tail, rfl, hstarts, hkeyword, hgap, hnames, hfree, hends,
      hcapital⟩
  · rintro ⟨start, word, gap, token, tail, rfl, hstarts, hkeyword, hgap, hnames, hfree, hends,
      hcapital⟩
    refine ⟨start, _, _, rfl, closingAt_eq_some_iff.mpr ⟨?_, word, gap, token, tail, rfl, hkeyword,
      hgap, hnames, hfree, hends, hcapital, rfl⟩⟩
    rwa [Option.or_none]

end Scanning

end Onevcs.Closings
