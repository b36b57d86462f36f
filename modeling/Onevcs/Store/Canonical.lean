import Onevcs.Foundations.Framing
import Onevcs.Foundations.Trimming
import Onevcs.Store.Normalize

/-!
# Whether an identity key spells its own identity

`store::normalize` of the key it gave. A key is read back by the first of the heuristics of
`hosted`, which is for origins that are spelled as one: without a colon, and with a dot in the
host. A key that it does not read is taken for a path, and one with white space at an end is read
without it.
-/

namespace Onevcs.Store

open Rules (Hosted Normalized)

/-! ## Keys -/

def keyOf (host owner name : List Char) : List Char := host ++ '/' :: (owner ++ '/' :: name)

def identityOf (host owner name : List Char) : Normalized :=
  ⟨.ofList (keyOf host owner name), some ⟨.ofList host, .ofList owner, .ofList name⟩⟩

structure Parts (host owner name : List Char) : Prop where
  host_ne : host ≠ []
  owner_ne : owner ≠ []
  name_ne : name ≠ []
  colon : ':' ∉ host
  host_slash : '/' ∉ host
  owner_slash : '/' ∉ owner
  name_slash : '/' ∉ name

/-- An origin that `hosted` takes for a key. -/
@[grind] def spelledAsKey (origin : List Char) : Bool :=
  !("://".toList <:+: origin : Bool) && !origin.contains ':' && origin.head? != some '/'

/-- What is left of an origin once the way to reach it, the slashes it ends in and its `.git` are
taken off: the host with its port, and the path. -/
def location (origin : List Char) : List Char :=
  let rest := (afterScheme origin).getD []
  trimGit ((((splitOnce '@' rest).map Prod.snd).getD rest).rdropWhile (· == '/'))

/-- An origin whose key is read back: one that is spelled as a key, or one where the host has a dot
in it, nothing after it has a colon, and neither end is white space. -/
def Canonical (origin : List Char) : Prop :=
  spelledAsKey origin = true ∨
    ('.' ∈ (location origin).takeWhile (fun c => c != ':' && c != '/') ∧
      ':' ∉ (location origin).dropWhile (· != '/') ∧
      (location origin).head?.any isWhitespace = false ∧
      (location origin).getLast?.any isWhitespace = false)

instance (origin : List Char) : Decidable (Canonical origin) :=
  inferInstanceAs (Decidable (_ ∨ _))

section Reading

variable {host owner name authority rest text origin : List Char} {parts : Normalized}

theorem takeWhile_ne_append {c : Char} (h : c ∉ text) :
    (text ++ rest).takeWhile (· != c) = text ++ rest.takeWhile (· != c) :=
  List.takeWhile_append_of_pos fun _ hd => bne_iff_ne.mpr fun heq => h (heq ▸ hd)

theorem splitOn_slash_iff :
    text.splitOn '/' = [host, owner, name] ↔
      text = keyOf host owner name ∧ '/' ∉ host ∧ '/' ∉ owner ∧ '/' ∉ name := by
  have hkey : keyOf host owner name = List.intercalate ['/'] [host, owner, name] := by
    simp [keyOf, List.intercalate]
  constructor
  · intro h
    have htext : List.intercalate ['/'] (text.splitOn '/') = text := List.intercalate_splitOn '/'
    rw [h] at htext
    have hslash : ∀ piece ∈ text.splitOn '/', '/' ∉ piece := by
      intro piece hpiece hmem
      rw [List.splitOn_eq_splitOnP] at hpiece
      simpa using Foundations.free_of_mem_splitOnP hpiece hmem
    rw [h] at hslash
    exact ⟨by rw [hkey, htext], hslash host (by simp), hslash owner (by simp),
      hslash name (by simp)⟩
  · rintro ⟨rfl, hhost, howner, hname⟩
    rw [hkey]
    exact List.splitOn_intercalate '/' (by simp [hhost, howner, hname]) (by simp)

theorem trimGitReversed_append (text rest : List Char) :
    trimGitReversed (text ++ '/' :: rest) = trimGitReversed text ++ '/' :: rest := by
  fun_induction trimGitReversed text with
  | case1 text ih => exact ih
  | case2 text hnot =>
    -- a slash is no part of what is taken off, so none of it is taken off later either
    unfold trimGitReversed
    split
    · next tail heq =>
      match text, heq with
      | [], heq => cases heq
      | [_], heq => simp at heq
      | [_, _], heq => simp at heq
      | [_, _, _], heq => simp at heq
      | _ :: _ :: _ :: _ :: tail, heq =>
        simp only [List.cons_append, List.cons.injEq] at heq
        obtain ⟨rfl, rfl, rfl, rfl, -⟩ := heq
        exact absurd rfl (hnot tail)
    · rfl

theorem trimGit_keyOf : trimGit (keyOf host owner name) = keyOf host owner (trimGit name) := by
  have hreverse : (keyOf host owner name).reverse =
      name.reverse ++ '/' :: (owner.reverse ++ '/' :: host.reverse) := by simp [keyOf]
  rw [trimGit, hreverse, trimGitReversed_append]
  simp [keyOf, trimGit]

theorem trimGitReversed_subset (text : List Char) : trimGitReversed text ⊆ text := by
  fun_induction trimGitReversed text with
  | case1 text ih => exact fun c hc => by simp [ih hc]
  | case2 text _ => exact fun c hc => hc

theorem trimGit_subset : trimGit text ⊆ text := by
  intro c hc
  rw [trimGit, List.mem_reverse] at hc
  exact List.mem_reverse.mp (trimGitReversed_subset _ hc)

/-- What starts with a host and a slash says no way to reach it. -/
theorem afterScheme_of_slash (hcolon : ':' ∉ authority) (hslash : '/' ∉ authority) :
    afterScheme (authority ++ '/' :: rest) = none := by
  have htake : (authority ++ '/' :: rest).takeWhile (· != '/') = authority := by
    rw [takeWhile_ne_append hslash]
    simp
  have hscheme : ∀ scheme : List Char, ':' ∈ scheme.takeWhile (· != '/') → '/' ∈ scheme →
      stripPrefix scheme (authority ++ '/' :: rest) = none := by
    intro scheme hin hmem
    rw [stripPrefix, if_neg]
    intro hprefix
    obtain ⟨tail, htail⟩ := List.isPrefixOf_iff_prefix.mp hprefix
    apply hcolon
    rw [← htake, ← htail, List.takeWhile_append]
    split
    · exact List.mem_append_left _ (List.takeWhile_subset _ hin)
    · exact hin
  have hsplit : ∀ before after,
      splitOnce ':' (authority ++ '/' :: rest) = some (before, after) →
        before.contains '/' = true := by
    intro before after h
    rw [splitOnce] at h
    split at h
    · obtain ⟨rfl, -⟩ := Prod.mk.inj (Option.some.inj h)
      rw [takeWhile_ne_append hcolon]
      simp
    · cases h
  unfold afterScheme
  rw [hscheme _ (by decide) (by decide), hscheme _ (by decide) (by decide),
    hscheme _ (by decide) (by decide)]
  simp only [Option.none_or]
  cases hsplits : splitOnce ':' (authority ++ '/' :: rest) with
  | none => rfl
  | some cut =>
    simp only [hsplit cut.1 cut.2 hsplits, Bool.true_or, if_true]

theorem hosted_of_spelledAsKey (h : spelledAsKey origin = true)
    (hhosted : hosted origin = some parts) :
    ∃ host owner name, Parts host owner name ∧ '.' ∈ host ∧ origin = keyOf host owner name ∧
      parts = identityOf host owner name := by
  have hcolon : ':' ∉ origin := by
    intro hmem
    simp [spelledAsKey, hmem] at h
  unfold hosted at hhosted
  rw [if_pos (by simpa [spelledAsKey] using h)] at hhosted
  split at hhosted
  · next host owner name hsplit =>
    split at hhosted
    · next hparts =>
      obtain rfl := Option.some.inj hhosted
      obtain ⟨rfl, hhost, howner, hname⟩ := splitOn_slash_iff.mp hsplit
      simp only [Bool.and_eq_true, List.contains_iff_mem, Bool.not_eq_true',
        List.isEmpty_eq_false_iff] at hparts
      obtain ⟨⟨hdot, howner_ne⟩, hname_ne⟩ := hparts
      have hfree : ':' ∉ host := fun hmem => hcolon (List.mem_append_left _ hmem)
      exact ⟨host, owner, name, ⟨List.ne_nil_of_mem hdot, howner_ne, hname_ne, hfree,
        hhost, howner, hname⟩, hdot, rfl, rfl⟩
    · cases hhosted
  · cases hhosted

theorem hosted_of_address (h : spelledAsKey origin = false) (hhosted : hosted origin = some parts) :
    ∃ authority owner name, Parts (authority.takeWhile (· != ':')) owner name ∧
      '/' ∉ authority ∧ location origin = keyOf authority owner name ∧
      parts = identityOf (authority.takeWhile (· != ':')) owner name := by
  unfold hosted at hhosted
  rw [if_neg (by simpa [spelledAsKey] using h)] at hhosted
  obtain ⟨rest, hrest, hhosted⟩ := Option.bind_eq_some_iff.mp hhosted
  dsimp only at hhosted
  split at hhosted
  · next authority owner name hsplit =>
    split at hhosted
    · cases hhosted
    · next hparts =>
      obtain rfl := Option.some.inj hhosted
      obtain ⟨heq, hauthority, howner, hname⟩ := splitOn_slash_iff.mp hsplit
      simp only [Bool.or_eq_true, List.isEmpty_iff, not_or] at hparts
      obtain ⟨⟨hhost_ne, howner_ne⟩, hname_ne⟩ := hparts
      refine ⟨authority, owner, trimGit name,
        ⟨hhost_ne, howner_ne, hname_ne, ?_, ?_, howner, ?_⟩, hauthority, ?_, ?_⟩
      · intro hmem
        simpa using List.mem_takeWhile_imp hmem
      · exact fun hmem => hauthority (List.takeWhile_subset _ hmem)
      · exact fun hmem => hname (trimGit_subset hmem)
      · rw [location, hrest, Option.getD_some, heq, trimGit_keyOf]
      · simp [identityOf, keyOf]
  · cases hhosted

theorem hosted_of_slash (hcolon : ':' ∉ authority) (hslash : '/' ∉ authority)
    (h : hosted (authority ++ '/' :: rest) = some parts) :
    spelledAsKey (authority ++ '/' :: rest) = true ∧
      parts.key = .ofList (authority ++ '/' :: rest) := by
  cases hspelled : spelledAsKey (authority ++ '/' :: rest) with
  | true =>
    obtain ⟨host, owner, name, -, -, heq, rfl⟩ := hosted_of_spelledAsKey hspelled h
    exact ⟨rfl, by rw [heq]; rfl⟩
  | false =>
    unfold hosted at h
    rw [if_neg (by simpa [spelledAsKey] using hspelled),
      afterScheme_of_slash hcolon hslash] at h
    cases h

theorem spelledAsKey_keyOf (h : Parts host owner name) :
    spelledAsKey (keyOf host owner name) = true ↔ ':' ∉ owner ∧ ':' ∉ name := by
  have hhead : (keyOf host owner name).head? ≠ some '/' := by
    intro heq
    cases host with
    | nil => exact h.host_ne rfl
    | cons c host =>
      obtain rfl := Option.some.inj heq
      exact h.host_slash List.mem_cons_self
  have hmem : ':' ∈ keyOf host owner name ↔ ':' ∈ owner ∨ ':' ∈ name := by
    simp [keyOf, h.colon]
  constructor
  · intro hspelled
    rw [← not_or, ← hmem]
    intro hcolon
    simp [spelledAsKey, hcolon] at hspelled
  · intro hcolons
    rw [← not_or, ← hmem] at hcolons
    have hinfix : ¬ [':', '/', '/'] <:+: keyOf host owner name := fun hin =>
      hcolons (hin.subset (by decide))
    simp [spelledAsKey, hcolons, hhead, hinfix]

theorem hosted_keyOf (h : Parts host owner name) :
    hosted (keyOf host owner name) = some (identityOf host owner name) ↔
      '.' ∈ host ∧ ':' ∉ owner ∧ ':' ∉ name := by
  constructor
  · intro hhosted
    have hspelled := (hosted_of_slash h.colon h.host_slash hhosted).1
    refine ⟨?_, (spelledAsKey_keyOf h).mp hspelled⟩
    obtain ⟨host', owner', name', -, hdot, -, heq⟩ := hosted_of_spelledAsKey hspelled hhosted
    simp only [identityOf, Rules.Normalized.mk.injEq, Option.some.injEq, Rules.Hosted.mk.injEq,
      String.ofList_inj] at heq
    exact heq.2.1 ▸ hdot
  · rintro ⟨hdot, hcolons⟩
    have hspelled := (spelledAsKey_keyOf h).mpr hcolons
    have hsplit := splitOn_slash_iff.mpr ⟨rfl, h.host_slash, h.owner_slash, h.name_slash⟩
    unfold hosted
    rw [if_pos (by simpa [spelledAsKey] using hspelled), hsplit]
    simp [hdot, h.owner_ne, h.name_ne, identityOf]

end Reading

section Trimming

variable {host owner name authority rest text : List Char}

theorem dropWhile_append_cons {p : Char → Bool} {c : Char} (hc : p c = false) :
    (text ++ c :: rest).dropWhile p = text.dropWhile p ++ c :: rest := by
  induction text with
  | nil => simp [hc]
  | cons d text ih =>
    rw [List.cons_append, List.dropWhile_cons, List.dropWhile_cons]
    split
    · exact ih
    · rfl

theorem trim_slash :
    trim (authority ++ '/' :: rest) =
      authority.dropWhile isWhitespace ++ '/' :: rest.rdropWhile isWhitespace := by
  have hslash : isWhitespace '/' = false := by decide
  rw [trim, dropWhile_append_cons hslash, List.rdropWhile]
  simp only [List.reverse_append, List.reverse_cons, List.append_assoc, List.singleton_append]
  rw [dropWhile_append_cons hslash]
  simp [List.rdropWhile]

theorem trim_eq_self_iff :
    trim text = text ↔
      text.head?.any isWhitespace = false ∧ text.getLast?.any isWhitespace = false := by
  have hany : ∀ end_ : Option Char,
      (∀ c ∈ end_, isWhitespace c = false) ↔ end_.any isWhitespace = false := by
    intro end_
    cases end_ <;> simp
  rw [← hany, ← hany]
  exact Foundations.trimMatches_eq_self_iff.trans
    ⟨fun h => ⟨h.head, h.last⟩, fun ⟨hhead, hlast⟩ => ⟨hhead, hlast⟩⟩

theorem trim_trim : trim (trim text) = trim text :=
  Foundations.trimMatches_self (Foundations.bare_trimMatches isWhitespace text)

end Trimming

section Normalizing

variable {canonicalize : String → Option String} {host owner name authority text : List Char}
variable {origin : String} {parts : Normalized}

theorem takeWhile_keyOf (hslash : '/' ∉ authority) :
    (keyOf authority owner name).takeWhile (fun c => c != ':' && c != '/') =
      authority.takeWhile (· != ':') := by
  unfold keyOf
  induction authority with
  | nil => simp
  | cons c authority ih =>
    rw [List.mem_cons, not_or] at hslash
    rw [List.cons_append, List.takeWhile_cons, List.takeWhile_cons]
    by_cases hcolon : c = ':'
    · simp [hcolon]
    · have hc : c ≠ '/' := Ne.symm hslash.1
      rw [if_pos (by simp [hcolon, hc]), if_pos (by simpa using hcolon), ih hslash.2]

theorem dropWhile_keyOf (hslash : '/' ∉ authority) :
    (keyOf authority owner name).dropWhile (· != '/') = '/' :: (owner ++ '/' :: name) := by
  unfold keyOf
  rw [dropWhile_append_cons (by decide), List.dropWhile_eq_nil_iff.mpr, List.nil_append]
  exact fun c hc => bne_iff_ne.mpr fun heq => hslash (heq ▸ hc)

theorem head?_takeWhile {p : Char → Bool} {text : List Char} (h : text.takeWhile p ≠ []) :
    (text.takeWhile p).head? = text.head? := by
  cases text with
  | nil => exact absurd rfl h
  | cons c text =>
    rw [List.takeWhile_cons] at h ⊢
    split at h
    · next hc => rw [if_pos hc, List.head?_cons, List.head?_cons]
    · exact absurd rfl h

/-- Whether the key of an origin that is no key itself is read back, by what the key is. -/
theorem canonical_iff (hspelled : spelledAsKey text = false)
    (hslash : '/' ∉ authority) (hlocation : location text = keyOf authority owner name)
    (h : Parts (authority.takeWhile (· != ':')) owner name) :
    Canonical text ↔ ('.' ∈ authority.takeWhile (· != ':') ∧ ':' ∉ owner ∧ ':' ∉ name) ∧
      trim (keyOf (authority.takeWhile (· != ':')) owner name) =
        keyOf (authority.takeWhile (· != ':')) owner name := by
  have hhead : (keyOf (authority.takeWhile (· != ':')) owner name).head? =
      (keyOf authority owner name).head? := by
    have hne : authority ≠ [] := by
      rintro rfl
      exact h.host_ne rfl
    rw [keyOf, keyOf, List.head?_append_of_ne_nil _ h.host_ne, List.head?_append_of_ne_nil _ hne,
      head?_takeWhile h.host_ne]
  have hlast : (keyOf (authority.takeWhile (· != ':')) owner name).getLast? =
      (keyOf authority owner name).getLast? := by
    simp [keyOf, List.getLast?_append, List.getLast?_cons]
  have hcolon : ':' ∉ '/' :: (owner ++ '/' :: name) ↔ ':' ∉ owner ∧ ':' ∉ name := by
    simp
  rw [Canonical, hspelled, hlocation, takeWhile_keyOf hslash, dropWhile_keyOf hslash, hcolon,
    trim_eq_self_iff, hhead, hlast]
  simp only [Bool.false_eq_true, false_or, and_assoc]

theorem normalize_of_hosted (h : hosted (trim origin.toList) = some parts) :
    normalize canonicalize origin = parts := by
  simp only [normalize, h]

theorem hosted_of_normalize (h : (normalize canonicalize origin).hosted.isSome = true) :
    hosted (trim origin.toList) = some (normalize canonicalize origin) := by
  cases hhosted : hosted (trim origin.toList) with
  | none =>
    rw [normalize, hhosted] at h
    cases h
  | some parts => rw [normalize_of_hosted hhosted]

theorem normalize_keyOf (h : Parts host owner name) :
    normalize canonicalize (identityOf host owner name).key = identityOf host owner name ↔
      ('.' ∈ host ∧ ':' ∉ owner ∧ ':' ∉ name) ∧ trim (keyOf host owner name) =
        keyOf host owner name := by
  have hkey : (identityOf host owner name).key.toList = keyOf host owner name :=
    String.toList_ofList
  constructor
  · intro hnormalize
    have hhosted := hosted_of_normalize ((congrArg (·.hosted.isSome) hnormalize).trans rfl)
    rw [hnormalize, hkey] at hhosted
    have htrim : trim (keyOf host owner name) = keyOf host owner name := by
      have hslash : trim (keyOf host owner name) = _ := trim_slash
      rw [hslash] at hhosted ⊢
      have hread := (hosted_of_slash
        (fun hmem => h.colon ((List.dropWhile_subset _) hmem))
        (fun hmem => h.host_slash ((List.dropWhile_subset _) hmem)) hhosted).2
      exact (String.ofList_injective hread).symm
    rw [htrim] at hhosted
    exact ⟨(hosted_keyOf h).mp hhosted, htrim⟩
  · rintro ⟨hparts, htrim⟩
    apply normalize_of_hosted
    rw [hkey, htrim]
    exact (hosted_keyOf h).mpr hparts

/-- For every origin of a hosted identity: the key spells that identity exactly where the origin
is spelled as a key itself, or its host has a dot, nothing after its host and port has a colon,
and what it spells has no white space at an end. -/
theorem normalize_key_iff (h : (normalize canonicalize origin).hosted.isSome = true) :
    normalize canonicalize (normalize canonicalize origin).key = normalize canonicalize origin ↔
      Canonical (trim origin.toList) := by
  have hhosted := hosted_of_normalize h
  generalize normalize canonicalize origin = parts at hhosted ⊢
  cases hspelled : spelledAsKey (trim origin.toList) with
  | true =>
    obtain ⟨host, owner, name, hparts, hdot, heq, rfl⟩ :=
      hosted_of_spelledAsKey hspelled hhosted
    rw [normalize_keyOf hparts]
    refine ⟨fun _ => .inl hspelled, fun _ => ⟨⟨hdot, ?_⟩, ?_⟩⟩
    · rw [← spelledAsKey_keyOf hparts, ← heq]
      exact hspelled
    · rw [← heq, trim_trim]
  | false =>
    obtain ⟨authority, owner, name, hparts, hslash, heq, rfl⟩ :=
      hosted_of_address hspelled hhosted
    rw [normalize_keyOf hparts, canonical_iff hspelled hslash heq hparts]

def noFile : String → Option String := fun _ => none

/-- A host with a dot has a key that spells its identity. -/
theorem dotted_kept :
    Canonical (trim "git@h.io:o/n.git".toList) ∧
      normalize noFile (normalize noFile "git@h.io:o/n.git").key =
        normalize noFile "git@h.io:o/n.git" :=
  ⟨by decide +kernel, (normalize_key_iff (by decide +kernel)).mpr (by decide +kernel)⟩

/-- A host without a dot has a key that is read as a path. -/
theorem undotted_lost :
    normalize noFile "git@gitserver:owner/name" =
        ⟨"gitserver/owner/name", some ⟨"gitserver", "owner", "name"⟩⟩ ∧
      normalize noFile "gitserver/owner/name" = ⟨"gitserver/owner/name", none⟩ ∧
      normalize noFile (normalize noFile "git@gitserver:owner/name").key ≠
        normalize noFile "git@gitserver:owner/name" :=
  ⟨by decide +kernel, by decide +kernel, by decide +kernel⟩

end Normalizing

end Onevcs.Store
