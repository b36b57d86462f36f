import Mathlib.Data.List.Forall2
import Mathlib.Data.Set.Function
import Onevcs.Foundations.Memo
import Onevcs.Foundations.Transition
import Onevcs.GitReads.Spelling
import Onevcs.Recovery.ObjectStores

/-!
# Answers stored over object stores that grow

`Query::read` and `Query::write` of `recovery_cache.rs`, with `covers`, `listing` and `list_stores`:
an answer git gave is stored under the key of its query with the generation of every store it was
read from, and is reused where each of those stores still has everything it listed then.

The files are replaced as a whole, by any number of processes; a read of one finds some file that was
put in its place at some time, or none. Files of an earlier build, and damaged ones, are among them.
What a process finds of a store it keeps until it clears its caches, as it keeps what it found of the
generations it compared.
-/

namespace Onevcs.Recovery.StoredAnswers

open Foundations (Text Memo System lines)
open GitReads (isObjectId)

def VERSION : ℕ := 6

/-! ## The files -/

inductive Answer
  | success (stdout : Text)
  | different
  | conflict (stdout : Text)

structure Generation where
  store : Text
  generation : Text

structure Entry where
  version : ℕ
  key : Text
  answer : Answer
  stores : List Generation
  checksum : Text

/-- `Listing`. -/
structure ListingFile where
  version : ℕ
  store : Text
  generation : Text
  held : List Text

/-- How answers and generations are written as JSON. -/
structure Written where
  answer : Answer → Text
  stores : List Generation → Text

/-- The answers of `covers` that a process keeps: `COVERED`. -/
abbrev Covered := Memo (Text × Text) Bool

section Reading

variable (digest : Text → Text) (json : Written)

def checksum (key : Text) (answer : Answer) (stores : List Generation) : Text :=
  digest (Nat.toDigits 10 VERSION ++ '\x00' :: (key ++ '\x00' :: (json.answer answer ++
    '\x00' :: json.stores stores)))

/-- An entry of this build, that is whole. -/
def whole (entry : Entry) : Bool :=
  entry.version == VERSION &&
    entry.checksum == StoredAnswers.checksum digest json entry.key entry.answer entry.stores

/-- `listing`, of the file that is found. -/
def listing (store : Text) (file : Option ListingFile) : Option ListingFile :=
  file.filter fun listing => listing.version == VERSION && listing.store == store &&
    generationOf digest listing.held == listing.generation

/-- `covers`: whether a store still holds everything it held at a generation. -/
def covers (found : Found digest) (generation : Text) (file : Option ListingFile)
    (covered : Covered) : Bool × Covered :=
  match covered (found.path, generation) with
  | some known => (known, covered)
  | none =>
    let answer := ((listing digest found.path file).filter fun listing =>
      listing.generation == generation).any fun listing =>
        listing.held.all fun line => line ∈ found.store.held
    (answer, covered.insert (found.path, generation) answer)

/-- Every store is the one recorded, at its generation or grown since. -/
def coversAll (files : Text → Option ListingFile) :
    List (Generation × Found digest) → Covered → Bool × Covered
  | [], covered => (true, covered)
  | (recorded, found) :: rest, covered =>
    if recorded.store ≠ found.path then (false, covered)
    else if recorded.generation = found.store.generation then coversAll files rest covered
    else
      match covers digest found recorded.generation (files found.path) covered with
      | (true, covered) => coversAll files rest covered
      | (false, covered) => (false, covered)

def validTree (query : Query digest) (stdout : Text) : Bool :=
  (lines stdout).head?.any fun tree => tree.length == query.objectLength && isObjectId tree

/-- The status and the output of a stored answer, where the query has one of its kind. -/
def reported (query : Query digest) : Answer → Option (ℤ × Text)
  | .success stdout => some (0, stdout)
  | .different => if query.kind = .difference then some (1, []) else none
  | .conflict stdout => if query.kind = .merge then some (1, stdout) else none

/-- `read`, of the entry and the listings that are found, where the objects the query names are
present or are not. -/
def read (query : Query digest) (entry : Option Entry) (files : Text → Option ListingFile)
    (present : Bool) (covered : Covered) : Option Output × Covered :=
  match entry with
  | none => (none, covered)
  | some entry =>
    if !whole digest json entry || entry.key ≠ query.key ||
        entry.stores.length ≠ query.stores.length then (none, covered)
    else
      match coversAll digest files (entry.stores.zip query.stores) covered with
      | (false, covered) => (none, covered)
      | (true, covered) =>
        if !present then (none, covered)
        else
          match reported digest query entry.answer with
          | none => (none, covered)
          | some (status, stdout) =>
            if query.kind = .merge && !validTree digest query stdout then (none, covered)
            else (some ⟨status, .code status, stdout, [], []⟩, covered)

/-- The answer that is stored of what git gave, where one is. -/
def answerOf (query : Query digest) (output : Output) : Option Answer :=
  if output.status = 0 then
    if query.kind = .merge && !validTree digest query output.stdout then none
    else some (.success output.stdout)
  else if query.kind = .difference && output.status = 1 && output.stdout.isEmpty then some .different
  else if query.kind = .merge && output.status = 1 && validTree digest query output.stdout then
    some (.conflict output.stdout)
  else none

/-- The entry that is written of what git gave, where one is. -/
def entryOf (query : Query digest) (output : Output) (present : Bool) : Option Entry :=
  if !output.stderr.isEmpty || !output.readFailures.isEmpty || !present then none
  else
    (answerOf digest query output).map fun answer =>
      let stores := query.stores.map fun found => ⟨found.path, found.store.generation⟩
      ⟨VERSION, query.key, answer, stores, checksum digest json query.key answer stores⟩

/-- The listing that is written of a store. -/
def listingFile (found : Found digest) : ListingFile :=
  ⟨VERSION, found.path, found.store.generation, found.store.held⟩

/-- `list_stores`: what is listed of the stores of a query, and the listings written, where one that
does not land is not. -/
def listStores (files : Text → Option ListingFile) (lands : Text → Bool) :
    List (Found digest) → List (Text × Text) → List (Text × Text) × List ListingFile
  | [], listed => (listed, [])
  | found :: rest, listed =>
    if (found.path, found.store.generation) ∈ listed then listStores files lands rest listed
    else
      let (listed, others) :=
        listStores files lands rest ((found.path, found.store.generation) :: listed)
      if (listing digest found.path (files found.path)).any fun listing =>
          listing.generation == found.store.generation then (listed, others)
      else (listed, if lands found.path then listingFile digest found :: others else others)

end Reading

section Runs

variable (digest : Text → Text) (json : Written) (π : Type) [DecidableEq π]

/-- What a process keeps: `STORES`, `COVERED` and `LISTED`, and the queries it asked. -/
structure Caches where
  stores : Memo Text (Option (Found digest))
  covered : Covered
  listed : List (Text × Text)
  queries : List (Query digest)

/-- The files that were ever in place, and what the processes keep; beside them, every store that
was found, and every entry that was written with its query. -/
structure World where
  entries : List Entry
  listings : List ListingFile
  caches : π → Caches digest
  found : List (Found digest)
  written : List (Entry × Query digest)

/-- A question: what a query is made of, and the paths of its stores. -/
structure Question where
  key : Text
  kind : QueryKind
  objectLength : ℕ
  paths : List Text

/-- A step of a process, or of what else writes the files. -/
inductive Label
  /-- A store is read, where the process has not read it. -/
  | list (process : π) (path : Text) (fixed : Option Text) (entries : List (FileName × Node))
  /-- A question is asked, and the files are found that were put in place at these times. -/
  | ask (process : π) (question : Question) (entry : ℕ) (files : Text → ℕ) (present : Bool)
  /-- An answer of git is stored, to a query that was asked. -/
  | write (process : π) (query : ℕ) (output : Output) (files : Text → ℕ) (present : Bool)
      (landsListing : Text → Bool) (lands : Bool)
  /-- `clear`. -/
  | clear (process : π)
  /-- A file that is no whole entry of this build is in an entry's place. -/
  | spoil (entry : Entry)
  /-- A file is in a listing's place. -/
  | misplace (listing : ListingFile)

variable {digest π}

/-- The query of a question, where every one of its stores was read. -/
def Caches.query (caches : Caches digest) (question : Question) : Option (Query digest) :=
  (question.paths.mapM fun path => (caches.stores path).join).map fun stores =>
    ⟨question.key, question.kind, question.objectLength, stores⟩

/-- What a question is answered, and what `covers` keeps. -/
def World.answer (s : World digest π) (process : π) (query : Query digest) (entry : ℕ)
    (files : Text → ℕ) (present : Bool) : Option Output × Covered :=
  StoredAnswers.read digest json query s.entries[entry]? (fun path => s.listings[files path]?) present
    (s.caches process).covered

def World.keep (s : World digest π) (process : π) (caches : Caches digest) : World digest π :=
  { s with caches := Function.update s.caches process caches }

def World.step (s : World digest π) : Label π → Option (World digest π)
  | .list process path fixed entries =>
    let caches := s.caches process
    if (caches.stores path).isSome then none
    else
      match hread : readStore digest fixed entries with
      | none => some (s.keep process { caches with stores := caches.stores.insert path none })
      | some store =>
        let found : Found digest := ⟨path, fixed, entries, store, hread⟩
        some { s.keep process { caches with stores := caches.stores.insert path (some found) } with
          found := found :: s.found }
  | .ask process question entry files present =>
    let caches := s.caches process
    (caches.query question).map fun query =>
      s.keep process { caches with
        covered := (s.answer json process query entry files present).2
        queries := query :: caches.queries }
  | .write process query output files present landsListing lands =>
    let caches := s.caches process
    match caches.queries[query]? with
    | none => none
    | some query =>
      match entryOf digest json query output present with
      | none => some s
      | some entry =>
        let (listed, listings) := listStores digest (fun path => s.listings[files path]?)
          landsListing query.stores caches.listed
        some { s.keep process { caches with listed } with
          listings := s.listings ++ listings
          entries := if lands then s.entries ++ [entry] else s.entries
          written := (entry, query) :: s.written }
  | .clear process =>
    some (s.keep process { s.caches process with
      stores := Memo.empty
      covered := Memo.empty
      listed := [] })
  | .spoil entry =>
    if whole digest json entry then none else some { s with entries := s.entries ++ [entry] }
  | .misplace listing => some { s with listings := s.listings ++ [listing] }

/-- The processes that store answers, from when there are none. -/
def storing : System (World digest π) (Label π) where
  Initial s := s.entries = [] ∧ s.listings = [] ∧ s.found = [] ∧ s.written = [] ∧
    ∀ process, s.caches process = ⟨Memo.empty, Memo.empty, [], []⟩
  step := World.step json

/-- No two listings, of the stores that were found and of the files, have one digest. -/
def World.Collisionless (s : World digest π) : Prop :=
  Set.InjOn digest {text | (∃ found ∈ s.found, text = generationText found.store.held) ∨
    ∃ listing ∈ s.listings, text = generationText listing.held}

end Runs

section Grown

variable {digest : Text → Text} {json : Written} {listings : List ListingFile}
  {stores : Memo Text (Option (Found digest))} {covered : Covered} {found : Found digest}
  {generation : Text}

/-- The store has every line of some listing of the generation. -/
def Grown (listings : List ListingFile) (generation : Text) (found : Found digest) : Prop :=
  ∃ listing ∈ listings, generationOf digest listing.held = generation ∧
    ∀ line ∈ listing.held, line ∈ found.store.held

/-- What a process keeps of `covers` is of the stores that it keeps. -/
def CoveredOf (listings : List ListingFile) (stores : Memo Text (Option (Found digest)))
    (covered : Covered) : Prop :=
  ∀ path generation, covered (path, generation) = some true →
    ∃ found, stores path = some (some found) ∧ Grown listings generation found

theorem Grown.mono {more : List ListingFile} (h : Grown listings generation found)
    (hmore : ∀ listing ∈ listings, listing ∈ more) : Grown more generation found := by
  obtain ⟨listing, hlisting, hrest⟩ := h
  exact ⟨listing, hmore listing hlisting, hrest⟩

theorem covers_grown (hstore : stores found.path = some (some found))
    (hcovered : CoveredOf listings stores covered) {file : Option ListingFile}
    (hfile : ∀ listing, file = some listing → listing ∈ listings) (generation : Text) :
    CoveredOf listings stores (covers digest found generation file covered).2 ∧
      ((covers digest found generation file covered).1 = true → Grown listings generation found) := by
  unfold covers
  split
  · next known hknown =>
    refine ⟨hcovered, fun htrue => ?_⟩
    obtain rfl : known = true := htrue
    obtain ⟨other, hother, hgrown⟩ := hcovered _ _ hknown
    obtain rfl := Option.some.inj (Option.some.inj (hstore.symm.trans hother))
    exact hgrown
  · -- the listing that is found decides
    have hgrown : ((listing digest found.path file).filter fun listing =>
        listing.generation == generation).any (fun listing =>
          listing.held.all fun line => line ∈ found.store.held) = true →
        Grown listings generation found := by
      intro hany
      rw [Option.any_eq_true] at hany
      obtain ⟨listing, hlisting, hheld⟩ := hany
      rw [Option.filter_eq_some_iff, StoredAnswers.listing, Option.filter_eq_some_iff] at hlisting
      obtain ⟨⟨hfound, hvalid⟩, hgeneration⟩ := hlisting
      simp only [Bool.and_eq_true, beq_iff_eq] at hvalid hgeneration
      refine ⟨listing, hfile listing hfound, hvalid.2.trans hgeneration, fun line hline => ?_⟩
      exact of_decide_eq_true (List.all_eq_true.mp hheld line hline)
    refine ⟨fun path other hheld => ?_, hgrown⟩
    dsimp only at hheld
    rw [Memo.insert, Function.update_apply] at hheld
    split at hheld
    · next heq =>
      obtain ⟨rfl, rfl⟩ := Prod.mk.inj heq
      exact ⟨found, hstore, hgrown (Option.some.inj hheld)⟩
    · exact hcovered path other hheld

theorem coversAll_grown {files : Text → Option ListingFile}
    (hfiles : ∀ path listing, files path = some listing → listing ∈ listings)
    {pairs : List (Generation × Found digest)}
    (hstores : ∀ pair ∈ pairs, stores pair.2.path = some (some pair.2))
    (hcovered : CoveredOf listings stores covered) :
    CoveredOf listings stores (coversAll digest files pairs covered).2 ∧
      ((coversAll digest files pairs covered).1 = true → ∀ pair ∈ pairs,
        pair.1.store = pair.2.path ∧ (pair.1.generation = pair.2.store.generation ∨
          Grown listings pair.1.generation pair.2)) := by
  induction pairs generalizing covered with
  | nil => exact ⟨hcovered, fun _ _ hpair => nomatch hpair⟩
  | cons pair rest ih =>
    obtain ⟨recorded, found⟩ := pair
    rw [List.forall_mem_cons] at hstores
    obtain ⟨hstore, hstores⟩ := hstores
    rw [coversAll]
    split
    · exact ⟨hcovered, fun hfalse => nomatch hfalse⟩
    · next hpath =>
      rw [not_not] at hpath
      split
      · next hsame =>
        obtain ⟨hkept, hall⟩ := ih hstores hcovered
        refine ⟨hkept, fun htrue => List.forall_mem_cons.mpr ⟨⟨hpath, .inl hsame⟩, ?_⟩⟩
        exact hall htrue
      · obtain ⟨hkept, hgrown⟩ := covers_grown hstore hcovered (hfiles found.path)
          recorded.generation
        split
        · next covered' hcovers =>
          rw [hcovers] at hkept hgrown
          obtain ⟨hkept, hall⟩ := ih hstores hkept
          refine ⟨hkept, fun htrue => List.forall_mem_cons.mpr ⟨⟨hpath, .inr (hgrown rfl)⟩, ?_⟩⟩
          exact hall htrue
        · next covered' hcovers =>
          rw [hcovers] at hkept
          exact ⟨hkept, fun hfalse => nomatch hfalse⟩

/-- An entry that a query is answered from: whole, of its key, over stores that have only grown. -/
structure Answers (json : Written) (listings : List ListingFile) (query : Query digest)
    (written : Entry) : Prop where
  whole : whole digest json written = true
  key : written.key = query.key
  length : written.stores.length = query.stores.length
  grown : ∀ pair ∈ written.stores.zip query.stores, pair.1.store = pair.2.path ∧
    (pair.1.generation = pair.2.store.generation ∨ Grown listings pair.1.generation pair.2)

theorem read_grown {query : Query digest} {entry : Option Entry} {files : Text → Option ListingFile}
    (hfiles : ∀ path listing, files path = some listing → listing ∈ listings)
    (hstores : ∀ found ∈ query.stores, stores found.path = some (some found))
    (hcovered : CoveredOf listings stores covered) (present : Bool) :
    CoveredOf listings stores (read digest json query entry files present covered).2 ∧
      ∀ output, (read digest json query entry files present covered).1 = some output →
        ∃ written, entry = some written ∧ Answers json listings query written := by
  have hunanswered : ∀ covered, CoveredOf listings stores covered →
      CoveredOf listings stores ((none : Option Output), covered).2 ∧
        ∀ output, ((none : Option Output), covered).1 = some output →
          ∃ written, entry = some written ∧ Answers json listings query written :=
    fun _ hkept => ⟨hkept, fun _ hnone => nomatch hnone⟩
  unfold read
  split
  · exact hunanswered _ hcovered
  · next written =>
    split
    · exact hunanswered _ hcovered
    · next hwritten =>
      simp only [Bool.or_eq_true, Bool.not_eq_true', decide_eq_true_eq, not_or,
        Bool.not_eq_false, not_not] at hwritten
      obtain ⟨⟨hwhole, hkey⟩, hlength⟩ := hwritten
      have hpaired : ∀ pair ∈ written.stores.zip query.stores,
          stores pair.2.path = some (some pair.2) :=
        fun pair hpair => hstores _ (List.of_mem_zip hpair).2
      obtain ⟨hkept, hgrown⟩ := coversAll_grown hfiles hpaired hcovered
      split
      · next covered' hcovers =>
        rw [hcovers] at hkept
        exact hunanswered _ hkept
      · next covered' hcovers =>
        rw [hcovers] at hkept hgrown
        have hanswers : Answers json listings query written :=
          ⟨hwhole, hkey, hlength, hgrown rfl⟩
        split
        · exact hunanswered _ hkept
        · split
          · exact hunanswered _ hkept
          · split
            · exact hunanswered _ hkept
            · exact ⟨hkept, fun _ _ => ⟨written, rfl, hanswers⟩⟩

end Grown

section Invariant

variable {digest : Text → Text} {json : Written} {π : Type} [DecidableEq π]
  {s s' : World digest π} {caches : Caches digest} {process : π}

/-- What a process keeps is of the stores that were found. -/
structure Kept (known : List (Found digest)) (listings : List ListingFile)
    (caches : Caches digest) : Prop where
  stores : ∀ path found, caches.stores path = some (some found) → found ∈ known ∧ found.path = path
  queries : ∀ query ∈ caches.queries, ∀ found ∈ query.stores, found ∈ known
  covered : CoveredOf listings caches.stores caches.covered

/-- The entry is written of the query, whose stores were found. -/
structure WrittenOf (known : List (Found digest)) (entry : Entry) (query : Query digest) : Prop where
  key : entry.key = query.key
  stores : entry.stores = query.stores.map fun found => ⟨found.path, found.store.generation⟩
  found : ∀ found ∈ query.stores, found ∈ known

/-- What is kept, and what is stored, is of the stores that were found. -/
structure Invariant (json : Written) (s : World digest π) : Prop where
  caches : ∀ process, Kept s.found s.listings (s.caches process)
  entries : ∀ entry ∈ s.entries, whole digest json entry = true →
    ∃ query, (entry, query) ∈ s.written
  written : ∀ pair ∈ s.written, WrittenOf s.found pair.1 pair.2

theorem Kept.mono {known known' : List (Found digest)} {listings listings' : List ListingFile}
    (h : Kept known listings caches) (hknown : ∀ found ∈ known, found ∈ known')
    (hlistings : ∀ listing ∈ listings, listing ∈ listings') : Kept known' listings' caches where
  stores path found hfound := ⟨hknown _ (h.stores path found hfound).1, (h.stores path found hfound).2⟩
  queries query hquery found hfound := hknown _ (h.queries query hquery found hfound)
  covered path generation hcovered := by
    obtain ⟨found, hfound, hgrown⟩ := h.covered path generation hcovered
    exact ⟨found, hfound, hgrown.mono hlistings⟩

theorem WrittenOf.mono {known known' : List (Found digest)} {entry : Entry} {query : Query digest}
    (h : WrittenOf known entry query) (hknown : ∀ found ∈ known, found ∈ known') :
    WrittenOf known' entry query :=
  ⟨h.key, h.stores, fun found hfound => hknown found (h.found found hfound)⟩

theorem kept_update {known : List (Found digest)} {listings : List ListingFile}
    (hothers : ∀ other, Kept known listings (s.caches other)) (hkept : Kept known listings caches)
    (other : π) : Kept known listings (Function.update s.caches process caches other) := by
  rw [Function.update_apply]
  split
  · exact hkept
  · exact hothers other

theorem Invariant.keep {known : List (Found digest)} {listings : List ListingFile}
    (h : Invariant json s) (hknown : ∀ found ∈ s.found, found ∈ known)
    (hlistings : ∀ listing ∈ s.listings, listing ∈ listings) (hkept : Kept known listings caches) :
    Invariant json { s.keep process caches with found := known, listings := listings } where
  caches := kept_update (fun other => (h.caches other).mono hknown hlistings) hkept
  entries := h.entries
  written pair hpair := (h.written pair hpair).mono hknown

theorem Kept.empty (known : List (Found digest)) (listings : List ListingFile) :
    Kept known listings ⟨Memo.empty, Memo.empty, [], []⟩ where
  stores _ _ hfound := nomatch hfound
  queries _ hquery := nomatch hquery
  covered _ _ hcovered := nomatch hcovered

theorem exists_of_mem_mapM_some {α β : Type} {f : α → Option β} {l : List α} {r : List β}
    (h : l.mapM f = some r) {b : β} (hb : b ∈ r) : ∃ a ∈ l, f a = some b := by
  induction l generalizing r with
  | nil =>
    obtain rfl := Option.some.inj h
    cases hb
  | cons first rest ih =>
    rw [List.mapM_cons, Option.bind_eq_bind, Option.bind_eq_some_iff] at h
    obtain ⟨a, hfirst, h⟩ := h
    rw [Option.bind_eq_bind, Option.bind_eq_some_iff] at h
    obtain ⟨others, hrest, h⟩ := h
    obtain rfl := Option.some.inj h
    rcases List.mem_cons.mp hb with rfl | hb
    · exact ⟨first, List.mem_cons_self, hfirst⟩
    · obtain ⟨a, ha, hfound⟩ := ih hrest hb
      exact ⟨a, List.mem_cons_of_mem _ ha, hfound⟩

theorem stores_of_query {known : List (Found digest)} {listings : List ListingFile}
    (h : Kept known listings caches) {question : Question} {query : Query digest}
    (hquery : caches.query question = some query) :
    query.key = question.key ∧
      ∀ found ∈ query.stores, caches.stores found.path = some (some found) := by
  obtain ⟨stores, hstores, rfl⟩ := Option.map_eq_some_iff.mp hquery
  refine ⟨rfl, fun found hfound => ?_⟩
  obtain ⟨path, -, hpath⟩ := exists_of_mem_mapM_some hstores hfound
  have hkept : caches.stores path = some (some found) := Option.join_eq_some_iff.mp hpath
  obtain ⟨-, rfl⟩ := h.stores path found hkept
  exact hkept

theorem entryOf_spec {query : Query digest} {output : Output} {present : Bool} {entry : Entry}
    (h : entryOf digest json query output present = some entry) :
    entry.key = query.key ∧
      entry.stores = query.stores.map fun found => ⟨found.path, found.store.generation⟩ := by
  rw [entryOf, Option.ite_none_left_eq_some] at h
  obtain ⟨-, h⟩ := h
  obtain ⟨answer, -, rfl⟩ := Option.map_eq_some_iff.mp h
  exact ⟨rfl, rfl⟩

/-- What `covers` kept stays of the stores that a process keeps, where it reads one more. -/
theorem CoveredOf.insert {listings : List ListingFile}
    {stores : Memo Text (Option (Found digest))} {covered : Covered} {path : Text}
    (h : CoveredOf listings stores covered) (hunread : stores path = none)
    (found : Option (Found digest)) : CoveredOf listings (stores.insert path found) covered := by
  intro other generation hcovered
  obtain ⟨before, hbefore, hgrown⟩ := h other generation hcovered
  have hne : other ≠ path := by
    rintro rfl
    rw [hunread] at hbefore
    cases hbefore
  exact ⟨before, (Function.update_of_ne hne _ _).trans hbefore, hgrown⟩

theorem Invariant.list (h : Invariant json s) {path : Text} {fixed : Option Text}
    {entries : List (FileName × Node)}
    (hstep : s.step json (.list process path fixed entries) = some s') : Invariant json s' := by
  simp only [World.step] at hstep
  split at hstep
  · cases hstep
  · next hunread =>
    rw [Option.not_isSome_iff_eq_none] at hunread
    have hkept := h.caches process
    split at hstep
    · obtain rfl := Option.some.inj hstep
      refine h.keep (fun _ => id) (fun _ => id) ⟨fun other found hfound => ?_, hkept.queries,
        hkept.covered.insert hunread none⟩
      dsimp only at hfound
      rw [Memo.insert, Function.update_apply] at hfound
      split at hfound
      · cases hfound
      · exact hkept.stores other found hfound
    · next store hread =>
      obtain rfl := Option.some.inj hstep
      have hmore := fun found (hfound : found ∈ s.found) =>
        List.mem_cons_of_mem (⟨path, fixed, entries, store, hread⟩ : Found digest) hfound
      refine h.keep hmore (fun _ => id) ⟨fun other found hfound => ?_, ?_,
        hkept.covered.insert hunread _⟩
      · dsimp only at hfound
        rw [Memo.insert, Function.update_apply] at hfound
        split at hfound
        · next heq =>
          obtain rfl := Option.some.inj (Option.some.inj hfound)
          exact ⟨List.mem_cons_self, heq.symm⟩
        · exact ⟨hmore found (hkept.stores other found hfound).1,
            (hkept.stores other found hfound).2⟩
      · exact fun query hquery found hfound => hmore found (hkept.queries query hquery found hfound)

omit [DecidableEq π] in
theorem answer_grown (h : Invariant json s) {question : Question} {query : Query digest}
    (hquery : (s.caches process).query question = some query) (entry : ℕ) (files : Text → ℕ)
    (present : Bool) :
    CoveredOf s.listings (s.caches process).stores (s.answer json process query entry files present).2 ∧
      ∀ output, (s.answer json process query entry files present).1 = some output →
        ∃ written, s.entries[entry]? = some written ∧ Answers json s.listings query written := by
  have hkept := h.caches process
  exact read_grown (fun _ _ hlisting => List.mem_of_getElem? hlisting)
    (stores_of_query hkept hquery).2 hkept.covered present

theorem Invariant.ask (h : Invariant json s) {question : Question} {entry : ℕ} {files : Text → ℕ}
    {present : Bool} (hstep : s.step json (.ask process question entry files present) = some s') :
    Invariant json s' := by
  simp only [World.step, Option.map_eq_some_iff] at hstep
  obtain ⟨query, hquery, rfl⟩ := hstep
  have hkept := h.caches process
  refine h.keep (fun _ => id) (fun _ => id) ⟨hkept.stores, ?_,
    (answer_grown h hquery entry files present).1⟩
  intro other hother found hfound
  rcases List.mem_cons.mp hother with rfl | hother
  · exact (hkept.stores _ _ ((stores_of_query hkept hquery).2 found hfound)).1
  · exact hkept.queries other hother found hfound

theorem Invariant.write (h : Invariant json s) {number : ℕ} {output : Output} {files : Text → ℕ}
    {present : Bool} {landsListing : Text → Bool} {lands : Bool}
    (hstep : s.step json (.write process number output files present landsListing lands) = some s') :
    Invariant json s' := by
  simp only [World.step] at hstep
  split at hstep
  · cases hstep
  · next query hquery =>
    split at hstep
    · obtain rfl := Option.some.inj hstep
      exact h
    · next entry hentry =>
      obtain rfl := Option.some.inj hstep
      have hkept := h.caches process
      have hmore : ∀ listing ∈ s.listings, listing ∈ s.listings ++ (listStores digest
          (fun path => s.listings[files path]?) landsListing query.stores
            (s.caches process).listed).2 :=
        fun listing hlisting => List.mem_append_left _ hlisting
      obtain ⟨hkey, hstores⟩ := entryOf_spec hentry
      have hgrown := hkept.mono (fun _ => id) hmore
      refine ⟨fun other => ?_, fun other hother hwhole => ?_, fun pair hpair => ?_⟩
      · change Kept s.found (s.listings ++ _) (Function.update s.caches process _ other)
        refine kept_update (fun other => (h.caches other).mono (fun _ => id) hmore) ?_ other
        exact ⟨hgrown.stores, hgrown.queries, hgrown.covered⟩
      · -- the entry that is written now, or one that was there
        have hwritten : other = entry ∨ other ∈ s.entries := by
          dsimp only at hother
          split at hother
          · rcases List.mem_append.mp hother with hother | hother
            · exact .inr hother
            · exact .inl (List.mem_singleton.mp hother)
          · exact .inr hother
        rcases hwritten with rfl | hother
        · exact ⟨query, List.mem_cons_self⟩
        · obtain ⟨before, hbefore⟩ := h.entries other hother hwhole
          exact ⟨before, List.mem_cons_of_mem _ hbefore⟩
      · rcases List.mem_cons.mp hpair with rfl | hpair
        · exact ⟨hkey, hstores, hkept.queries query (List.mem_of_getElem? hquery)⟩
        · exact h.written pair hpair

theorem Invariant.step (h : Invariant json s) {label : Label π}
    (hstep : s.step json label = some s') : Invariant json s' := by
  cases label with
  | list process path fixed entries => exact h.list hstep
  | ask process question entry files present => exact h.ask hstep
  | write process query output files present landsListing lands => exact h.write hstep
  | clear process =>
    obtain rfl := Option.some.inj hstep
    refine h.keep (fun _ => id) (fun _ => id) ⟨?_, (h.caches process).queries, ?_⟩
    · exact fun _ _ hfound => nomatch hfound
    · exact fun _ _ hcovered => nomatch hcovered
  | spoil entry =>
    obtain ⟨hspoiled, hstep⟩ := Option.ite_none_left_eq_some.mp hstep
    obtain rfl := Option.some.inj hstep
    refine ⟨h.caches, fun other hother hwhole => ?_, h.written⟩
    rcases List.mem_append.mp hother with hother | hother
    · exact h.entries other hother hwhole
    · rw [List.mem_singleton] at hother
      exact absurd (hother ▸ hwhole) hspoiled
  | misplace listing =>
    obtain rfl := Option.some.inj hstep
    exact ⟨fun process => (h.caches process).mono (fun _ => id)
      fun _ hlisting => List.mem_append_left _ hlisting, h.entries, h.written⟩

theorem invariant_of_reachable (hreach : (@storing digest json π _).Reachable s) :
    Invariant json s := by
  refine hreach.invariant (fun s hinitial => ?_) fun s label s' h _ hstep => h.step hstep
  obtain ⟨hentries, hlistings, hfound, hwritten, hcaches⟩ := hinitial
  refine ⟨fun process => ?_, ?_, ?_⟩
  · rw [hcaches process]
    exact Kept.empty _ _
  · rw [hentries]
    exact fun _ hentry => nomatch hentry
  · rw [hwritten]
    exact fun _ hpair => nomatch hpair

omit [DecidableEq π] in
/-- What a store listed at a time is what it lists later, of the listings of a run without
collisions. -/
theorem lists_of_grown (hfree : s.Collisionless) {before now : Found digest}
    (hbefore : before ∈ s.found) (hnow : now ∈ s.found)
    (hgrown : before.store.generation = now.store.generation ∨
      Grown s.listings before.store.generation now) {item : Item} (hitem : Lists before.entries item) :
    Lists now.entries item := by
  refine Found.lists_of_subset (fun line hline => ?_) hitem
  rcases hgrown with hsame | ⟨listing, hlisting, hgeneration, hheld⟩
  · rw [before.generation_eq, now.generation_eq] at hsame
    have htext := hfree (.inl ⟨before, hbefore, rfl⟩) (.inl ⟨now, hnow, rfl⟩) hsame
    have hlines := generationText_injective (fun _ h => before.newline_not_mem h)
      (fun _ h => now.newline_not_mem h) htext
    exact hlines ▸ hline
  · rw [before.generation_eq, generationOf] at hgeneration
    have htext := hfree (.inr ⟨listing, hlisting, rfl⟩) (.inl ⟨before, hbefore, rfl⟩) hgeneration
    have hlines := generationText_injective
      (fun line h => now.newline_not_mem (hheld line h)) (fun _ h => before.newline_not_mem h) htext
    exact hheld line (hlines.symm ▸ hline)

/-- An answer is reused only over the stores of some query it was written for, in which every item
that was listed then is listed now, with its identity. -/
theorem answered_over_grown_stores
    (hreach : (@storing digest json π _).Reachable s) (hfree : s.Collisionless)
    {question : Question} {query : Query digest}
    (hquery : (s.caches process).query question = some query) {entry : ℕ} {files : Text → ℕ}
    {present : Bool} {output : Output}
    (hanswer : (s.answer json process query entry files present).1 = some output) :
    ∃ pair ∈ s.written, s.entries[entry]? = some pair.1 ∧ pair.2.key = question.key ∧
      List.Forall₂ (fun before now : Found digest => before.path = now.path ∧
        ∀ item, Lists before.entries item → Lists now.entries item) pair.2.stores query.stores := by
  have h := invariant_of_reachable hreach
  obtain ⟨written, hentry, hanswers⟩ := (answer_grown h hquery entry files present).2 output hanswer
  obtain ⟨before, hbefore⟩ := h.entries written (List.mem_of_getElem? hentry) hanswers.whole
  have hwritten := h.written _ hbefore
  have hkept := h.caches process
  obtain ⟨hkey, hstores⟩ := stores_of_query hkept hquery
  refine ⟨_, hbefore, hentry, ?_, ?_⟩
  · exact hwritten.key.symm.trans (hanswers.key.trans hkey)
  · have hlength := hanswers.length
    have hgrown := hanswers.grown
    rw [hwritten.stores] at hlength hgrown
    rw [List.length_map] at hlength
    refine List.forall₂_iff_zip.mpr ⟨hlength, fun {old now} hpair => ?_⟩
    have hmapped : (⟨⟨old.path, old.store.generation⟩, now⟩ : Generation × Found digest) ∈
        (before.stores.map fun found => ⟨found.path, found.store.generation⟩).zip query.stores := by
      rw [List.zip_map_left]
      exact List.mem_map_of_mem hpair
    obtain ⟨hpath, hsince⟩ := hgrown _ hmapped
    obtain ⟨hold, hnow⟩ := List.of_mem_zip hpair
    have hnow := (hkept.stores _ _ (hstores now hnow)).1
    exact ⟨hpath, fun item => lists_of_grown hfree (hwritten.found old hold) hnow hsince⟩

end Invariant

/-! ## A store that grew -/

/-- A fan-out directory of loose objects. -/
def fanOut (objects : List (FileName × Node)) : List (FileName × Node) :=
  [(⟨"ab".toList, by decide, by decide⟩, .dir ⟨1, 10, 501, 20, 96, 16877⟩ objects)]

def object (name : FileName) (ino : ℕ) : FileName × Node := (name, .file ⟨1, ino, 501, 20, 64, 33060⟩)

/-- The object that is there from the first, and one that comes later. -/
def early : FileName × Node := object ⟨"cdef".toList, by decide, by decide⟩ 11

def late : FileName × Node := object ⟨"0123".toList, by decide, by decide⟩ 12

/-- Where nothing is stored yet. -/
def unstored : World (fun text => text) Unit :=
  ⟨[], [], fun _ => ⟨Memo.empty, Memo.empty, [], []⟩, [], []⟩

/-- Answers as their output, and no stores. -/
def bare : Written where
  answer
    | .success stdout => 's' :: stdout
    | .different => ['d']
    | .conflict stdout => 'c' :: stdout
  stores _ := []

def logged : Question := ⟨"log".toList, .read, 40, ["/objects".toList]⟩

/-- An answer is stored over one object, and another object is there when it is asked again. -/
def grows : List (Label Unit) :=
  [.list () "/objects".toList (some []) (fanOut [early]),
    .ask () logged 0 (fun _ => 0) true,
    .write () 0 ⟨0, .code 0, "a commit".toList, [], []⟩ (fun _ => 0) true (fun _ => true) true,
    .clear (),
    .list () "/objects".toList (some []) (fanOut [early, late])]

theorem grows_runs : ((storing bare).run unstored grows).isSome = true := by
  rfl

def grown : World (fun text => text) Unit := ((storing bare).run unstored grows).get grows_runs

theorem logged_asked : ((grown.caches ()).query logged).isSome = true := by
  rfl

/-- What was answered over one object is answered over two, and the first is among them. -/
theorem answered_over_grown_stores_grown :
    ∃ pair ∈ grown.written, grown.entries[0]? = some pair.1 ∧ pair.2.key = logged.key ∧
      List.Forall₂ (fun before now : Found fun text => text => before.path = now.path ∧
        ∀ item, Lists before.entries item → Lists now.entries item) pair.2.stores
          (((grown.caches ()).query logged).get logged_asked).stores :=
  @answered_over_grown_stores (fun text => text) bare Unit _ grown ()
    (System.reachable_of_run ⟨rfl, rfl, rfl, rfl, fun _ => rfl⟩ (Option.some_get grows_runs).symm)
    (Function.Injective.injOn fun _ _ h => h) logged _ (Option.some_get logged_asked).symm 0
    (fun _ => 0) true ⟨0, .code 0, "a commit".toList, [], []⟩ (by decide +kernel)

end Onevcs.Recovery.StoredAnswers
