import Mathlib.Data.Char
import Mathlib.Data.List.Lex
import Onevcs.Foundations.Delimited
import Onevcs.Foundations.Dict
import Onevcs.Foundations.Digits

/-!
# Object stores as a recovery read finds them

`read_store` of `recovery_cache.rs`: what an object store may only grow, its loose objects and its
packs, listed a path a line with the identity each is held to, and the digest of those lines that
names them, the store's generation.

A directory is the entries it had when it was read, each what `symlink_metadata` answered of it;
whatever the listing refuses to read, a name that is not text among it, is `unreadable`. The part of
a store that must not move is digested into the key of a query, and is not looked into.
-/

namespace Onevcs.Recovery

open Foundations (Text insertKey mem_insertKey mem_insertKey_self mem_insertKey_of_mem cut_inj
  delimited delimited_injective)

/-- What a listing holds a path to, of what its metadata says. -/
structure Stat where
  dev : ℕ
  ino : ℕ
  uid : ℕ
  gid : ℕ
  len : ℕ
  mode : ℕ

/-- A name of a directory's entry. -/
structure FileName where
  text : Text
  named : text ≠ []
  single : '/' ∉ text

/-- What stands at a path. -/
inductive Node
  | file (stat : Stat)
  | dir (stat : Stat) (entries : List (FileName × Node))
  | link
  | unreadable

/-! ## Listings -/

/-- A path that a listing is of, a directory's with a slash behind it, with its identity. -/
structure Item where
  path : Text
  stat : Stat

def field (n : ℕ) : Text := '\x00' :: Nat.toDigits 10 n

def Item.line (item : Item) : Text :=
  item.path ++ (field item.stat.dev ++ (field item.stat.ino ++ (field item.stat.uid ++
    (field item.stat.gid ++ (field item.stat.len ++ field item.stat.mode)))))

/-- The item of a path and what stands at it. -/
def item (relative : Text) (isDir : Bool) (stat : Stat) : Item :=
  if isDir then ⟨relative ++ ['/'], { stat with len := 0 }⟩ else ⟨relative, stat⟩

def listedIdentity (relative : Text) (isDir : Bool) (stat : Stat) : Option Text :=
  if '\x00' ∈ relative ∨ '\n' ∈ relative then none else some (item relative isDir stat).line

mutual

def growable (relative : Text) : Node → List Text → Option (List Text)
  | .link, _ => none
  | .unreadable, _ => none
  | .file stat, held =>
    match listedIdentity relative false stat with
    | none => none
    | some line => some (insertKey line held)
  | .dir stat entries, held =>
    match listedIdentity relative true stat with
    | none => none
    | some line => growableAll relative entries (insertKey line held)

/-- `growable`, of each entry of a directory. -/
def growableAll (relative : Text) : List (FileName × Node) → List Text → Option (List Text)
  | [], held => some held
  | (name, node) :: rest, held =>
    match growable (relative ++ '/' :: name.text) node held with
    | none => none
    | some held => growableAll relative rest held

end

/-- What `loose` does with an entry of a fan-out directory. -/
def looseEntry (relative : Text) (held : List Text) : FileName × Node → Option (List Text)
  | (_, .link) => none
  | (_, .unreadable) => none
  | (name, .dir stat entries) => growable (relative ++ '/' :: name.text) (.dir stat entries) held
  | (name, .file stat) =>
    (listedIdentity (relative ++ '/' :: name.text) false stat).map fun line => insertKey line held

def loose (relative : Text) (node : Node) (held : List Text) : Option (List Text) :=
  match node with
  | .dir stat entries => do
    let line ← listedIdentity relative true stat
    entries.foldlM (looseEntry relative) (insertKey line held)
  | other => growable relative other held

/-- The name of a fan-out directory of loose objects. -/
def fansOut (name : FileName) : Bool :=
  name.text.length == 2 && name.text.all fun c => c.isDigit || ('a' ≤ c && c ≤ 'f')

/-- The text whose digest is a generation. -/
def generationText (held : List Text) : Text := delimited '\n' held

/-- What an answer of git was: `git::Ended`. -/
inductive Ended
  | code (code : ℤ)
  | signal (signal : ℤ)
  | stopped
  | stoppedUnconfirmed (reason : Text)
  deriving DecidableEq

structure Output where
  status : ℤ
  ended : Ended
  stdout : Text
  stderr : Text
  readFailures : List Text
  deriving DecidableEq

structure Store where
  fixed : Text
  held : List Text
  generation : Text

section Stores

variable (digest : Text → Text)

def generationOf (held : List Text) : Text := digest (generationText held)

/-- `read_store`: the packs, and each fan-out directory listed by itself. -/
def readStore (fixed : Option Text) (entries : List (FileName × Node)) : Option Store := do
  let fixed ← fixed
  let packs ← (entries.filter fun entry => entry.1.text == "pack".toList).foldlM
    (fun held entry => growable entry.1.text entry.2 held) []
  let listings ← (entries.filter fun entry => fansOut entry.1).mapM
    fun entry => loose entry.1.text entry.2 []
  let held := listings.foldl (fun held listed => listed.foldl (fun held line =>
    insertKey line held) held) packs
  some ⟨fixed, held, generationOf digest held⟩

/-- A store, with where it was found and what its directory held then. -/
structure Found where
  path : Text
  fixed : Option Text
  entries : List (FileName × Node)
  store : Store
  read : readStore digest fixed entries = some store

inductive QueryKind
  | read
  | difference
  | merge
  deriving DecidableEq

/-- `Query`: the stores are those its context was read from, as they were found. Whether the
objects it names are present is asked of the stores when it is read. -/
structure Query where
  key : Text
  kind : QueryKind
  objectLength : ℕ
  stores : List (Found digest)

/-- The generations of the stores a query is read from. -/
def Query.generations {digest : Text → Text} (query : Query digest) : List Text :=
  query.stores.map fun found => found.store.generation

end Stores

/-- The items at a path, and below it. -/
inductive Holds : Text → Node → Item → Prop
  | file {relative : Text} {stat : Stat} : Holds relative (.file stat) (item relative false stat)
  | dir {relative : Text} {stat : Stat} {entries : List (FileName × Node)} :
      Holds relative (.dir stat entries) (item relative true stat)
  | entry {relative : Text} {stat : Stat} {entries : List (FileName × Node)} {name : FileName}
      {node : Node} {found : Item} (hentry : (name, node) ∈ entries)
      (hfound : Holds (relative ++ '/' :: name.text) node found) :
      Holds relative (.dir stat entries) found

/-- The loose objects and packs of a store's directory, and the directories they are in. -/
def Lists (entries : List (FileName × Node)) (found : Item) : Prop :=
  ∃ entry ∈ entries, (entry.1.text = "pack".toList ∨ fansOut entry.1 = true) ∧
    Holds entry.1.text entry.2 found

/-- An item whose path is spelled without what separates the parts of a listing. -/
structure Item.Plain (found : Item) : Prop where
  zeroless : '\x00' ∉ found.path
  lineless : '\n' ∉ found.path

/-- The lines of a listing are those of a set of items, each spelled plainly. -/
structure ListingOf (lines : List Text) (items : Item → Prop) : Prop where
  plain : ∀ found, items found → found.Plain
  mem_iff : ∀ line, line ∈ lines ↔ ∃ found, items found ∧ found.line = line

variable {digest : Text → Text} {relative line : Text} {stat : Stat} {node : Node}
  {entries : List (FileName × Node)} {held held' : List Text} {found other : Item}

theorem zero_not_mem_toDigits (n : ℕ) : '\x00' ∉ Nat.toDigits 10 n := by
  intro h
  exact absurd (Nat.isDigit_of_mem_toDigits (by decide) (by decide) h) (by decide)

theorem newline_not_mem_toDigits (n : ℕ) : '\n' ∉ Nat.toDigits 10 n := by
  intro h
  exact absurd (Nat.isDigit_of_mem_toDigits (by decide) (by decide) h) (by decide)

theorem toDigits_injective {m n : ℕ} (h : Nat.toDigits 10 m = Nat.toDigits 10 n) : m = n := by
  rw [← Nat.ofDigitChars_ten_toDigits (n := m), h, Nat.ofDigitChars_ten_toDigits]

theorem field_append_inj {m n : ℕ} {left right : Text}
    (h : field m ++ '\x00' :: left = field n ++ '\x00' :: right) : m = n ∧ left = right := by
  obtain ⟨-, h⟩ := List.cons.inj h
  obtain ⟨hdigits, hrest⟩ := cut_inj (zero_not_mem_toDigits m) (zero_not_mem_toDigits n) h
  exact ⟨toDigits_injective hdigits, hrest⟩

theorem Item.line_injective (hfound : found.Plain) (hother : other.Plain)
    (h : found.line = other.line) : found = other := by
  obtain ⟨path, dev, ino, uid, gid, len, mode⟩ := found
  obtain ⟨path', dev', ino', uid', gid', len', mode'⟩ := other
  obtain ⟨rfl, h⟩ := cut_inj hfound.zeroless hother.zeroless h
  obtain ⟨rfl, h⟩ := field_append_inj (congrArg ('\x00' :: ·) h)
  obtain ⟨rfl, h⟩ := field_append_inj (congrArg ('\x00' :: ·) h)
  obtain ⟨rfl, h⟩ := field_append_inj (congrArg ('\x00' :: ·) h)
  obtain ⟨rfl, h⟩ := field_append_inj (congrArg ('\x00' :: ·) h)
  obtain ⟨rfl, h⟩ := field_append_inj (congrArg ('\x00' :: ·) h)
  obtain rfl := toDigits_injective h
  rfl

theorem Item.Plain.newline_not_mem_line (h : found.Plain) : '\n' ∉ found.line := by
  simp [Item.line, field, h.lineless, newline_not_mem_toDigits]

/-! ## The lines of a listing -/

/-- A listing that added the lines of a set of items to the lines there were. -/
structure Added (held held' : List Text) (items : Item → Prop) : Prop where
  plain : ∀ found, items found → found.Plain
  mem_iff : ∀ line, line ∈ held' ↔ line ∈ held ∨ ∃ found, items found ∧ found.line = line

theorem mem_insertKey_iff : line ∈ insertKey relative held ↔ line ∈ held ∨ relative = line := by
  constructor
  · intro h
    exact (mem_insertKey h).symm.imp_right Eq.symm
  · rintro (h | rfl)
    · exact mem_insertKey_of_mem h
    · exact mem_insertKey_self

theorem Added.none (held : List Text) : Added held held fun _ => False where
  plain _ hfound := hfound.elim
  mem_iff line := by simp

theorem Added.trans {held'' : List Text} {items more : Item → Prop} (h : Added held held' items)
    (hmore : Added held' held'' more) : Added held held'' fun found => items found ∨ more found where
  plain found hfound := hfound.elim (h.plain found) (hmore.plain found)
  mem_iff line := by
    rw [hmore.mem_iff, h.mem_iff, or_assoc, ← exists_or]
    simp only [or_and_right]

theorem Added.congr {items more : Item → Prop} (h : Added held held' items)
    (hitems : ∀ found, more found ↔ items found) : Added held held' more where
  plain found hfound := h.plain found ((hitems found).mp hfound)
  mem_iff line := by simp only [h.mem_iff, hitems]

theorem added_of_listedIdentity {isDir : Bool} (h : listedIdentity relative isDir stat = some line)
    (held : List Text) : Added held (insertKey line held) fun found => found = item relative isDir stat := by
  rw [listedIdentity, Option.ite_none_left_eq_some, not_or] at h
  obtain ⟨⟨hzero, hnewline⟩, hline⟩ := h
  obtain rfl := Option.some.inj hline
  refine ⟨?_, fun other => ?_⟩
  · rintro found rfl
    cases isDir
    · exact ⟨hzero, hnewline⟩
    · exact ⟨by simp [item, hzero], by simp [item, hnewline]⟩
  · rw [mem_insertKey_iff, exists_eq_left]

theorem holds_dir_iff : Holds relative (.dir stat entries) found ↔
    found = item relative true stat ∨
      ∃ entry ∈ entries, Holds (relative ++ '/' :: entry.1.text) entry.2 found := by
  constructor
  · intro h
    cases h with
    | dir => exact .inl rfl
    | entry hentry hfound => exact .inr ⟨_, hentry, hfound⟩
  · rintro (rfl | ⟨entry, hentry, hfound⟩)
    · exact .dir
    · exact .entry hentry hfound

mutual

theorem growable_added (relative : Text) : ∀ (node : Node) (held held' : List Text),
    growable relative node held = some held' → Added held held' (Holds relative node)
  | .link, held, held', h => by cases h
  | .unreadable, held, held', h => by cases h
  | .file stat, held, held', h => by
    rw [growable] at h
    split at h
    · cases h
    · next line hline =>
      obtain rfl := Option.some.inj h
      refine (added_of_listedIdentity hline held).congr fun found => ?_
      exact ⟨fun hfound => by cases hfound; rfl, fun heq => heq ▸ .file⟩
  | .dir stat entries, held, held', h => by
    rw [growable] at h
    split at h
    · cases h
    · next line hline =>
      have hself := added_of_listedIdentity hline held
      have hentries := growableAll_added relative entries _ _ h
      exact (hself.trans hentries).congr fun found => holds_dir_iff

theorem growableAll_added (relative : Text) :
    ∀ (entries : List (FileName × Node)) (held held' : List Text),
      growableAll relative entries held = some held' → Added held held' fun found =>
        ∃ entry ∈ entries, Holds (relative ++ '/' :: entry.1.text) entry.2 found
  | [], held, held', h => by
    obtain rfl := Option.some.inj h
    exact (Added.none held).congr fun found => by simp
  | (name, node) :: rest, held, held', h => by
    rw [growableAll] at h
    split at h
    · cases h
    · next listed hlisted =>
      have hfirst := growable_added _ node _ _ hlisted
      have hrest := growableAll_added relative rest _ _ h
      exact (hfirst.trans hrest).congr fun found => by simp

end

/-- A fan-out directory is listed as any other directory is. -/
theorem loose_eq_growable (relative : Text) (node : Node) (held : List Text) :
    loose relative node held = growable relative node held := by
  have hentry : ∀ (held : List Text) (entry : FileName × Node), looseEntry relative held entry =
      growable (relative ++ '/' :: entry.1.text) entry.2 held := by
    rintro held ⟨name, node⟩
    cases node with
    | file stat =>
      rw [looseEntry, growable]
      cases listedIdentity (relative ++ '/' :: name.text) false stat <;> rfl
    | dir stat entries => rfl
    | link => rw [looseEntry, growable]
    | unreadable => rw [looseEntry, growable]
  have hall : ∀ (entries : List (FileName × Node)) (held : List Text),
      entries.foldlM (looseEntry relative) held = growableAll relative entries held := by
    intro entries
    induction entries with
    | nil => intro held; rfl
    | cons entry rest ih =>
      intro held
      rw [List.foldlM_cons, hentry, growableAll]
      cases hlisted : growable (relative ++ '/' :: entry.1.text) entry.2 held with
      | none => rfl
      | some listed => exact ih listed
  cases node with
  | dir stat entries =>
    rw [loose, growable]
    cases listedIdentity relative true stat with
    | none => rfl
    | some line => exact hall entries _
  | file stat => rfl
  | link => rfl
  | unreadable => rfl

theorem mem_foldl_insertKey (lines held : List Text) :
    line ∈ lines.foldl (fun held line => insertKey line held) held ↔ line ∈ held ∨ line ∈ lines := by
  induction lines generalizing held with
  | nil => simp
  | cons first rest ih =>
    rw [List.foldl_cons, ih, mem_insertKey_iff, List.mem_cons, or_assoc, eq_comm (a := first)]

theorem mem_foldl_listings (listings : List (List Text)) (held : List Text) :
    line ∈ listings.foldl (fun held listed =>
      listed.foldl (fun held line => insertKey line held) held) held ↔
        line ∈ held ∨ ∃ listed ∈ listings, line ∈ listed := by
  induction listings generalizing held with
  | nil => simp
  | cons first rest ih =>
    rw [List.foldl_cons, ih, mem_foldl_insertKey, or_assoc, List.exists_mem_cons_iff]

theorem added_foldlM (list : FileName × Node → List Text → Option (List Text))
    (items : FileName × Node → Item → Prop)
    (hlist : ∀ entry held held', list entry held = some held' → Added held held' (items entry))
    (h : entries.foldlM (fun held entry => list entry held) held = some held') :
    Added held held' fun found => ∃ entry ∈ entries, items entry found := by
  induction entries generalizing held with
  | nil =>
    obtain rfl := Option.some.inj h
    exact (Added.none held).congr fun found => by simp
  | cons entry rest ih =>
    rw [List.foldlM_cons, Option.bind_eq_bind, Option.bind_eq_some_iff] at h
    obtain ⟨listed, hlisted, h⟩ := h
    exact ((hlist _ _ _ hlisted).trans (ih h)).congr fun found => by simp

theorem listingOf_mapM (list : FileName × Node → Option (List Text))
    (items : FileName × Node → Item → Prop) {listings : List (List Text)}
    (hlist : ∀ entry listed, list entry = some listed → ListingOf listed (items entry))
    (h : entries.mapM list = some listings) :
    (∀ entry ∈ entries, ∀ found, items entry found → found.Plain) ∧
      ∀ line, (∃ listed ∈ listings, line ∈ listed) ↔
        ∃ found, (∃ entry ∈ entries, items entry found) ∧ found.line = line := by
  induction entries generalizing listings with
  | nil =>
    obtain rfl := Option.some.inj h
    simp
  | cons entry rest ih =>
    rw [List.mapM_cons, Option.bind_eq_bind, Option.bind_eq_some_iff] at h
    obtain ⟨listed, hlisted, h⟩ := h
    rw [Option.bind_eq_bind, Option.bind_eq_some_iff] at h
    obtain ⟨others, hothers, h⟩ := h
    obtain rfl := Option.some.inj h
    obtain ⟨hplain, hmem⟩ := ih hothers
    have hfirst := hlist entry listed hlisted
    refine ⟨?_, fun line => ?_⟩
    · rw [List.forall_mem_cons]
      exact ⟨hfirst.plain, hplain⟩
    · rw [List.exists_mem_cons_iff, hmem, hfirst.mem_iff]
      simp only [List.exists_mem_cons_iff, or_and_right, exists_or]

/-- The lines of a store are those of its items, and its generation is theirs. -/
theorem listingOf_readStore {fixed : Option Text} {store : Store}
    (h : readStore digest fixed entries = some store) :
    ListingOf store.held (Lists entries) ∧ store.generation = generationOf digest store.held := by
  simp only [readStore, Option.bind_eq_bind, Option.bind_eq_some_iff] at h
  obtain ⟨fixed, -, packs, hpacks, listings, hlistings, h⟩ := h
  obtain rfl := Option.some.inj h
  have hpacked := added_foldlM (fun entry held => growable entry.1.text entry.2 held)
    (fun entry => Holds entry.1.text entry.2)
    (fun entry held held' => growable_added entry.1.text entry.2 held held') hpacks
  obtain ⟨hplain, hfanned⟩ := listingOf_mapM (fun entry => loose entry.1.text entry.2 [])
    (fun entry => Holds entry.1.text entry.2)
    (fun entry listed hlisted => by
      rw [loose_eq_growable] at hlisted
      have hadded := growable_added _ _ _ _ hlisted
      exact ⟨hadded.plain, fun line => by simpa using hadded.mem_iff line⟩) hlistings
  -- the items are those of the packs, and those of the fan-out directories
  have hlists : ∀ found, Lists entries found ↔
      (∃ entry ∈ entries.filter fun entry => entry.1.text == "pack".toList,
        Holds entry.1.text entry.2 found) ∨
      ∃ entry ∈ entries.filter fun entry => fansOut entry.1,
        Holds entry.1.text entry.2 found := by
    intro found
    simp only [Lists, List.mem_filter, beq_iff_eq, and_assoc, or_and_right, and_or_left, exists_or]
  refine ⟨⟨fun found hfound => ?_, fun line => ?_⟩, rfl⟩
  · rcases (hlists found).mp hfound with hpack | ⟨entry, hentry, hfan⟩
    · exact hpacked.plain found hpack
    · exact hplain entry hentry found hfan
  · rw [mem_foldl_listings, hpacked.mem_iff, hfanned]
    simp only [hlists, or_and_right, exists_or, List.not_mem_nil, false_or]

namespace Found

theorem listing (found : Found digest) : ListingOf found.store.held (Lists found.entries) :=
  (listingOf_readStore found.read).1

theorem generation_eq (found : Found digest) :
    found.store.generation = digest (generationText found.store.held) :=
  (listingOf_readStore found.read).2

theorem newline_not_mem (found : Found digest) (h : line ∈ found.store.held) : '\n' ∉ line := by
  obtain ⟨other, hother, rfl⟩ := (found.listing.mem_iff line).mp h
  exact (found.listing.plain other hother).newline_not_mem_line

theorem lists_of_subset {before now : Found digest}
    (h : ∀ line ∈ before.store.held, line ∈ now.store.held) (hfound : Lists before.entries found) :
    Lists now.entries found := by
  have hline := h _ ((before.listing.mem_iff _).mpr ⟨found, hfound, rfl⟩)
  obtain ⟨other, hother, heq⟩ := (now.listing.mem_iff _).mp hline
  have hsame := Item.line_injective (now.listing.plain other hother)
    (before.listing.plain found hfound) heq
  exact hsame ▸ hother

end Found

theorem generationText_injective (hheld : ∀ line ∈ held, '\n' ∉ line)
    (hheld' : ∀ line ∈ held', '\n' ∉ line) (h : generationText held = generationText held') :
    held = held' :=
  delimited_injective hheld hheld' h

end Onevcs.Recovery
