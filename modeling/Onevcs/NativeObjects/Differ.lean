import Mathlib.Data.Finset.Basic
import Onevcs.Foundations.Dict
import Onevcs.Foundations.Framing
import Onevcs.NativeObjects.Paint

/-!
# The paths two trees differ at

`tree_of`, `differ` and `changed` of `native_objects.rs`, over the objects of a repository. Trees
are read under an allowance, one of it for each tree, and a read that fails declines the answer.
The recursion runs on fuel, as the walks over commits do.
-/

namespace Onevcs.NativeObjects

open Foundations (Dict insertKey)

/-- The bytes of a name, or of a path. -/
abbrev Bytes := List UInt8

/-- What stands between the names of a path. -/
def slash : UInt8 := 0x2F

/-- An entry of a tree: its id and its mode. -/
structure TreeEntry (κ : Type*) where
  id : κ
  mode : ℤ
  deriving DecidableEq

/-- An object, as far as a tree is found through it. -/
inductive Object (κ : Type*)
  | tree (entries : List (Bytes × TreeEntry κ))
  | commit (tree : κ)
  | tag (target : κ)
  | blob

/-- The objects of a repository: a name in a tree is not empty, and has no slash in it. -/
structure Objects (κ : Type*) where
  object : κ → Option (Object κ)
  proper : ∀ id entries, object id = some (.tree entries) →
    ∀ entry ∈ entries, entry.1 ≠ [] ∧ slash ∉ entry.1

/-- `TREE`. -/
def treeMode : ℤ := 0o040000

section Definitions

variable {κ : Type} [DecidableEq κ]

/-- The paths that are named so far, and what is left of the allowance. -/
abbrev Differing := Finset Bytes × ℕ

/-- The id of an entry that is a tree. -/
def treeId (entry : Option (TreeEntry κ)) : Option κ :=
  entry.bind fun entry => if entry.mode = treeMode then some entry.id else none

/-- The entry is there, and no tree. -/
def isFile (entry : Option (TreeEntry κ)) : Bool := entry.any fun entry => entry.mode != treeMode

/-- The entries of a tree by name. -/
def entriesOf (entries : List (Bytes × TreeEntry κ)) : Dict Bytes (TreeEntry κ) :=
  entries.foldl (fun named entry => Dict.insert entry.1 entry.2 named) []

def namesOf (before after : Dict Bytes (TreeEntry κ)) : List Bytes :=
  (before.map Prod.fst ++ after.map Prod.fst).foldl (fun named name => insertKey name named) []

variable (objects : Objects κ)

def treeOf : ℕ → κ → Outcome κ
  | 0, _ => .unfinished
  | fuel + 1, id =>
    match objects.object id with
    | some (.tree _) => .answered id
    | some (.commit tree) => .answered tree
    | some (.tag target) => treeOf fuel target
    | some .blob | none => .declined

/-- The entries of a tree that is there, read under the allowance. -/
def readEntries (unspent : ℕ) : Option κ → Option (Dict Bytes (TreeEntry κ) × ℕ)
  | none => some ([], unspent)
  | some id =>
    if unspent = 0 then none
    else
      match objects.object id with
      | some (.tree entries) => some (entriesOf entries, unspent - 1)
      | _ => none

/-- One name of either tree, at a path. -/
def differAt (descend : Option κ → Option κ → Bytes → Differing → Outcome Differing)
    (was is : Option (TreeEntry κ)) (path : Bytes) (s : Differing) : Outcome Differing :=
  if was = is then .answered s
  else
    let s := if isFile was || isFile is then (insert path s.1, s.2) else s
    if (treeId was).isSome || (treeId is).isSome then
      descend (treeId was) (treeId is) (path ++ [slash]) s
    else .answered s

/-- Every name of either tree, under a prefix. -/
def differEach (descend : Option κ → Option κ → Bytes → Differing → Outcome Differing)
    (before after : Dict Bytes (TreeEntry κ)) (start : Bytes) :
    List Bytes → Differing → Outcome Differing
  | [], s => .answered s
  | name :: rest, s =>
    match differAt descend (Dict.get name before) (Dict.get name after) (start ++ name) s with
    | .answered s => differEach descend before after start rest s
    | .declined => .declined
    | .unfinished => .unfinished

def differ : ℕ → Option κ → Option κ → Bytes → Differing → Outcome Differing
  | 0, _, _, _, _ => .unfinished
  | fuel + 1, old, new, start, s =>
    if old = new then .answered s
    else
      match readEntries objects s.2 old with
      | none => .declined
      | some (before, unspent) =>
        match readEntries objects unspent new with
        | none => .declined
        | some (after, unspent) =>
          differEach (differ fuel) before after start (namesOf before after) (s.1, unspent)

/-- A path is one of the literal paths, or beneath one. -/
def narrowed (paths : List Bytes) (path : Bytes) : Bool :=
  paths.isEmpty || paths.any fun spec =>
    path == spec || (spec.isPrefixOf path && path[spec.length]? == some slash)

def changed (fuel unspent : ℕ) (a b : κ) (paths : List Bytes) : Outcome (Finset Bytes) :=
  match treeOf objects fuel a with
  | .unfinished => .unfinished
  | .declined => .declined
  | .answered old =>
    match treeOf objects fuel b with
    | .unfinished => .unfinished
    | .declined => .declined
    | .answered new =>
      match differ objects fuel (some old) (some new) [] (∅, unspent) with
      | .unfinished => .unfinished
      | .declined => .declined
      | .answered s => .answered (s.1.filter fun path => narrowed paths path)

/-- The entries a tree has, none where it is no tree. -/
def held (tree : Option κ) : Dict Bytes (TreeEntry κ) :=
  match tree.bind objects.object with
  | some (.tree entries) => entriesOf entries
  | _ => []

/-- What a tree has at a path of names, where that is no tree itself. -/
def leaf : Option κ → List Bytes → Option (TreeEntry κ)
  | _, [] => none
  | tree, [name] => (Dict.get name (held objects tree)).filter fun entry => entry.mode ≠ treeMode
  | tree, name :: second :: rest =>
    leaf (treeId (Dict.get name (held objects tree))) (second :: rest)

def spelled (names : List Bytes) : Bytes := List.intercalate [slash] names

/-- What a tree has at a path, where that is no tree itself. -/
def flattened (tree : κ) (path : Bytes) : Option (TreeEntry κ) :=
  leaf objects (some tree) (path.splitOn slash)

end Definitions

section Exact

variable {κ : Type} [DecidableEq κ] {objects : Objects κ} {old new tree : Option κ}
variable {was is : Option (TreeEntry κ)} {before after : Dict Bytes (TreeEntry κ)}
variable {name path start : Bytes} {names rest : List Bytes} {s s' : Differing}
variable {fuel unspent : ℕ}

/-- What follows a name in a path: the other names, after a slash where there are any. -/
def following : List Bytes → Bytes
  | [] => []
  | name :: rest => slash :: spelled (name :: rest)

theorem spelled_cons : spelled (name :: rest) = name ++ following rest := by
  cases rest with
  | nil => simp [spelled, following, List.intercalate]
  | cons second rest => simp [spelled, following, List.intercalate]

/-- What an entry has at a path of names below it. -/
def leafAt (objects : Objects κ) (entry : Option (TreeEntry κ)) :
    List Bytes → Option (TreeEntry κ)
  | [] => entry.filter fun entry => entry.mode ≠ treeMode
  | name :: rest => leaf objects (treeId entry) (name :: rest)

omit [DecidableEq κ] in
theorem leaf_cons :
    leaf objects tree (name :: rest) = leafAt objects (Dict.get name (held objects tree)) rest := by
  cases rest with
  | nil => rfl
  | cons second rest => rfl

theorem mem_foldl_insertKey {keys named : List Bytes}
    (h : name ∈ keys ∨ name ∈ named) :
    name ∈ keys.foldl (fun named name => insertKey name named) named := by
  induction keys generalizing named with
  | nil => exact h.resolve_left nofun
  | cons first rest ih =>
    rw [List.foldl_cons]
    apply ih
    rcases h with h | h
    · rcases List.mem_cons.mp h with rfl | h
      · exact .inr Foundations.mem_insertKey_self
      · exact .inl h
    · exact .inr (Foundations.mem_insertKey_of_mem h)

omit [DecidableEq κ] in
theorem get_of_notMem_namesOf (h : name ∉ namesOf before after) :
    Dict.get name before = none ∧ Dict.get name after = none := by
  have hnone : ∀ m : Dict Bytes (TreeEntry κ),
      (name ∈ m.map Prod.fst → name ∈ namesOf before after) → Dict.get name m = none := by
    intro m hm
    cases hget : Dict.get name m with
    | none => rfl
    | some entry =>
      exact absurd (hm (List.mem_map.mpr ⟨_, Dict.mem_of_get hget, rfl⟩)) h
  exact ⟨hnone before fun hmem => mem_foldl_insertKey (.inl (List.mem_append_left _ hmem)),
    hnone after fun hmem => mem_foldl_insertKey (.inl (List.mem_append_right _ hmem))⟩

omit [DecidableEq κ] in
theorem held_of_readEntries {left : ℕ}
    (h : readEntries objects unspent tree = some (before, left)) :
    before = held objects tree := by
  cases tree with
  | none =>
    obtain ⟨rfl, -⟩ := Prod.mk.inj (Option.some.inj h)
    rfl
  | some id =>
    rw [readEntries] at h
    split at h
    · cases h
    · split at h
      · next entries hobject =>
        obtain ⟨rfl, -⟩ := Prod.mk.inj (Option.some.inj h)
        simp [held, hobject]
      · cases h

/-! ## What is named -/

/-- The paths under a prefix at which two trees differ are named, and no other. -/
def NamesDiffering (objects : Objects κ)
    (descend : Option κ → Option κ → Bytes → Differing → Outcome Differing) : Prop :=
  ∀ old new start s s', descend old new start s = .answered s' →
    ∀ path, path ∈ s'.1 ↔ path ∈ s.1 ∨ ∃ names, path = start ++ spelled names ∧
      leaf objects old names ≠ leaf objects new names

variable {descend : Option κ → Option κ → Bytes → Differing → Outcome Differing}

omit [DecidableEq κ] in
theorem leafAt_nil_ne_iff (h : was ≠ is) :
    leafAt objects was [] ≠ leafAt objects is [] ↔ (isFile was || isFile is) = true := by
  have hfile : ∀ entry : Option (TreeEntry κ), leafAt objects entry [] =
      if isFile entry then entry else none := by
    intro entry
    cases entry with
    | none => rfl
    | some entry =>
      by_cases hmode : entry.mode = treeMode
      · simp [leafAt, isFile, hmode]
      · simp [leafAt, isFile, hmode]
  have hnone : isFile (none : Option (TreeEntry κ)) = false := rfl
  rw [hfile was, hfile is]
  cases hwas : isFile was with
  | true =>
    cases his : isFile is with
    | true => simpa using h
    | false =>
      have hsome : was ≠ none := by
        rintro rfl
        rw [hnone] at hwas
        cases hwas
      simpa using hsome
  | false =>
    cases his : isFile is with
    | true =>
      have hsome : none ≠ is := by
        rintro rfl
        rw [hnone] at his
        cases his
      simpa using hsome
    | false => simp

omit [DecidableEq κ] in
theorem leafAt_cons_of_isNone (hwas : treeId was = none) (his : treeId is = none) :
    leafAt objects was (name :: rest) = leafAt objects is (name :: rest) := by
  rw [leafAt, leafAt, hwas, his]

/-- One name: its own path where one side is a file, and what is beneath where one is a tree. -/
theorem differAt_exact (hdescend : NamesDiffering objects descend)
    (h : differAt descend was is start s = .answered s') :
    path ∈ s'.1 ↔ path ∈ s.1 ∨ ∃ rest, path = start ++ following rest ∧
      leafAt objects was rest ≠ leafAt objects is rest := by
  unfold differAt at h
  split at h
  · next heq =>
    obtain rfl : s = s' := Outcome.answered.inj h
    simp [heq]
  · next hne =>
    have hfile : path ∈ (if isFile was || isFile is then (insert start s.1, s.2) else s).1 ↔
        path ∈ s.1 ∨ (path = start ∧ leafAt objects was [] ≠ leafAt objects is []) := by
      rw [leafAt_nil_ne_iff hne]
      split
      · next hin => simp [hin, or_comm]
      · next hout => simp [hout]
    have hsplit : (∃ rest, path = start ++ following rest ∧
          leafAt objects was rest ≠ leafAt objects is rest) ↔
        (path = start ∧ leafAt objects was [] ≠ leafAt objects is []) ∨
          ∃ name rest, path = start ++ [slash] ++ spelled (name :: rest) ∧
            leafAt objects was (name :: rest) ≠ leafAt objects is (name :: rest) := by
      constructor
      · rintro ⟨rest, hpath, hdiffer⟩
        cases rest with
        | nil => exact .inl ⟨by simpa [following] using hpath, hdiffer⟩
        | cons name rest => exact .inr ⟨name, rest, by simpa [following] using hpath, hdiffer⟩
      · rintro (⟨hpath, hdiffer⟩ | ⟨name, rest, hpath, hdiffer⟩)
        · exact ⟨[], by simpa [following] using hpath, hdiffer⟩
        · exact ⟨name :: rest, by simpa [following] using hpath, hdiffer⟩
    rw [hsplit]
    dsimp only at h
    split at h
    · rw [hdescend _ _ _ _ _ h, hfile, or_assoc]
      refine or_congr_right (or_congr_right ?_)
      constructor
      · rintro ⟨names, hpath, hdiffer⟩
        cases names with
        | nil => exact absurd rfl hdiffer
        | cons name rest => exact ⟨name, rest, hpath, hdiffer⟩
      · rintro ⟨name, rest, hpath, hdiffer⟩
        exact ⟨name :: rest, hpath, hdiffer⟩
    · next htrees =>
      obtain rfl := Outcome.answered.inj h
      simp only [Bool.or_eq_true, Option.isSome_iff_ne_none, not_or, not_not] at htrees
      rw [hfile]
      refine or_congr_right ⟨.inl, fun hbelow => hbelow.resolve_right ?_⟩
      rintro ⟨name, rest, -, hdiffer⟩
      exact hdiffer (leafAt_cons_of_isNone htrees.1 htrees.2)

theorem differEach_exact (hdescend : NamesDiffering objects descend)
    (h : differEach descend before after start names s = .answered s') :
    path ∈ s'.1 ↔ path ∈ s.1 ∨ ∃ name ∈ names, ∃ rest, path = start ++ spelled (name :: rest) ∧
      leafAt objects (Dict.get name before) rest ≠ leafAt objects (Dict.get name after) rest := by
  induction names generalizing s with
  | nil =>
    obtain rfl : s = s' := Outcome.answered.inj h
    simp
  | cons name rest ih =>
    rw [differEach] at h
    split at h
    · next next hnext =>
      rw [ih h, differAt_exact hdescend hnext, List.exists_mem_cons_iff, or_assoc]
      simp only [spelled_cons, List.append_assoc]
    · cases h
    · cases h

/-- For any two trees: the paths that are named under a prefix are those at which the flattened
trees differ. By recursion on the fuel, and there on the names of both trees. -/
theorem differ_exact : NamesDiffering objects (differ objects fuel) := by
  induction fuel with
  | zero => exact fun _ _ _ _ _ h => by cases h
  | succ fuel ih =>
    intro old new start s s' h path
    rw [differ] at h
    split at h
    · next heq =>
      obtain rfl : s = s' := Outcome.answered.inj h
      simp [heq]
    · split at h
      · cases h
      · next before left hbefore =>
        split at h
        · cases h
        · next after last hafter =>
          rw [differEach_exact ih h]
          obtain rfl := held_of_readEntries hbefore
          obtain rfl := held_of_readEntries hafter
          refine or_congr_right ?_
          constructor
          · rintro ⟨name, -, rest, hpath, hdiffer⟩
            exact ⟨name :: rest, hpath, by rwa [leaf_cons, leaf_cons]⟩
          · rintro ⟨names, hpath, hdiffer⟩
            cases names with
            | nil => exact absurd rfl hdiffer
            | cons name rest =>
              rw [leaf_cons, leaf_cons] at hdiffer
              refine ⟨name, ?_, rest, hpath, hdiffer⟩
              by_contra hnot
              obtain ⟨hwas, his⟩ := get_of_notMem_namesOf hnot
              rw [hwas, his] at hdiffer
              exact hdiffer rfl

/-- A descent ends, and is left with no more than it had. -/
def Ends (allowance : ℕ)
    (descend : Option κ → Option κ → Bytes → Differing → Outcome Differing) : Prop :=
  ∀ old new start s, s.2 ≤ allowance →
    descend old new start s ≠ .unfinished ∧
      ∀ s', descend old new start s = .answered s' → s'.2 ≤ s.2

theorem differAt_ends (hdescend : Ends unspent descend) (hs : s.2 ≤ unspent)
    (was is : Option (TreeEntry κ)) (start : Bytes) :
    differAt descend was is start s ≠ .unfinished ∧
      ∀ s', differAt descend was is start s = .answered s' → s'.2 ≤ s.2 := by
  unfold differAt
  have hkept : (if isFile was || isFile is then (insert start s.1, s.2) else s).2 = s.2 := by
    split <;> rfl
  split
  · exact ⟨nofun, fun s' h => (Outcome.answered.inj h) ▸ le_rfl⟩
  · dsimp only
    split
    · obtain ⟨hends, hless⟩ := hdescend (treeId was) (treeId is) (start ++ [slash])
        (if isFile was || isFile is then (insert start s.1, s.2) else s) (by rwa [hkept])
      exact ⟨hends, fun s' h => (hless s' h).trans hkept.le⟩
    · exact ⟨nofun, fun s' h => (Outcome.answered.inj h) ▸ hkept.le⟩

theorem differEach_ends (hdescend : Ends unspent descend) (hs : s.2 ≤ unspent)
    (before after : Dict Bytes (TreeEntry κ)) (start : Bytes) (names : List Bytes) :
    differEach descend before after start names s ≠ .unfinished ∧
      ∀ s', differEach descend before after start names s = .answered s' → s'.2 ≤ s.2 := by
  induction names generalizing s with
  | nil => exact ⟨nofun, fun s' h => (Outcome.answered.inj h) ▸ le_rfl⟩
  | cons name rest ih =>
    obtain ⟨hends, hless⟩ := differAt_ends hdescend hs (Dict.get name before)
      (Dict.get name after) (start ++ name)
    rw [differEach]
    split
    · next next hnext =>
      have hle := hless next hnext
      obtain ⟨hrest, hfewer⟩ := ih (hle.trans hs)
      exact ⟨hrest, fun s' h => (hfewer s' h).trans hle⟩
    · exact ⟨nofun, nofun⟩
    · next hnext => exact absurd hnext hends

omit [DecidableEq κ] in
theorem readEntries_le {left : ℕ}
    (h : readEntries objects unspent tree = some (before, left)) :
    left ≤ unspent ∧ (tree ≠ none → left < unspent) := by
  cases tree with
  | none =>
    obtain ⟨-, rfl⟩ := Prod.mk.inj (Option.some.inj h)
    exact ⟨le_rfl, fun hne => absurd rfl hne⟩
  | some id =>
    rw [readEntries] at h
    split at h
    · cases h
    · split at h
      · obtain ⟨-, rfl⟩ := Prod.mk.inj (Option.some.inj h)
        omega
      · cases h

theorem differ_ends (hfuel : unspent < fuel) : Ends unspent (differ objects fuel) := by
  induction fuel generalizing unspent with
  | zero => omega
  | succ fuel ih =>
    intro old new start s hs
    rw [differ]
    split
    · exact ⟨nofun, fun s' h => (Outcome.answered.inj h) ▸ le_rfl⟩
    · next hne =>
      split
      · exact ⟨nofun, nofun⟩
      · next before left hbefore =>
        split
        · exact ⟨nofun, nofun⟩
        · next after last hafter =>
          obtain ⟨hleft, hold⟩ := readEntries_le hbefore
          obtain ⟨hlast, hnew⟩ := readEntries_le hafter
          -- one of the two is a tree
          have hspent : last < s.2 := by
            rcases eq_or_ne old none with rfl | hsome
            · exact (hnew fun heq => hne heq.symm).trans_le hleft
            · exact hlast.trans_lt (hold hsome)
          have heach := @differEach_ends κ _ (s.1, last) last _
            (ih (by omega : last < fuel)) le_rfl before after start
            (namesOf before after)
          exact ⟨heach.1, fun s' h => (heach.2 s' h).trans hspent.le⟩

/-! ## Narrowing to literal paths -/

omit [DecidableEq κ] in
theorem mem_entriesOf {entries : List (Bytes × TreeEntry κ)} {entry : Bytes × TreeEntry κ}
    (h : entry ∈ entriesOf entries) : entry ∈ entries := by
  have hfold : ∀ (entries : List (Bytes × TreeEntry κ)) (named : Dict Bytes (TreeEntry κ)),
      entry ∈ entries.foldl (fun named entry => Dict.insert entry.1 entry.2 named) named →
        entry ∈ named ∨ entry ∈ entries := by
    intro entries
    induction entries with
    | nil => exact fun _ h => .inl h
    | cons first rest ih =>
      intro named h
      rcases ih _ h with h | h
      · rcases Dict.mem_insert h with rfl | h
        · exact .inr List.mem_cons_self
        · exact .inl h
      · exact .inr (List.mem_cons_of_mem _ h)
  exact (hfold entries [] h).resolve_left nofun

omit [DecidableEq κ] in
theorem proper_of_held {entry : TreeEntry κ} (h : Dict.get name (held objects tree) = some entry) :
    name ≠ [] ∧ slash ∉ name := by
  have hmem := Dict.mem_of_get h
  unfold held at hmem
  split at hmem
  · next entries hobject =>
    obtain ⟨id, -, hobject⟩ := Option.bind_eq_some_iff.mp hobject
    exact objects.proper id entries hobject _ (mem_entriesOf hmem)
  · cases hmem

omit [DecidableEq κ] in
theorem leaf_none : leaf objects none names = none := by
  induction names with
  | nil => rfl
  | cons name rest ih =>
    rw [leaf_cons]
    cases rest with
    | nil => rfl
    | cons second rest => exact ih

omit [DecidableEq κ] in
theorem proper_of_leaf {entry : TreeEntry κ} (h : leaf objects tree names = some entry) :
    ∀ name ∈ names, name ≠ [] ∧ slash ∉ name := by
  induction names generalizing tree with
  | nil => exact nofun
  | cons name rest ih =>
    rw [leaf_cons] at h
    cases hget : Dict.get name (held objects tree) with
    | none =>
      rw [hget] at h
      cases rest with
      | nil => cases h
      | cons second rest => exact absurd (leaf_none.symm.trans h) nofun
    | some found =>
      refine List.forall_mem_cons.mpr ⟨proper_of_held hget, ?_⟩
      cases rest with
      | nil => exact nofun
      | cons second rest =>
        rw [hget] at h
        exact ih h

theorem splitOn_spelled (hne : names ≠ []) (h : ∀ name ∈ names, slash ∉ name) :
    (spelled names).splitOn slash = names :=
  List.splitOn_intercalate slash h hne

omit [DecidableEq κ] in
theorem differing_iff {left right : κ} :
    (∃ names, path = spelled names ∧
        leaf objects (some left) names ≠ leaf objects (some right) names) ↔
      flattened objects left path ≠ flattened objects right path := by
  constructor
  · rintro ⟨names, rfl, hdiffer⟩
    have hne : names ≠ [] := by
      rintro rfl
      exact hdiffer rfl
    have hproper : ∀ name ∈ names, name ≠ [] ∧ slash ∉ name := by
      cases hleft : leaf objects (some left) names with
      | some entry => exact proper_of_leaf hleft
      | none =>
        cases hright : leaf objects (some right) names with
        | some entry => exact proper_of_leaf hright
        | none => exact absurd (hleft.trans hright.symm) hdiffer
    rwa [flattened, flattened, splitOn_spelled hne fun name hname => (hproper name hname).2]
  · intro hdiffer
    exact ⟨path.splitOn slash, (List.intercalate_splitOn slash).symm, hdiffer⟩

theorem narrowed_iff {paths : List Bytes} :
    narrowed paths path = true ↔
      paths = [] ∨ ∃ spec ∈ paths, path = spec ∨ spec ++ [slash] <+: path := by
  have hbeneath : ∀ spec : Bytes,
      (spec.isPrefixOf path && path[spec.length]? == some slash) = true ↔
        spec ++ [slash] <+: path := by
    intro spec
    rw [Bool.and_eq_true, List.isPrefixOf_iff_prefix, beq_iff_eq]
    constructor
    · rintro ⟨⟨rest, rfl⟩, hslash⟩
      rw [List.getElem?_append_right le_rfl, Nat.sub_self] at hslash
      cases rest with
      | nil => cases hslash
      | cons c rest =>
        obtain rfl := Option.some.inj hslash
        exact ⟨rest, by simp⟩
    · rintro ⟨rest, rfl⟩
      refine ⟨⟨slash :: rest, by simp⟩, by simp⟩
  rw [narrowed, Bool.or_eq_true, List.isEmpty_iff, List.any_eq_true]
  simp only [Bool.or_eq_true, beq_iff_eq, hbeneath]

/-- For every two objects and every literal paths: where an answer is made, it names exactly the
paths at which the flattened trees differ, narrowed where any path is given to those that are one
of them or beneath one; and fuel above the allowance is enough. -/
theorem changed_exact (objects : Objects κ) (fuel unspent : ℕ) (a b : κ) (paths : List Bytes) :
    (∀ names, changed objects fuel unspent a b paths = .answered names →
      ∃ old new, treeOf objects fuel a = .answered old ∧ treeOf objects fuel b = .answered new ∧
        ∀ path, path ∈ names ↔
          flattened objects old path ≠ flattened objects new path ∧
            (paths = [] ∨ ∃ spec ∈ paths, path = spec ∨ spec ++ [slash] <+: path)) ∧
      ∀ old new, treeOf objects fuel a = .answered old → treeOf objects fuel b = .answered new →
        unspent < fuel → changed objects fuel unspent a b paths ≠ .unfinished := by
  constructor
  · intro names h
    rw [changed] at h
    split at h
    · cases h
    · cases h
    · next old hold =>
      split at h
      · cases h
      · cases h
      · next new hnew =>
        split at h
        · cases h
        · cases h
        · next s hdiffer =>
          obtain rfl := Outcome.answered.inj h
          refine ⟨old, new, hold, hnew, fun path => ?_⟩
          rw [Finset.mem_filter, differ_exact _ _ _ _ _ hdiffer path, narrowed_iff,
            ← differing_iff]
          simp
  · intro old new hold hnew hfuel
    have hends : differ objects fuel (some old) (some new) [] (∅, unspent) ≠ .unfinished :=
      (differ_ends hfuel (some old) (some new) [] (∅, unspent) le_rfl).1
    rw [changed, hold, hnew]
    dsimp only
    split
    · next hunfinished => exact absurd hunfinished hends
    · exact nofun
    · exact nofun

end Exact

/-- An empty tree, and one with a file. -/
def addedObjects : Objects ℕ where
  object
    | 0 => some (.tree [])
    | 1 => some (.tree [([0x61], ⟨5, 0o100644⟩)])
    | _ => none
  proper id entries h := by
    match id, h with
    | 0, h =>
      obtain rfl := Object.tree.inj (Option.some.inj h)
      decide
    | 1, h =>
      obtain rfl := Object.tree.inj (Option.some.inj h)
      decide

/-- Where no literal path is given, every path is named and not none. -/
theorem unnarrowed :
    changed addedObjects 8 7 0 1 [] = .answered {[0x61]} ∧
      ¬ ∃ spec ∈ ([] : List Bytes), ([0x61] : Bytes) = spec ∨ spec ++ [slash] <+: [0x61] :=
  ⟨by decide +kernel, by simp⟩

end Onevcs.NativeObjects
