import Onevcs.Audit.Attribute

/-!
# Every hit is attributed

The walk counts a commit for a hit at most once, by its generation, whatever number of raw diffs
the commit has, and a merge's repeated header does not begin a new one. So what is written of a
hit is: a history row for each of its rules and each of the first commits that carry it, and a
gap row where that is not all of them.
-/

namespace Onevcs.Audit.Attribute

open Foundations (Dict Text)
open Store (splitOnce trim)

variable {find : Text → List Found} {h : History} {commit oid path : Text} {generation : Nat}

theorem directoryOf_eq_none (hfree : '/' ∉ path) : directoryOf path = none := by
  have hdrop : path.reverse.dropWhile (· != '/') = [] := by
    rw [List.dropWhile_eq_nil_iff]
    rintro c hc
    rw [bne_iff_ne]
    rintro rfl
    exact hfree (List.mem_reverse.mp hc)
  rw [directoryOf, hdrop]

theorem directoryOf_append {name : Text} (hfree : '/' ∉ name) (directory : Text) :
    directoryOf (directory ++ '/' :: name) = some directory := by
  have hdrop : (directory ++ '/' :: name).reverse.dropWhile (· != '/') =
      '/' :: directory.reverse := by
    rw [List.reverse_append, List.reverse_cons, List.append_assoc, List.dropWhile_append_of_pos]
    · rfl
    · intro c hc
      rw [bne_iff_ne]
      rintro rfl
      exact hfree (List.mem_reverse.mp hc)
  rw [directoryOf, hdrop]
  exact congrArg some (List.reverse_reverse directory)

theorem directory_cases (path : Text) :
    '/' ∉ path ∨ ∃ directory name, '/' ∉ name ∧ path = directory ++ '/' :: name := by
  induction path using List.reverseRecOn with
  | nil => exact .inl (by simp)
  | append_singleton front c ih =>
    by_cases hc : c = '/'
    · exact .inr ⟨front, [], by simp, by rw [hc]⟩
    · rcases ih with hfree | ⟨directory, name, hfree, rfl⟩
      · refine .inl ?_
        rw [List.mem_append, List.mem_singleton]
        exact fun hmem => hmem.elim hfree fun heq => hc heq.symm
      · refine .inr ⟨directory, name ++ [c], ?_, by simp⟩
        rw [List.mem_append, List.mem_singleton]
        exact fun hmem => hmem.elim hfree fun heq => hc heq.symm

/-- What a name in a directory lies beneath: itself, and what the directory lies beneath. -/
theorem beneath_append_iff {name directory other : Text} (hfree : '/' ∉ name) :
    Beneath (directory ++ '/' :: name) other ↔
      other = directory ++ '/' :: name ∨ Beneath directory other := by
  rw [Beneath, Beneath, eq_comm]
  refine or_congr_right ⟨?_, ?_⟩
  · rintro ⟨rest, hrest⟩
    rw [List.append_assoc, List.singleton_append, List.append_eq_append_iff] at hrest
    obtain ⟨between, hbetween, hcons⟩ | ⟨between, hbetween, hcons⟩ := hrest
    · cases between with
      | nil =>
        rw [List.append_nil] at hbetween
        exact .inl hbetween
      | cons c between =>
        obtain ⟨rfl, -⟩ := List.cons.inj hcons
        exact .inr ⟨between, by rw [hbetween, List.append_assoc]; rfl⟩
    · cases between with
      | nil =>
        rw [List.append_nil] at hbetween
        exact .inl hbetween.symm
      | cons c between =>
        obtain ⟨-, hname⟩ := List.cons.inj hcons
        exact absurd (by rw [hname]; simp) hfree
  · rintro (rfl | hprefix)
    · exact ⟨name, by rw [List.append_assoc]; rfl⟩
    · exact hprefix.trans (List.prefix_append _ _)

theorem mem_prefixesWithin (depth : Nat) (other : Text) (hdepth : path.length < depth) :
    other ∈ prefixesWithin depth path ↔ Beneath path other := by
  induction depth generalizing path with
  | zero => omega
  | succ depth ih =>
    rw [prefixesWithin, List.mem_cons]
    rcases directory_cases path with hfree | ⟨directory, name, hfree, rfl⟩
    · have hnot : ¬ (other ++ ['/']) <+: path := fun hstart => hfree (hstart.subset (by simp))
      rw [directoryOf_eq_none hfree, Beneath, or_iff_left hnot]
      simp [eq_comm]
    · rw [directoryOf_append hfree, beneath_append_iff hfree]
      refine or_congr_right (ih ?_)
      rw [List.length_append, List.length_cons] at hdepth
      omega

theorem mem_prefixes_iff {other : Text} : other ∈ prefixes path ↔ Beneath path other :=
  mem_prefixesWithin _ _ (Nat.lt_succ_self _)

/-! ## The tokens of the walk -/

theorem split_flatMap {tokens : List Text} (hfree : ∀ token ∈ tokens, '\x00' ∉ token) :
    split (tokens.flatMap (· ++ ['\x00'])) = tokens := by
  have hsplit : (tokens.flatMap (· ++ ['\x00'])).splitOn '\x00' = tokens ++ [[]] := by
    induction tokens with
    | nil => rfl
    | cons token rest ih =>
      rw [List.flatMap_cons, List.append_assoc, List.singleton_append,
        List.splitOn_append_cons_self_of_not_mem (hfree token List.mem_cons_self),
        ih fun token htoken => hfree token (List.mem_cons_of_mem _ htoken), List.cons_append]
  rw [split, hsplit, if_pos List.getLast?_concat, List.dropLast_concat]

/-- The token before an entry's path. -/
def entryToken (entry : Touched) : Text :=
  [':'] ++ [' '].intercalate
    [entry.oldMode.text, entry.newMode.text, entry.old.text, entry.new.text, entry.status.text]

def entryTokens (entry : Touched) : List Text := [entryToken entry, entry.path]

def diffTokens (commit : Text) : List Touched → List Text
  | [] => [['\x1e'] ++ commit]
  | first :: rest =>
    (['\x1e'] ++ commit) :: (['\n'] ++ entryToken first) :: first.path.val ::
      rest.flatMap entryTokens

theorem entryText_eq (entry : Touched) :
    History.entryText entry = (entryTokens entry).flatMap (· ++ ['\x00']) := by
  simp [History.entryText, entryTokens, entryToken]

theorem diffText_eq (commit : Text) (diff : List Touched) :
    History.diffText commit diff = (diffTokens commit diff).flatMap (· ++ ['\x00']) := by
  cases diff with
  | nil => simp [History.diffText, diffTokens]
  | cons first rest =>
    have hrest : rest.flatMap History.entryText =
        (rest.flatMap entryTokens).flatMap (· ++ ['\x00']) := by
      rw [List.flatMap_assoc]
      exact List.flatMap_congr fun entry _ => entryText_eq entry
    rw [History.diffText, if_neg (List.cons_ne_nil _ _), List.flatMap_cons, hrest, entryText_eq]
    simp [diffTokens, entryTokens]

theorem not_mem_entryToken (entry : Touched) : '\x00' ∉ entryToken entry := by
  have h₁ := entry.oldMode.unbroken.2
  have h₂ := entry.newMode.unbroken.2
  have h₃ := entry.old.unbroken.2
  have h₄ := entry.new.unbroken.2
  have h₅ := entry.status.unbroken.2
  simp [entryToken, List.intercalate, h₁, h₂, h₃, h₄, h₅]

theorem not_mem_diffTokens (hcommit : '\x00' ∉ commit) (diff : List Touched) :
    ∀ token ∈ diffTokens commit diff, '\x00' ∉ token := by
  have hentries : ∀ entry : Touched, ∀ token ∈ entryTokens entry, '\x00' ∉ token := by
    intro entry token htoken
    rcases List.mem_pair.mp htoken with rfl | rfl
    · exact not_mem_entryToken entry
    · exact entry.path.property
  cases diff with
  | nil => simpa [diffTokens] using hcommit
  | cons first rest =>
    intro token htoken
    rw [diffTokens, List.mem_cons, List.mem_cons, List.mem_cons, List.mem_flatMap] at htoken
    rcases htoken with rfl | rfl | rfl | ⟨entry, -, hentry⟩
    · simpa using hcommit
    · simpa using not_mem_entryToken first
    · exact first.path.property
    · exact hentries entry token hentry

theorem split_rawLog (h : History) :
    split h.rawLog =
      h.commits.flatMap fun commit => (h.printed commit).flatMap (diffTokens commit) := by
  have htext : h.rawLog =
      (h.commits.flatMap fun commit => (h.printed commit).flatMap (diffTokens commit)).flatMap
        (· ++ ['\x00']) := by
    rw [History.rawLog, List.flatMap_assoc]
    refine List.flatMap_congr fun commit _ => ?_
    rw [List.flatMap_assoc]
    exact List.flatMap_congr fun diff _ => diffText_eq commit diff
  rw [htext, split_flatMap]
  intro token htoken
  obtain ⟨commit, hcommit, htoken⟩ := List.mem_flatMap.mp htoken
  obtain ⟨diff, -, htoken⟩ := List.mem_flatMap.mp htoken
  exact not_mem_diffTokens (h.hash commit hcommit).2 diff token htoken

section Read

variable {walk : Walk}

theorem read_header (hwritten : walk.written = none) :
    read find walk (['\x1e'] ++ commit) = walk.enter commit := by
  rw [read, hwritten]
  rfl

theorem writtenBy_entryToken (entry : Touched) :
    writtenBy (entryToken entry).tail = entry.new.text := by
  have hsplit : (entryToken entry).tail.splitOn ' ' =
      [entry.oldMode.text, entry.newMode.text, entry.old.text, entry.new.text,
        entry.status.text] := by
    refine List.splitOn_intercalate ' ' ?_ (List.cons_ne_nil _ _)
    have h₁ := entry.oldMode.unbroken.1
    have h₂ := entry.newMode.unbroken.1
    have h₃ := entry.old.unbroken.1
    have h₄ := entry.new.unbroken.1
    have h₅ := entry.status.unbroken.1
    simp [h₁, h₂, h₃, h₄, h₅]
  rw [writtenBy, hsplit]
  rfl

theorem read_entryToken (entry : Touched) (hwritten : walk.written = none) :
    read find walk (entryToken entry) = { walk with written := some entry.new.text } := by
  rw [read, hwritten, ← writtenBy_entryToken]
  rfl

theorem read_newline_entryToken (entry : Touched) (hwritten : walk.written = none) :
    read find walk (['\n'] ++ entryToken entry) =
      { walk with written := some entry.new.text } := by
  rw [read, hwritten, ← writtenBy_entryToken]
  rfl

theorem read_path : read find { walk with written := some oid } path =
    walk.touch find oid path := rfl

/-- The entries of a raw diff, one after the other. -/
def touchAll (find : Text → List Found) (entries : List Touched) (walk : Walk) : Walk :=
  entries.foldl (fun walk entry => walk.touch find entry.new.text entry.path) walk

theorem touchAll_cons (entry : Touched) (entries : List Touched) :
    touchAll find (entry :: entries) walk =
      touchAll find entries (walk.touch find entry.new.text entry.path) := rfl

theorem commit_touchAll (entries : List Touched) :
    (touchAll find entries walk).commit = walk.commit := by
  induction entries generalizing walk with
  | nil => rfl
  | cons entry rest ih => rw [touchAll_cons, ih, Walk.touch]

theorem generation_touchAll (entries : List Touched) :
    (touchAll find entries walk).generation = walk.generation := by
  induction entries generalizing walk with
  | nil => rfl
  | cons entry rest ih => rw [touchAll_cons, ih, Walk.touch]

theorem written_touchAll (entries : List Touched) (hwritten : walk.written = none) :
    (touchAll find entries walk).written = none := by
  induction entries generalizing walk with
  | nil => exact hwritten
  | cons entry rest ih => exact ih rfl

theorem foldl_entryTokens (entries : List Touched) (hwritten : walk.written = none) :
    (entries.flatMap entryTokens).foldl (read find) walk = touchAll find entries walk := by
  induction entries generalizing walk with
  | nil => rfl
  | cons entry rest ih =>
    rw [List.flatMap_cons, entryTokens, List.cons_append, List.singleton_append,
      List.foldl_cons, List.foldl_cons, read_entryToken entry hwritten,
      read_path, ih rfl]
    rfl

theorem written_enter (hwritten : walk.written = none) : (walk.enter commit).written = none := by
  rw [Walk.enter]
  split <;> exact hwritten

theorem commit_enter : (walk.enter commit).commit = commit := by
  rw [Walk.enter]
  split
  · next heq => exact heq.symm
  · rfl

theorem foldl_diffTokens (diff : List Touched) (hwritten : walk.written = none) :
    (diffTokens commit diff).foldl (read find) walk = touchAll find diff (walk.enter commit) := by
  cases diff with
  | nil => exact read_header hwritten
  | cons first rest =>
    rw [diffTokens, List.foldl_cons, List.foldl_cons, List.foldl_cons, read_header hwritten,
      read_newline_entryToken first (written_enter hwritten),
      read_path, foldl_entryTokens rest rfl]
    rfl

theorem enter_touchAll (entries : List Touched) :
    (touchAll find entries (walk.enter commit)).enter commit =
      touchAll find entries (walk.enter commit) := by
  rw [Walk.enter, if_pos]
  rw [commit_touchAll, commit_enter]

theorem foldl_flatMap_diffTokens {diffs : List (List Touched)} (hne : diffs ≠ [])
    (hwritten : walk.written = none) :
    (diffs.flatMap (diffTokens commit)).foldl (read find) walk =
      touchAll find diffs.flatten (walk.enter commit) := by
  induction diffs generalizing walk with
  | nil => exact absurd rfl hne
  | cons diff rest ih =>
    rw [List.flatMap_cons, List.foldl_append, foldl_diffTokens diff hwritten,
      List.flatten_cons]
    cases rest with
    | nil => rw [List.flatMap_nil, List.flatten_nil, List.append_nil]; rfl
    | cons next rest =>
      rw [ih (List.cons_ne_nil _ _) (written_touchAll _ (written_enter hwritten)),
        enter_touchAll]
      exact (List.foldl_append ..).symm

theorem printed_ne_nil (h : History) (commit : Text) : h.printed commit ≠ [] := by
  rw [History.printed]
  split
  · exact List.cons_ne_nil _ _
  · next hall =>
    rw [Bool.not_eq_true, List.all_eq_false] at hall
    obtain ⟨diff, hdiff, hempty⟩ := hall
    exact List.ne_nil_of_mem (List.mem_filter.mpr ⟨hdiff, by simpa using hempty⟩)

theorem mem_flatten_printed {entry : Touched} :
    entry ∈ (h.printed commit).flatten ↔ ∃ diff ∈ h.rawDiffs commit, entry ∈ diff := by
  rw [List.mem_flatten, History.printed]
  split
  · next hall =>
    rw [List.all_eq_true] at hall
    constructor
    · rintro ⟨diff, hdiff, hentry⟩
      rw [List.mem_singleton.mp hdiff] at hentry
      cases hentry
    · rintro ⟨diff, hdiff, hentry⟩
      rw [List.isEmpty_iff.mp (hall diff hdiff)] at hentry
      cases hentry
  · refine exists_congr fun diff => ?_
    rw [List.mem_filter, and_assoc]
    refine and_congr_right fun _ => and_iff_right_of_imp fun hentry => ?_
    rw [Bool.not_eq_true', List.isEmpty_eq_false_iff]
    exact List.ne_nil_of_mem hentry

theorem exists_printed_iff (p : Touched → Prop) :
    (∃ entry ∈ (h.printed commit).flatten, p entry) ↔
      ∃ diff ∈ h.rawDiffs commit, ∃ entry ∈ diff, p entry := by
  constructor
  · rintro ⟨entry, hentry, hp⟩
    obtain ⟨diff, hdiff, hmem⟩ := mem_flatten_printed.mp hentry
    exact ⟨diff, hdiff, entry, hmem, hp⟩
  · rintro ⟨diff, hdiff, entry, hentry, hp⟩
    exact ⟨entry, mem_flatten_printed.mpr ⟨diff, hdiff, hentry⟩, hp⟩

def walkCommit (find : Text → List Found) (h : History) (walk : Walk) (commit : Text) : Walk :=
  touchAll find (h.printed commit).flatten (walk.enter commit)

theorem foldl_read_commits (commits : List Text) (hwritten : walk.written = none) :
    (commits.flatMap fun commit => (h.printed commit).flatMap (diffTokens commit)).foldl
        (read find) walk =
      commits.foldl (walkCommit find h) walk := by
  induction commits generalizing walk with
  | nil => rfl
  | cons commit rest ih =>
    rw [List.flatMap_cons, List.foldl_append, List.foldl_cons,
      foldl_flatMap_diffTokens (printed_ne_nil h commit) hwritten]
    exact ih (written_touchAll _ (written_enter hwritten))

theorem foldl_read_rawLog (hwritten : walk.written = none) :
    (split h.rawLog).foldl (read find) walk = h.commits.foldl (walkCommit find h) walk := by
  rw [split_rawLog, foldl_read_commits h.commits hwritten]

end Read

section Counting

variable {a : Attribution} {counted : List Text}

/-- The first of the commits counted, and how many they are, in a walk that has come as far as a
generation. -/
structure Counted (counted : List Text) (generation : Nat) (a : Attribution) : Prop where
  total : a.total = counted.length
  commits : a.commits = counted.take maxAttribution
  generation : a.generation ≤ generation

/-- An attribution after a commit, which carries the hit or does not. -/
def credited (carries : Prop) [Decidable carries] (commit : Text) (generation : Nat)
    (a : Attribution) : Attribution :=
  if carries then a.add commit generation else a

theorem add_add : (a.add commit generation).add commit generation = a.add commit generation := by
  have hsame : (a.add commit generation).generation = generation := by
    rw [Attribution.add]
    split
    · next heq => exact heq
    · rfl
  rw [Attribution.add, if_pos hsame]

theorem credited_credited {p q either : Prop} [Decidable p] [Decidable q] [Decidable either]
    (heither : either ↔ p ∨ q) :
    credited q commit generation (credited p commit generation a) =
      credited either commit generation a := by
  by_cases hp : p <;> by_cases hq : q <;> simp [credited, hp, hq, heither, add_add]

theorem credited_congr {p q : Prop} [Decidable p] [Decidable q] (hpq : p ↔ q) :
    credited p commit generation a = credited q commit generation a := by
  by_cases hp : p
  · rw [credited, credited, if_pos hp, if_pos (hpq.mp hp)]
  · rw [credited, credited, if_neg hp, if_neg fun hq => hp (hpq.mpr hq)]

theorem take_append_of_lt (hlt : (counted.take maxAttribution).length < maxAttribution) :
    counted.take maxAttribution ++ [commit] = (counted ++ [commit]).take maxAttribution := by
  have hshort : counted.length < maxAttribution := by
    rw [List.length_take] at hlt
    omega
  rw [List.take_of_length_le hshort.le, List.take_of_length_le]
  rw [List.length_append, List.length_singleton]
  omega

theorem take_append_of_not_lt (hnot : ¬ (counted.take maxAttribution).length < maxAttribution) :
    counted.take maxAttribution = (counted ++ [commit]).take maxAttribution := by
  rw [List.take_append_of_le_length]
  rw [List.length_take] at hnot
  omega

theorem Counted.credited (ha : Counted counted generation a) (carries : Prop)
    [Decidable carries] :
    Counted (counted ++ if carries then [commit] else []) (generation + 1)
      (credited carries commit (generation + 1) a) := by
  rw [Attribute.credited]
  split
  · have hne : a.generation ≠ generation + 1 := by have := ha.generation; omega
    rw [Attribution.add, if_neg hne]
    refine ⟨?_, ?_, le_rfl⟩
    · simp only [ha.total, List.length_append, List.length_singleton]
    · simp only [ha.commits]
      split
      · next hlt => exact take_append_of_lt hlt
      · next hnot => exact take_append_of_not_lt hnot
  · rw [List.append_nil]
    exact ⟨ha.total, ha.commits, ha.generation.trans (Nat.le_succ _)⟩

theorem counted_nil : Counted [] 0 {} := ⟨rfl, rfl, le_rfl⟩

theorem filter_append_singleton (p : Text → Prop) [DecidablePred p] (done : List Text) :
    (done ++ [commit]).filter (fun commit => p commit) =
      done.filter (fun commit => p commit) ++ if p commit then [commit] else [] := by
  rw [List.filter_append, List.filter_singleton]
  by_cases hp : p commit <;> simp [hp]

end Counting

/-! ## What is known of every hit -/

/-- The blobs that matched, with what was found in each: no blob is there twice. -/
structure Hits where
  entries : Dict Text (List Found)
  nodup : (entries.map Prod.fst).Nodup

/-- The blobs as the walk is given them. -/
def Hits.pending (hits : Hits) : Dict Text Pending :=
  hits.entries.map fun entry => (entry.1, .new entry.2)

/-- The blobs are those that matched, each with its attribution. -/
def Held (hits : Hits) (attribution : Text → Attribution) (blobs : Dict Text Pending) : Prop :=
  blobs.map (fun entry => (entry.1, entry.2.found, entry.2.attribution)) =
    hits.entries.map fun entry => (entry.1, entry.2, attribution entry.1)

/-- The paths met are the known ones, each with what is found in it and its attribution. -/
structure Noted (find : Text → List Found) (known : Text → Prop)
    (attribution : Text → Attribution) (paths : Paths) : Prop where
  nodup : (paths.map Prod.fst).Nodup
  known_iff : ∀ path, path ∈ paths.map Prod.fst ↔ known path
  hits : ∀ entry ∈ paths,
    entry.2.map (fun hit => (hit.found, hit.attribution)) =
      if (find entry.1).isEmpty then none else some (find entry.1, attribution entry.1)
  unmet : ∀ path, ¬ known path → attribution path = {}

section Hits

variable {hits : Hits} {A B : Text → Attribution} {known : Text → Prop}
  {blobs : Dict Text Pending} {paths : Paths} {g : Pending → Pending}
  {f : Attribution → Attribution}

theorem held_pending (hits : Hits) : Held hits (fun _ => {}) hits.pending := by
  rw [Held, Hits.pending, List.map_map]
  rfl

theorem Held.keys (hblobs : Held hits A blobs) :
    blobs.map Prod.fst = hits.entries.map Prod.fst := by
  have hkeys := congrArg (List.map Prod.fst) hblobs
  rwa [List.map_map, List.map_map] at hkeys

theorem Held.modify (hblobs : Held hits A blobs) (oid : Text)
    (hfound : ∀ hit, (g hit).found = hit.found)
    (hattribution : ∀ hit, (g hit).attribution = f hit.attribution) :
    Held hits (fun key => if key = oid then f (A key) else A key)
      (Dict.modify oid g blobs) := by
  have hnodup : (blobs.map Prod.fst).Nodup := hblobs.keys ▸ hits.nodup
  have hmapped := congrArg (List.map fun entry : Text × List Found × Attribution =>
    (entry.1, entry.2.1, if entry.1 = oid then f entry.2.2 else entry.2.2)) hblobs
  rw [List.map_map, List.map_map] at hmapped
  rw [Held, Dict.modify_eq_map hnodup, List.map_map]
  refine Eq.trans (List.map_congr_left fun entry _ => ?_) hmapped
  by_cases hkey : entry.1 = oid <;> simp [hkey, hfound, hattribution]

theorem noted_nil : Noted find (fun _ => False) (fun _ => {}) [] where
  nodup := List.nodup_nil
  known_iff := by simp
  hits := nofun
  unmet := fun _ _ => rfl

theorem Noted.meet (hpaths : Noted find known A paths) (path : Text) :
    Noted find (fun other => known other ∨ other = path) A
      (if (Dict.get path paths).isSome then paths else paths ++ [(path, met find path)]) := by
  split
  · next hsome =>
    rw [Dict.isSome_get_iff] at hsome
    refine ⟨hpaths.nodup, fun other => ?_, hpaths.hits, fun other hother => ?_⟩
    · rw [hpaths.known_iff]
      refine (or_iff_left_of_imp ?_).symm
      rintro rfl
      exact (hpaths.known_iff _).mp hsome
    · exact hpaths.unmet other fun hknown => hother (.inl hknown)
  · next hnone =>
    rw [Dict.isSome_get_iff] at hnone
    refine ⟨?_, fun other => ?_, fun entry hentry => ?_, fun other hother => ?_⟩
    · rw [List.map_append, List.nodup_append]
      refine ⟨hpaths.nodup, List.nodup_singleton _, ?_⟩
      rintro other hother _ hpath rfl
      rw [List.map_singleton, List.mem_singleton] at hpath
      rw [hpath] at hother
      exact hnone hother
    · rw [List.map_append, List.mem_append, hpaths.known_iff, List.map_singleton,
        List.mem_singleton]
    · rcases List.mem_append.mp hentry with hentry | hentry
      · exact hpaths.hits entry hentry
      · have hfresh : A path = {} :=
          hpaths.unmet path fun hknown => hnone ((hpaths.known_iff path).mpr hknown)
        rw [List.mem_singleton.mp hentry, hfresh, met]
        split <;> rfl
    · exact hpaths.unmet other fun hknown => hother (.inl hknown)

theorem Noted.get (hpaths : Noted find known A paths) (path : Text)
    (hfound : ∀ hit, (g hit).found = hit.found)
    (hattribution : ∀ hit, (g hit).attribution = f hit.attribution) :
    Noted find (fun other => known other ∨ other = path)
      (fun other => if other = path then f (A other) else A other)
      (Paths.get find path g paths) := by
  have hmet := hpaths.meet path
  rw [Paths.get, Dict.modify_eq_map hmet.nodup]
  refine ⟨?_, fun other => ?_, fun entry hentry => ?_, fun other hother => ?_⟩
  · rw [List.map_map]
    exact hmet.nodup
  · rw [List.map_map]
    exact hmet.known_iff other
  · obtain ⟨before, hbefore, rfl⟩ := List.mem_map.mp hentry
    have hhit := hmet.hits before hbefore
    by_cases hkey : before.1 = path
    · simp only [if_pos hkey]
      have hmapped := congrArg
        (Option.map fun pair : List Found × Attribution => (pair.1, f pair.2)) hhit
      rw [Option.map_map] at hmapped
      rw [Option.map_map]
      refine Eq.trans (Option.map_congr fun hit _ => ?_) (hmapped.trans ?_)
      · exact Prod.ext (hfound hit) (hattribution hit)
      · split <;> rfl
    · simpa only [if_neg hkey] using hhit
  · have hnot : other ≠ path := fun heq => hother (.inr heq)
    simp only [if_neg hnot]
    exact hmet.unmet other hother

/-- The same change to the hits of several paths, where making it twice is making it once. -/
theorem Noted.foldl_get (hpaths : Noted find known A paths) (several : List Text)
    (hfound : ∀ hit, (g hit).found = hit.found)
    (hattribution : ∀ hit, (g hit).attribution = f hit.attribution)
    (htwice : ∀ a, f (f a) = f a) :
    Noted find (fun other => known other ∨ other ∈ several)
      (fun other => if other ∈ several then f (A other) else A other)
      (several.foldl (fun paths path => Paths.get find path g paths) paths) := by
  induction several generalizing paths known A with
  | nil => simpa using hpaths
  | cons path rest ih =>
    have hrest := ih (hpaths.get path hfound hattribution)
    have hknown : (fun other => (known other ∨ other = path) ∨ other ∈ rest) =
        fun other => known other ∨ other ∈ path :: rest := by
      funext other
      rw [List.mem_cons, or_assoc]
    have hcredit : (fun other =>
        if other ∈ rest then f (if other = path then f (A other) else A other)
        else if other = path then f (A other) else A other) =
        fun other => if other ∈ path :: rest then f (A other) else A other := by
      funext other
      simp only [List.mem_cons]
      by_cases hpath : other = path
      · by_cases hmem : other ∈ rest
        · rw [if_pos hmem, if_pos hpath, htwice, if_pos (.inl hpath)]
        · rw [if_neg hmem, if_pos hpath, if_pos (.inl hpath)]
      · simp only [hpath, if_false, false_or]
    rw [hknown, hcredit] at hrest
    exact hrest

/-- What a walk holds of the blobs that matched and of the paths it has met. -/
structure Carried (find : Text → List Found) (hits : Hits) (A B : Text → Attribution)
    (known : Text → Prop) (walk : Walk) : Prop where
  blobs : Held hits A walk.blobs
  paths : Noted find known B walk.paths

variable {walk : Walk}

theorem Carried.touch (hwalk : Carried find hits A B known walk) (oid path : Text) :
    Carried find hits
      (fun key => credited (oid = key) walk.commit walk.generation (A key))
      (fun other => credited (Beneath path other) walk.commit walk.generation (B other))
      (fun other => known other ∨ Beneath path other) (walk.touch find oid path) where
  blobs := by
    have hblobs := hwalk.blobs.modify oid
      (g := fun blob => (blob.credit walk.commit walk.generation).seenAt path)
      (f := Attribution.add walk.commit walk.generation) (fun _ => rfl) (fun _ => rfl)
    have hcredit : (fun key => credited (oid = key) walk.commit walk.generation (A key)) =
        fun key => if key = oid then (A key).add walk.commit walk.generation else A key := by
      funext key
      by_cases hkey : key = oid
      · rw [if_pos hkey, credited, if_pos hkey.symm]
      · rw [if_neg hkey, credited, if_neg (Ne.symm hkey)]
    rw [hcredit]
    exact hblobs
  paths := by
    have hpaths := hwalk.paths.foldl_get (prefixes path)
      (g := Pending.credit walk.commit walk.generation)
      (f := Attribution.add walk.commit walk.generation) (fun _ => rfl) (fun _ => rfl)
      (fun _ => add_add)
    simp only [mem_prefixes_iff] at hpaths
    exact hpaths

theorem Carried.touchAll (hwalk : Carried find hits A B known walk) (entries : List Touched) :
    Carried find hits
      (fun key => credited (∃ entry ∈ entries, entry.new.text = key) walk.commit walk.generation
        (A key))
      (fun other => credited (∃ entry ∈ entries, Beneath entry.path other) walk.commit
        walk.generation (B other))
      (fun other => known other ∨ ∃ entry ∈ entries, Beneath entry.path other)
      (touchAll find entries walk) := by
  induction entries generalizing walk known A B with
  | nil =>
    have hnil : touchAll find [] walk = walk := rfl
    simpa [credited, hnil] using hwalk
  | cons first rest ih =>
    have hrest := ih (hwalk.touch first.new.text first.path)
    rw [touchAll_cons]
    have hblobs : (fun key => credited (∃ entry ∈ rest, entry.new.text = key) walk.commit
        walk.generation
          (credited (first.new.text = key) walk.commit walk.generation (A key))) =
        fun key => credited (∃ entry ∈ first :: rest, entry.new.text = key) walk.commit
          walk.generation (A key) := by
      funext key
      exact credited_credited (List.exists_mem_cons_iff ..)
    have hpaths : (fun other => credited (∃ entry ∈ rest, Beneath entry.path other) walk.commit
        walk.generation
          (credited (Beneath first.path other) walk.commit walk.generation (B other))) =
        fun other => credited (∃ entry ∈ first :: rest, Beneath entry.path other) walk.commit
          walk.generation (B other) := by
      funext other
      exact credited_credited (List.exists_mem_cons_iff ..)
    have hknown : (fun other => (known other ∨ Beneath first.path other) ∨
        ∃ entry ∈ rest, Beneath entry.path other) =
        fun other => known other ∨ ∃ entry ∈ first :: rest, Beneath entry.path other := by
      funext other
      rw [or_assoc, List.exists_mem_cons_iff]
    rw [← hblobs, ← hpaths, ← hknown]
    exact hrest

end Hits

/-- After the commits `done`, every hit is counted for those of them that carry it. -/
structure Walked (find : Text → List Found) (h : History) (hits : Hits) (done : List Text)
    (A B : Text → Attribution) (walk : Walk) : Prop where
  carried : Carried find hits A B (fun path => ∃ commit ∈ done, h.Touches path commit) walk
  writers : ∀ oid, Counted (done.filter fun commit => h.Writes oid commit) done.length (A oid)
  touchers : ∀ path,
    Counted (done.filter fun commit => h.Touches path commit) done.length (B path)
  generation : walk.generation = done.length
  commit : walk.commit = done.getLast?.getD []

theorem walked_nil (find : Text → List Found) (h : History) (hits : Hits) :
    Walked find h hits [] (fun _ => {}) (fun _ => {}) { blobs := hits.pending } where
  carried := ⟨held_pending hits, by simpa using noted_nil⟩
  writers := fun _ => counted_nil
  touchers := fun _ => counted_nil
  generation := rfl
  commit := rfl

section Commits

variable {hits : Hits} {done : List Text} {A B : Text → Attribution} {walk : Walk}

theorem enter_new (hne : commit ≠ walk.commit) :
    walk.enter commit = { walk with commit, generation := walk.generation + 1 } := by
  rw [Walk.enter, if_neg hne]

theorem Walked.commit_step (hwalk : Walked find h hits done A B walk) (hne : commit ≠ [])
    (hnew : commit ∉ done) :
    Walked find h hits (done ++ [commit])
      (fun oid => credited (h.Writes oid commit) commit (done.length + 1) (A oid))
      (fun path => credited (h.Touches path commit) commit (done.length + 1) (B path))
      (walkCommit find h walk commit) := by
  have hcommit : commit ≠ walk.commit := by
    rw [hwalk.commit]
    cases hlast : done.getLast? with
    | none => exact hne
    | some last =>
      rintro rfl
      exact hnew (List.mem_of_getLast? hlast)
  have hentered : Carried find hits A B (fun path => ∃ commit ∈ done, h.Touches path commit)
      (walk.enter commit) := by
    rw [enter_new hcommit]
    exact ⟨hwalk.carried.blobs, hwalk.carried.paths⟩
  have hgeneration : (walk.enter commit).generation = done.length + 1 := by
    rw [enter_new hcommit, ← hwalk.generation]
  have hcarried := hentered.touchAll (h.printed commit).flatten
  rw [hgeneration, commit_enter] at hcarried
  have hwrites : (fun oid => credited (∃ entry ∈ (h.printed commit).flatten, entry.new.text = oid)
      commit (done.length + 1) (A oid)) =
      fun oid => credited (h.Writes oid commit) commit (done.length + 1) (A oid) := by
    funext oid
    exact credited_congr (exists_printed_iff fun entry => entry.new.text = oid)
  have htouches : ∀ path, (∃ entry ∈ (h.printed commit).flatten, Beneath entry.path path) ↔
      h.Touches path commit :=
    fun path => exists_printed_iff fun entry => Beneath entry.path path
  have htouched : (fun path => credited (∃ entry ∈ (h.printed commit).flatten,
      Beneath entry.path path) commit (done.length + 1) (B path)) =
      fun path => credited (h.Touches path commit) commit (done.length + 1) (B path) := by
    funext path
    exact credited_congr (htouches path)
  have hknown : (fun path => (∃ commit ∈ done, h.Touches path commit) ∨
      ∃ entry ∈ (h.printed commit).flatten, Beneath entry.path path) =
      fun path => ∃ other ∈ done ++ [commit], h.Touches path other := by
    funext path
    rw [htouches]
    simp [or_and_right, exists_or]
  rw [hwrites, htouched, hknown] at hcarried
  refine ⟨hcarried, fun oid => ?_, fun path => ?_, ?_, ?_⟩
  · rw [filter_append_singleton, List.length_append, List.length_singleton]
    exact (hwalk.writers oid).credited _
  · rw [filter_append_singleton, List.length_append, List.length_singleton]
    exact (hwalk.touchers path).credited _
  · rw [walkCommit, generation_touchAll, hgeneration, List.length_append, List.length_singleton]
  · rw [walkCommit, commit_touchAll, commit_enter, List.getLast?_concat]
    rfl

theorem walked_commits (find : Text → List Found) (h : History) (hits : Hits) :
    ∃ A B, Walked find h hits h.commits A B
      (h.commits.foldl (walkCommit find h) { blobs := hits.pending }) := by
  have hrun : ∀ done rest, done ++ rest = h.commits →
      ∃ A B, Walked find h hits done A B
        (done.foldl (walkCommit find h) { blobs := hits.pending }) := by
    intro done
    induction done using List.reverseRecOn with
    | nil => exact fun _ _ => ⟨_, _, walked_nil find h hits⟩
    | append_singleton done commit ih =>
      intro rest hrest
      have hsplit : done ++ commit :: rest = h.commits := by
        rw [← hrest, List.append_assoc, List.singleton_append]
      obtain ⟨A, B, hwalk⟩ := ih (commit :: rest) hsplit
      have hmem : commit ∈ h.commits := hsplit ▸ by simp
      have hnew : commit ∉ done := by
        have hnodup := hsplit ▸ h.nodup
        exact fun hdone => (List.nodup_append.mp hnodup).2.2 commit hdone commit
          List.mem_cons_self rfl
      rw [List.foldl_concat]
      exact ⟨_, _, hwalk.commit_step (h.hash commit hmem).1 hnew⟩
  exact hrun h.commits [] (List.append_nil _)

end Commits

/-! ## Commitless refs -/

/-- The tree the ref `name` names is listed with an entry at `path`. A ref that names one of the
blobs that matched is not listed. -/
def Lists (git : Git) (blobs : List Text) (name path : Text) : Prop :=
  ∃ oid listing entry header,
    (git.revParse (name ++ "^{}".toList)).map trim = some oid ∧ oid ∉ blobs ∧
      (git.catFile oid).map trim = some "tree".toList ∧ git.lsTree oid = some listing ∧
      entry ∈ entriesOf listing ∧ splitOnce '\t' entry = some (header, path)

section Commitless

variable {hits : Hits} {A B : Text → Attribution} {known : Text → Prop} {reading : Reading}

/-- What a reading holds of the blobs that matched and of the paths met. -/
structure Kept (find : Text → List Found) (hits : Hits) (A B : Text → Attribution)
    (known : Text → Prop) (reading : Reading) : Prop where
  blobs : Held hits A reading.blobs
  paths : Noted find known B reading.paths

theorem Held.modify_id {blobs : Dict Text Pending} {g : Pending → Pending}
    (hblobs : Held hits A blobs) (oid : Text) (hfound : ∀ hit, (g hit).found = hit.found)
    (hattribution : ∀ hit, (g hit).attribution = hit.attribution) :
    Held hits A (Dict.modify oid g blobs) := by
  have hmodified := hblobs.modify oid (f := id) hfound hattribution
  simpa only [id, ite_self] using hmodified

theorem Noted.congr {known' : Text → Prop} {paths : Paths} (hpaths : Noted find known B paths)
    (hknown : ∀ path, known path ↔ known' path) : Noted find known' B paths := by
  obtain rfl : known = known' := funext fun path => propext (hknown path)
  exact hpaths

theorem Kept.readEntry (hreading : Kept find hits A B known reading) (name entry : Text) :
    Kept find hits A B
      (fun path => known path ∨ ∃ header, splitOnce '\t' entry = some (header, path))
      (readEntry find name reading entry) := by
  rw [Attribute.readEntry]
  cases hentry : splitOnce '\t' entry with
  | none => exact ⟨hreading.blobs, hreading.paths.congr (by simp)⟩
  | some parts =>
    obtain ⟨header, path⟩ := parts
    refine ⟨?_, ?_⟩
    · dsimp only
      cases (header.splitOn ' ')[2]? with
      | none => exact hreading.blobs
      | some oid =>
        exact hreading.blobs.modify_id
          (g := fun blob => (blob.reachedFrom name).seenAt path) oid (fun _ => rfl)
          (fun _ => rfl)
    · have hpaths := hreading.paths.get path (g := Pending.reachedFrom name) (f := id)
        (fun _ => rfl) (fun _ => rfl)
      simp only [id, ite_self] at hpaths
      exact hpaths.congr fun other => by simp [eq_comm]

theorem Kept.readEntries (hreading : Kept find hits A B known reading) (name : Text)
    (entries : List Text) :
    Kept find hits A B
      (fun path => known path ∨
        ∃ entry ∈ entries, ∃ header, splitOnce '\t' entry = some (header, path))
      (entries.foldl (Attribute.readEntry find name) reading) := by
  induction entries generalizing reading known with
  | nil => exact ⟨hreading.blobs, hreading.paths.congr (by simp)⟩
  | cons entry rest ih =>
    have hrest := ih (hreading.readEntry name entry)
    refine ⟨hrest.blobs, hrest.paths.congr fun path => ?_⟩
    rw [or_assoc, List.exists_mem_cons_iff]

theorem not_lists_of_none {git : Git} {blobs : List Text} {name : Text}
    (hparsed : (git.revParse (name ++ "^{}".toList)).map trim = none) :
    ¬ Lists git blobs name path := by
  rintro ⟨oid, -, -, -, hoid, -⟩
  exact nomatch hparsed.symm.trans hoid

theorem lists_iff {git : Git} {blobs : List Text} {name : Text}
    (hparsed : (git.revParse (name ++ "^{}".toList)).map trim = some oid) :
    Lists git blobs name path ↔
      oid ∉ blobs ∧ (git.catFile oid).map trim = some "tree".toList ∧
        ∃ listing, git.lsTree oid = some listing ∧
          ∃ entry ∈ entriesOf listing, ∃ header, splitOnce '\t' entry = some (header, path) := by
  constructor
  · rintro ⟨other, listing, entry, header, hother, hnot, hkind, hlisting, hentry, hsplit⟩
    obtain rfl := Option.some.inj (hparsed.symm.trans hother)
    exact ⟨hnot, hkind, listing, hlisting, entry, hentry, header, hsplit⟩
  · rintro ⟨hnot, hkind, listing, hlisting, entry, hentry, header, hsplit⟩
    exact ⟨oid, listing, entry, header, hparsed, hnot, hkind, hlisting, hentry, hsplit⟩

theorem Kept.unlisted (hreading : Kept find hits A B known reading) {listed : Text → Prop}
    (hlisted : ∀ path, ¬ listed path) :
    Kept find hits A B (fun path => known path ∨ listed path) reading :=
  ⟨hreading.blobs, hreading.paths.congr fun path => (or_iff_left (hlisted path)).symm⟩

theorem Kept.failed (hreading : Kept find hits A B known reading) :
    Kept find hits A B known { reading with read := false } :=
  ⟨hreading.blobs, hreading.paths⟩

/-- One commitless ref adds the paths it lists and no commit. -/
theorem Kept.readRef (hreading : Kept find hits A B known reading) (git : Git) (name : Text) :
    Kept find hits A B
      (fun path => known path ∨ Lists git (hits.entries.map Prod.fst) name path)
      (readRef find git reading name) := by
  have hkey : ∀ oid, (Dict.get oid reading.blobs).isSome ↔ oid ∈ hits.entries.map Prod.fst := by
    intro oid
    rw [Dict.isSome_get_iff, hreading.blobs.keys]
  rw [Attribute.readRef]
  cases hparsed : (git.revParse (name ++ "^{}".toList)).map trim with
  | none => exact hreading.failed.unlisted fun _ => not_lists_of_none hparsed
  | some oid =>
    simp only [hkey]
    split
    · next hblob =>
      have hmodified : Kept find hits A B known
          { reading with blobs := Dict.modify oid (Pending.reachedFrom name) reading.blobs } :=
        ⟨hreading.blobs.modify_id oid (fun _ => rfl) (fun _ => rfl), hreading.paths⟩
      refine hmodified.unlisted fun path hlists => ?_
      exact ((lists_iff hparsed).mp hlists).1 hblob
    · next hblob =>
      cases hkind : (git.catFile oid).map trim with
      | none =>
        refine hreading.failed.unlisted fun path hlists => ?_
        cases hkind.symm.trans ((lists_iff hparsed).mp hlists).2.1
      | some kind =>
        by_cases htree : kind = "tree".toList
        · simp only [htree, ne_eq, not_true_eq_false, if_false]
          cases hlisting : git.lsTree oid with
          | none =>
            refine hreading.failed.unlisted fun path hlists => ?_
            obtain ⟨-, -, listing, hother, -⟩ := (lists_iff hparsed).mp hlists
            cases hlisting.symm.trans hother
          | some listing =>
            have hentries := hreading.readEntries name (entriesOf listing)
            refine ⟨hentries.blobs, hentries.paths.congr fun path => ?_⟩
            rw [lists_iff hparsed]
            simp [hblob, hkind, htree, hlisting]
        · simp only [htree, ne_eq, not_false_eq_true, if_true]
          refine hreading.unlisted fun path hlists => htree ?_
          exact Option.some.inj (hkind.symm.trans ((lists_iff hparsed).mp hlists).2.1)

theorem commitless_kept (hreading : Kept find hits A B known reading) (git : Git)
    (names : List Text) :
    Kept find hits A B
      (fun path => known path ∨
        ∃ name ∈ names, Lists git (hits.entries.map Prod.fst) name path)
      (commitless find git names reading) := by
  rw [commitless]
  induction names generalizing reading known with
  | nil => exact hreading.unlisted (by simp)
  | cons name rest ih =>
    have hrest := ih (hreading.readRef git name)
    refine ⟨hrest.blobs, hrest.paths.congr fun path => ?_⟩
    rw [or_assoc, List.exists_mem_cons_iff]

end Commitless

/-! ## What is written -/

/-- A gap row, but for the path and the ref it names beside its object. -/
def GapRow.tally (row : GapRow) : Gap × Location × Text × List Nat × Nat × Nat :=
  (row.gap, row.location, row.object, row.terms, row.attributed, row.commits)

/-- The history rows of a hit that these commits carry: for each of its rules, the first of
them. -/
def rowsOf (location : Location) (key : Text) (found : List Found) (carriers : List Text) :
    List HistoryRow :=
  historyRows location key found (carriers.take maxAttribution)

/-- The gap row of a hit that these commits carry: where there is none, or more than are listed. -/
def gapsOf (location : Location) (key : Text) (found : List Found) (carriers : List Text) :
    List (Gap × Location × Text × List Nat × Nat × Nat) :=
  if carriers.length = 0 then [(.unattributed, location, key, found.map Found.rule, 0, 0)]
  else if (carriers.take maxAttribution).length < carriers.length then
    [(.attributionTruncated, location, key, found.map Found.rule,
      (carriers.take maxAttribution).length, carriers.length)]
  else []

section Rows

variable {location : Location} {key : Text} {hit : Pending} {carriers : List Text}
  {report : Report}

theorem rows_of_counted (hcounted : Counted carriers generation hit.attribution) :
    historyRows location key hit.found hit.attribution.commits =
      rowsOf location key hit.found carriers := by
  rw [rowsOf, hcounted.commits]

theorem gaps_of_counted (hcounted : Counted carriers generation hit.attribution) :
    (hit.attribution.gap.map (gapRow location key hit)).toList.map GapRow.tally =
      gapsOf location key hit.found carriers := by
  rw [Attribution.gap, gapsOf, hcounted.total]
  by_cases hnone : carriers.length = 0
  · have hnil : carriers = [] := List.length_eq_zero_iff.mp hnone
    have htotal := hcounted.total
    have hcommits := hcounted.commits
    subst hnil
    simp [GapRow.tally, gapRow, htotal, hcommits]
  · rw [if_neg hnone, if_neg hnone, hcounted.commits]
    split
    · simp [GapRow.tally, gapRow, hcounted.total, hcounted.commits]
    · rfl

theorem history_foldl_emit (entries : List (Text × Pending)) :
    (entries.foldl (emit location) report).history =
      report.history ++ entries.flatMap fun entry =>
        historyRows location entry.1 entry.2.found entry.2.attribution.commits := by
  induction entries generalizing report with
  | nil => exact (List.append_nil _).symm
  | cons entry rest ih =>
    rw [List.foldl_cons, ih, List.flatMap_cons, ← List.append_assoc]
    rfl

theorem gaps_foldl_emit (entries : List (Text × Pending)) :
    (entries.foldl (emit location) report).gaps =
      report.gaps ++ entries.flatMap fun entry =>
        (entry.2.attribution.gap.map (gapRow location entry.1 entry.2)).toList := by
  induction entries generalizing report with
  | nil => exact (List.append_nil _).symm
  | cons entry rest ih =>
    rw [List.foldl_cons, ih, List.flatMap_cons, ← List.append_assoc]
    rfl

theorem foldl_emitPath (head : List Text) (entries : List (Text × Pending)) :
    (entries.foldl (emitPath head) report).history =
        (entries.foldl (emit .path) report).history ∧
      (entries.foldl (emitPath head) report).gaps =
        (entries.foldl (emit .path) report).gaps := by
  induction entries generalizing report with
  | nil => exact ⟨rfl, rfl⟩
  | cons entry rest ih =>
    rw [List.foldl_cons, List.foldl_cons, ih.1, ih.2, history_foldl_emit, history_foldl_emit,
      gaps_foldl_emit, gaps_foldl_emit]
    exact ⟨rfl, rfl⟩

end Rows

section Matched

variable {known : Text → Prop} {B : Text → Attribution} {paths : Paths}

theorem matched_perm (paths : Paths) :
    List.Perm (matched paths)
      (paths.filterMap fun entry => entry.2.map fun hit => (entry.1, hit)) :=
  List.mergeSort_perm _ _

theorem mem_matched {entry : Text × Pending} :
    entry ∈ matched paths ↔ (entry.1, some entry.2) ∈ paths := by
  rw [(matched_perm paths).mem_iff, List.mem_filterMap]
  constructor
  · rintro ⟨⟨path, hit⟩, hmem, hentry⟩
    cases hit with
    | none => cases hentry
    | some hit =>
      obtain rfl := Option.some.inj hentry
      exact hmem
  · exact fun hmem => ⟨(entry.1, some entry.2), hmem, rfl⟩

theorem sublist_keys (paths : Paths) :
    ((paths.filterMap fun entry => entry.2.map fun hit => (entry.1, hit)).map Prod.fst).Sublist
      (paths.map Prod.fst) := by
  induction paths with
  | nil => exact .slnil
  | cons entry rest ih =>
    obtain ⟨path, hit⟩ := entry
    cases hit with
    | none => exact ih.cons path
    | some hit => exact ih.cons_cons path

theorem Noted.nodup_matched (hpaths : Noted find known B paths) :
    ((matched paths).map Prod.fst).Nodup :=
  ((matched_perm paths).map Prod.fst).nodup_iff.mpr ((sublist_keys paths).nodup hpaths.nodup)

theorem Noted.of_mem_matched (hpaths : Noted find known B paths) {entry : Text × Pending}
    (hentry : entry ∈ matched paths) :
    find entry.1 ≠ [] ∧ entry.2.found = find entry.1 ∧ entry.2.attribution = B entry.1 := by
  have hhit := hpaths.hits _ (mem_matched.mp hentry)
  split at hhit
  · cases hhit
  · next hfound =>
    obtain ⟨hsame, hattribution⟩ := Prod.mk.inj (Option.some.inj hhit)
    exact ⟨fun hnil => hfound (List.isEmpty_iff.mpr hnil), hsame, hattribution⟩

theorem Noted.mem_matched_iff (hpaths : Noted find known B paths) :
    path ∈ (matched paths).map Prod.fst ↔ known path ∧ find path ≠ [] := by
  constructor
  · intro hpath
    obtain ⟨entry, hentry, rfl⟩ := List.mem_map.mp hpath
    refine ⟨(hpaths.known_iff _).mp (List.mem_map_of_mem (mem_matched.mp hentry)), ?_⟩
    exact (hpaths.of_mem_matched hentry).1
  · rintro ⟨hknown, hfound⟩
    obtain ⟨⟨other, hit⟩, hmem, rfl⟩ := List.mem_map.mp ((hpaths.known_iff path).mpr hknown)
    have hhit := hpaths.hits _ hmem
    rw [if_neg fun hempty => hfound (List.isEmpty_iff.mp hempty)] at hhit
    cases hit with
    | none => cases hhit
    | some hit => exact List.mem_map.mpr ⟨(other, hit), mem_matched.mpr hmem, rfl⟩

end Matched

/-- What is written of a history, of the blobs that matched in it and of its paths. -/
def reportOf (find : Text → List Found) (h : History) (hits : Hits) (git : Git) (exited : Bool)
    (head names : List Text) : Report :=
  (attributeHits find git exited h.rawLog head names hits.pending).2

section Report

variable {hits : Hits} {A B : Text → Attribution} {blobs : Dict Text Pending}

theorem Held.flatMap_eq {γ : Type} (hblobs : Held hits A blobs)
    (written : Text × Pending → List γ) (given : Text → List Found → List γ)
    (hsame : ∀ entry : Text × Pending,
      entry.2.attribution = A entry.1 → written entry = given entry.1 entry.2.found) :
    blobs.flatMap written = hits.entries.flatMap fun entry => given entry.1 entry.2 := by
  have hgiven := congrArg
    (List.flatMap fun entry : Text × List Found × Attribution => given entry.1 entry.2.1) hblobs
  rw [List.flatMap_map, List.flatMap_map] at hgiven
  refine Eq.trans (List.flatMap_congr fun entry hentry => hsame entry ?_) hgiven
  have hmem : (entry.1, entry.2.found, entry.2.attribution) ∈
      hits.entries.map fun entry => (entry.1, entry.2, A entry.1) :=
    hblobs ▸ List.mem_map_of_mem hentry
  obtain ⟨given, -, heq⟩ := List.mem_map.mp hmem
  obtain ⟨hkey, hrest⟩ := Prod.mk.inj heq
  rw [← (Prod.mk.inj hrest).2, hkey]

/-- The rows of every hit: for each of the paths that match and for each of the blobs, those of
the commits that carry it. -/
theorem exists_report (find : Text → List Found) (h : History) (hits : Hits) (git : Git)
    (exited : Bool) (head names : List Text) :
    ∃ paths : List Text, paths.Nodup ∧
      (∀ path, path ∈ paths ↔
        ((∃ commit ∈ h.commits, h.Touches path commit) ∨
          ∃ name ∈ names, Lists git (hits.entries.map Prod.fst) name path) ∧ find path ≠ []) ∧
      (reportOf find h hits git exited head names).history =
        (paths.flatMap fun path => rowsOf .path path (find path) (h.touchers path)) ++
          (hits.entries.flatMap fun blob => rowsOf .blob blob.1 blob.2 (h.writers blob.1)) ∧
      (reportOf find h hits git exited head names).gaps.map GapRow.tally =
        (paths.flatMap fun path => gapsOf .path path (find path) (h.touchers path)) ++
          hits.entries.flatMap fun blob => gapsOf .blob blob.1 blob.2 (h.writers blob.1) := by
  obtain ⟨A, B, hwalk⟩ := walked_commits find h hits
  have hread : (split h.rawLog).foldl (read find) { blobs := hits.pending } =
      h.commits.foldl (walkCommit find h) { blobs := hits.pending } := foldl_read_rawLog rfl
  set walk := h.commits.foldl (walkCommit find h) { blobs := hits.pending }
  set reading := commitless find git names { blobs := walk.blobs, paths := walk.paths } with hset
  have hcarried : Kept find hits A B (fun path => ∃ commit ∈ h.commits, h.Touches path commit)
      { blobs := walk.blobs, paths := walk.paths } := ⟨hwalk.carried.blobs, hwalk.carried.paths⟩
  have hkept := commitless_kept hcarried git names
  rw [← hset] at hkept
  have hreport : reportOf find h hits git exited head names =
      reading.blobs.foldl (emit .blob) ((matched reading.paths).foldl (emitPath head)
        { commitlessRefs := names.length, paths := reading.paths.length }) := by
    rw [reportOf, attributeHits, hread]
  refine ⟨(matched reading.paths).map Prod.fst, hkept.paths.nodup_matched,
    fun path => hkept.paths.mem_matched_iff, ?_, ?_⟩
  · rw [hreport, history_foldl_emit, (foldl_emitPath head _).1, history_foldl_emit,
      List.nil_append, List.flatMap_map]
    congr 1
    · refine List.flatMap_congr fun entry hentry => ?_
      obtain ⟨-, hfound, hattribution⟩ := hkept.paths.of_mem_matched hentry
      rw [← hfound]
      exact rows_of_counted (hattribution ▸ hwalk.touchers entry.1)
    · refine hkept.blobs.flatMap_eq _ (fun key found => rowsOf .blob key found (h.writers key))
        fun entry hattribution => ?_
      exact rows_of_counted (hattribution ▸ hwalk.writers entry.1)
  · rw [hreport, gaps_foldl_emit, (foldl_emitPath head _).2, gaps_foldl_emit, List.nil_append,
      List.map_append, List.map_flatMap, List.map_flatMap, List.flatMap_map]
    congr 1
    · refine List.flatMap_congr fun entry hentry => ?_
      obtain ⟨-, hfound, hattribution⟩ := hkept.paths.of_mem_matched hentry
      rw [← hfound]
      exact gaps_of_counted (hattribution ▸ hwalk.touchers entry.1)
    · refine hkept.blobs.flatMap_eq _ (fun key found => gapsOf .blob key found (h.writers key))
        fun entry hattribution => ?_
      exact gaps_of_counted (hattribution ▸ hwalk.writers entry.1)

theorem exists_row (location : Location) (key : Text) {found : List Found} (carriers : List Text)
    {rule : Found} (hrule : rule ∈ found) :
    (∃ commit ∈ carriers, ∃ row ∈ rowsOf location key found carriers,
      row = ⟨commit, rule.rule, location, location.pathOf key, rule.snippet⟩) ∨
      ∃ gap ∈ gapsOf location key found carriers, gap.2.1 = location ∧ gap.2.2.1 = key ∧
        rule.rule ∈ gap.2.2.2.1 := by
  cases carriers with
  | nil =>
    refine .inr ⟨(.unattributed, location, key, found.map Found.rule, 0, 0), ?_, rfl, rfl, ?_⟩
    · exact List.mem_singleton.mpr rfl
    · exact List.mem_map_of_mem hrule
  | cons commit rest =>
    refine .inl ⟨commit, List.mem_cons_self, _, ?_, rfl⟩
    refine List.mem_flatMap.mpr ⟨rule, hrule, List.mem_map.mpr ⟨commit, ?_, rfl⟩⟩
    exact List.mem_cons_self

/-- Every hit is attributed: the paths that have rows are those known that match, each of them
and each of the blobs has the rows of the distinct commits that carry it, and no hit is without a
row. -/
theorem attributed_hits (find : Text → List Found) (h : History) (hits : Hits) (git : Git)
    (exited : Bool) (head names : List Text) :
    ∃ paths : List Text, paths.Nodup ∧
      (∀ path, path ∈ paths ↔
        ((∃ commit ∈ h.commits, h.Touches path commit) ∨
          ∃ name ∈ names, Lists git (hits.entries.map Prod.fst) name path) ∧ find path ≠ []) ∧
      (reportOf find h hits git exited head names).history =
        (paths.flatMap fun path => rowsOf .path path (find path) (h.touchers path)) ++
          (hits.entries.flatMap fun blob => rowsOf .blob blob.1 blob.2 (h.writers blob.1)) ∧
      (reportOf find h hits git exited head names).gaps.map GapRow.tally =
        (paths.flatMap fun path => gapsOf .path path (find path) (h.touchers path)) ++
          (hits.entries.flatMap fun blob => gapsOf .blob blob.1 blob.2 (h.writers blob.1)) ∧
      (∀ path ∈ paths, ∀ rule ∈ find path,
        (∃ row ∈ (reportOf find h hits git exited head names).history,
          row.path = some path ∧ row.term = rule.rule) ∨
        ∃ row ∈ (reportOf find h hits git exited head names).gaps,
          row.location = .path ∧ row.object = path ∧ rule.rule ∈ row.terms) ∧
      ∀ blob ∈ hits.entries, ∀ rule ∈ blob.2,
        (∃ row ∈ (reportOf find h hits git exited head names).history,
          row.location = .blob ∧ row.commit ∈ h.writers blob.1 ∧ row.term = rule.rule) ∨
        ∃ row ∈ (reportOf find h hits git exited head names).gaps,
          row.location = .blob ∧ row.object = blob.1 ∧ rule.rule ∈ row.terms := by
  obtain ⟨paths, hnodup, hpaths, hhistory, hgaps⟩ :=
    exists_report find h hits git exited head names
  -- A gap row is found by what its tally says.
  have hgap : ∀ gap ∈ (reportOf find h hits git exited head names).gaps.map GapRow.tally,
      ∃ row ∈ (reportOf find h hits git exited head names).gaps,
        row.location = gap.2.1 ∧ row.object = gap.2.2.1 ∧ row.terms = gap.2.2.2.1 := by
    intro gap hmem
    obtain ⟨row, hrow, rfl⟩ := List.mem_map.mp hmem
    exact ⟨row, hrow, rfl, rfl, rfl⟩
  refine ⟨paths, hnodup, hpaths, hhistory, hgaps, fun path hpath rule hrule => ?_,
    fun blob hblob rule hrule => ?_⟩
  · rcases exists_row .path path (h.touchers path) hrule with
      ⟨commit, -, row, hrow, heq⟩ | ⟨gap, hmem, hlocation, hkey, hterm⟩
    · refine .inl ⟨row, ?_, by rw [heq]; rfl, by rw [heq]⟩
      rw [hhistory, List.mem_append]
      exact .inl (List.mem_flatMap.mpr ⟨path, hpath, hrow⟩)
    · obtain ⟨row, hrow, hat, hobject, hterms⟩ := hgap gap (by
        rw [hgaps, List.mem_append]
        exact .inl (List.mem_flatMap.mpr ⟨path, hpath, hmem⟩))
      exact .inr ⟨row, hrow, hat.trans hlocation, hobject.trans hkey, hterms ▸ hterm⟩
  · rcases exists_row .blob blob.1 (h.writers blob.1) hrule with
      ⟨commit, hcommit, row, hrow, heq⟩ | ⟨gap, hmem, hlocation, hkey, hterm⟩
    · refine .inl ⟨row, ?_, by rw [heq], by rw [heq]; exact hcommit, by rw [heq]⟩
      rw [hhistory, List.mem_append]
      exact .inr (List.mem_flatMap.mpr ⟨blob, hblob, hrow⟩)
    · obtain ⟨row, hrow, hat, hobject, hterms⟩ := hgap gap (by
        rw [hgaps, List.mem_append]
        exact .inr (List.mem_flatMap.mpr ⟨blob, hblob, hmem⟩))
      exact .inr ⟨row, hrow, hat.trans hlocation, hobject.trans hkey, hterms ▸ hterm⟩

end Report

end Onevcs.Audit.Attribute
