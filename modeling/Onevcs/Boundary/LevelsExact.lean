import Mathlib.Data.List.Chain
import Onevcs.Boundary.Levels

/-!
# When the cached walk is the plain one

The reader stops its walk at the nearest directory it has read already, and takes the
rest from its cache. That is the plain walk while every directory above a cached one
that holds anything is cached too. `LevelReader::ancestors` keeps it so among its own
calls; a fallback directory, which is cached without the directories above it, does not.

The theorem is exact: in every state a new reader reaches, the answer is the plain
walk's if and only if a directory it reads is refused, or the cache is complete above
the nearest directory it holds.
-/

set_option linter.unusedSectionVars false

namespace Onevcs.Boundary

variable {ν δ ε : Type} [DecidableEq ν] {crate : Privateterms ν δ ε} {tree : Tree ν δ}

/-- Each directory is the parent of the one before it. -/
def Climbs (dirs : List (Dir ν)) : Prop := dirs.IsChain fun lower upper => ∃ c, lower = c :: upper

theorem climbs_walkFrom (inside : Bool) (home : Option (Dir ν)) (dir : Dir ν) :
    Climbs (walkFrom inside home dir) ∧
      ∀ first ∈ (walkFrom inside home dir).head?, first = dir := by
  induction dir with
  | nil =>
    unfold walkFrom
    split
    · exact ⟨List.isChain_singleton _, by simp⟩
    · exact ⟨List.isChain_nil, by simp⟩
  | cons component up ih =>
    unfold walkFrom
    split
    · exact ⟨List.isChain_singleton _, by simp⟩
    · refine ⟨List.isChain_cons.mpr ⟨fun first hfirst => ?_, ih.1⟩, by simp⟩
      exact ⟨component, by rw [ih.2 first hfirst]⟩

theorem climbs_walk (checkout : Dir ν) (home : Option (Dir ν)) : Climbs (walk checkout home) := by
  unfold walk
  split
  · exact List.isChain_nil
  · split
    · exact List.isChain_nil
    · exact (climbs_walkFrom _ home _).1

theorem Climbs.between_eq {start : Dir ν} {rest : List (Dir ν)} (h : Climbs (start :: rest)) :
    between start ((start :: rest).getLast (List.cons_ne_nil _ _)) = start :: rest ∧
      (start :: rest).getLast (List.cons_ne_nil _ _) <:+ start := by
  induction rest generalizing start with
  | nil => exact ⟨by rw [between.eq_def]; simp, List.suffix_refl _⟩
  | cons next rest ih =>
    obtain ⟨hstep, hrest⟩ := List.isChain_cons_cons.mp h
    obtain ⟨c, rfl⟩ := hstep
    obtain ⟨hbetween, hsuffix⟩ := ih hrest
    rw [List.getLast_cons (List.cons_ne_nil _ _)]
    have hne : c :: next ≠ (next :: rest).getLast (List.cons_ne_nil _ _) := by
      intro heq
      have hlength := hsuffix.length_le
      rw [← heq, List.length_cons] at hlength
      omega
    refine ⟨?_, hsuffix.trans (List.suffix_cons c next)⟩
    rw [between.eq_def, if_neg hne]
    simp only [hbetween]

/-- Every directory the reader has cached holds what the cache says. -/
def LevelReader.Sound (reader : LevelReader ν δ) (tree : Tree ν δ) : Prop :=
  ∀ dir level, reader.cache dir = some level →
    level.map (fun found => (found.dir, found.declaration)) = declared tree dir ∧
      tree dir ≠ .refused

theorem declared_fst {dir : Dir ν} {pair : Dir ν × δ} (h : declared tree dir = some pair) :
    pair.1 = dir := by
  unfold declared at h
  split at h
  · obtain rfl := Option.some.inj h
    rfl
  · cases h

theorem find_declared (dirs : List (Dir ν)) (dir : Dir ν) :
    ((dirs.filterMap (declared tree)).find? fun pair => pair.1 = dir) =
      if dir ∈ dirs then declared tree dir else none := by
  induction dirs with
  | nil => rfl
  | cons first rest ih =>
    by_cases hfirst : first = dir
    · subst hfirst
      cases hdeclared : declared tree first with
      | none => simp [hdeclared, ih]
      | some pair => simp [hdeclared, declared_fst hdeclared]
    · cases hdeclared : declared tree first with
      | none => simp [hdeclared, ih, Ne.symm hfirst]
      | some pair => simp [hdeclared, declared_fst hdeclared, hfirst, ih, Ne.symm hfirst]

theorem find_found {dirs : List (Dir ν)} {found : List (Level ν δ)}
    (hfound : found.map (fun level => (level.dir, level.declaration)) =
      dirs.filterMap (declared tree)) {dir : Dir ν} (hdir : dir ∈ dirs) :
    (found.find? fun level => level.dir = dir).map (fun level => (level.dir, level.declaration)) =
      declared tree dir := by
  calc (found.find? fun level => level.dir = dir).map
        (fun level => (level.dir, level.declaration))
      = (found.map fun level => (level.dir, level.declaration)).find?
          fun pair => pair.1 = dir := by
        rw [List.find?_map]
        rfl
    _ = declared tree dir := by rw [hfound, find_declared, if_pos hdir]

namespace LevelReader

/-- The directories above a checkout below the nearest one already read. -/
def unreadBelow (reader : LevelReader ν δ) (checkout : Dir ν) : List (Dir ν) :=
  (walk checkout reader.home).takeWhile fun dir => (reader.cache dir).isNone

theorem climbs_unreadBelow (reader : LevelReader ν δ) (checkout : Dir ν) :
    Climbs (reader.unreadBelow checkout) := by
  have hparts : reader.unreadBelow checkout ++
      (walk checkout reader.home).dropWhile (fun dir => (reader.cache dir).isNone) =
        walk checkout reader.home := List.takeWhile_append_dropWhile
  have hclimbs := climbs_walk checkout reader.home
  rw [← hparts] at hclimbs
  exact hclimbs.left_of_append

variable {reader : LevelReader ν δ}

theorem take_unread (checkout : Dir ν) :
    (walk checkout reader.home).take (reader.unread (walk checkout reader.home)) =
      reader.unreadBelow checkout := by
  have hnot : (fun dir => (reader.cache dir).isNone) = fun dir => !(reader.cache dir).isSome := by
    funext dir
    exact (Option.not_isSome (reader.cache dir)).symm
  rw [unread, unreadBelow, hnot, List.takeWhile_eq_take_findIdx_not]
  simp

theorem remember_home (found : List (Level ν δ)) (dirs : List (Dir ν)) :
    (reader.remember found dirs).home = reader.home := by
  induction dirs generalizing reader with
  | nil => rfl
  | cons dir rest ih => exact ih

theorem remember_cache (found : List (Level ν δ)) (dirs : List (Dir ν)) (dir : Dir ν) :
    (reader.remember found dirs).cache dir =
      if dir ∈ dirs then
        some ((found.find? fun level => level.dir = dir).map fun level =>
          { level with kind := .directory })
      else reader.cache dir := by
  induction dirs generalizing reader with
  | nil => rfl
  | cons first rest ih =>
    rw [remember, ih]
    by_cases hrest : dir ∈ rest
    · simp [hrest]
    · by_cases hfirst : dir = first
      · subst hfirst
        simp [hrest]
      · simp [hrest, hfirst]

/-- `after` is `reader` with what the tree holds of `dirs` cached as well. -/
structure Learns (tree : Tree ν δ) (reader after : LevelReader ν δ) (dirs : List (Dir ν)) :
    Prop where
  home : after.home = reader.home
  readable : ∀ dir ∈ dirs, tree dir ≠ .refused
  learnt : ∀ dir ∈ dirs, ∃ level, after.cache dir = some level ∧
    level.map (fun found => (found.dir, found.declaration)) = declared tree dir
  kept : ∀ dir ∉ dirs, after.cache dir = reader.cache dir

theorem Learns.refl (tree : Tree ν δ) (reader : LevelReader ν δ) : Learns tree reader reader [] where
  home := rfl
  readable := by simp
  learnt := by simp
  kept _ _ := rfl

theorem Learns.sound {after : LevelReader ν δ} {dirs : List (Dir ν)}
    (h : Learns tree reader after dirs) (hs : reader.Sound tree) : after.Sound tree := by
  intro dir level hlevel
  by_cases hdir : dir ∈ dirs
  · obtain ⟨known, hknown, hdeclared⟩ := h.learnt dir hdir
    rw [hknown] at hlevel
    obtain rfl := Option.some.inj hlevel
    exact ⟨hdeclared, h.readable dir hdir⟩
  · rw [h.kept dir hdir] at hlevel
    exact hs dir level hlevel

theorem level_learns (reader : LevelReader ν δ) (hdoc : crate.Documented tree) (dir : Dir ν) (kind : LevelKind) :
    Learns tree reader (reader.level crate dir kind).2 [] ∨
      Learns tree reader (reader.level crate dir kind).2 [dir] := by
  unfold level
  split
  · exact .inl (.refl tree reader)
  · cases htree : tree dir with
    | refused =>
      obtain ⟨e, he⟩ := hdoc.read_refused dir kind htree
      rw [he]
      exact .inl (.refl tree reader)
    | nothing =>
      rw [hdoc.read_nothing dir kind htree]
      refine .inr ⟨rfl, by simp [htree], ?_, ?_⟩
      · simp [declared, htree]
      · intro other hother
        simp at hother
        simp [hother]
    | declares declaration =>
      rw [hdoc.read_declares dir kind declaration htree]
      refine .inr ⟨rfl, by simp [htree], ?_, ?_⟩
      · simp [declared, htree]
      · intro other hother
        simp at hother
        simp [hother]

theorem ancestors_refused (hdoc : crate.Documented tree) {checkout : Dir ν}
    (h : ∃ dir ∈ reader.unreadBelow checkout, tree dir = .refused) :
    ∃ e, reader.ancestors crate checkout = (.error e, reader) := by
  have hclimbs : Climbs (reader.unreadBelow checkout) :=
    climbs_unreadBelow reader checkout
  unfold ancestors
  simp only [take_unread]
  split
  · rename_i hnil
    obtain ⟨dir, hdir, -⟩ := h
    rw [hnil] at hdir
    cases hdir
  · rename_i start rest hcons
    rw [hcons] at h hclimbs
    obtain ⟨hbetween, hsuffix⟩ := hclimbs.between_eq
    obtain ⟨e, he⟩ := hdoc.discover_refused start _ hsuffix (by rwa [hbetween])
    rw [he]
    exact ⟨e, rfl⟩

theorem ancestors_learns (hdoc : crate.Documented tree) {checkout : Dir ν}
    (h : ∀ dir ∈ reader.unreadBelow checkout, tree dir ≠ .refused) :
    ∃ after : LevelReader ν δ,
      reader.ancestors crate checkout = (.ok (after.answer (walk checkout reader.home)), after) ∧
        Learns tree reader after (reader.unreadBelow checkout) := by
  have hclimbs : Climbs (reader.unreadBelow checkout) :=
    climbs_unreadBelow reader checkout
  unfold ancestors
  simp only [take_unread]
  split
  · rename_i hnil
    rw [hnil]
    exact ⟨reader, rfl, .refl tree reader⟩
  · rename_i start rest hcons
    rw [hcons] at h hclimbs ⊢
    obtain ⟨hbetween, hsuffix⟩ := hclimbs.between_eq
    obtain ⟨found, hok, hfound⟩ := hdoc.discover_found start _ hsuffix (by rwa [hbetween])
    rw [hbetween] at hfound
    rw [hok]
    refine ⟨reader.remember found (start :: rest), rfl, remember_home _ _, h, ?_, ?_⟩
    · intro dir hdir
      refine ⟨_, by rw [remember_cache, if_pos hdir], ?_⟩
      rw [Option.map_map]
      exact find_found hfound hdir
    · intro dir hdir
      rw [remember_cache, if_neg hdir]

end LevelReader

theorem Call.run_sound (hdoc : crate.Documented tree) (root : Dir ν) {reader : LevelReader ν δ}
    (hs : reader.Sound tree) (call : Call ν) :
    (call.run crate root reader).home = reader.home ∧ (call.run crate root reader).Sound tree := by
  have hlevel (dir : Dir ν) (kind : LevelKind) :
      (reader.level crate dir kind).2.home = reader.home ∧
        (reader.level crate dir kind).2.Sound tree := by
    rcases reader.level_learns hdoc dir kind with hnone | hone
    · exact ⟨hnone.home, hnone.sound hs⟩
    · exact ⟨hone.home, hone.sound hs⟩
  cases call with
  | level dir kind => exact hlevel dir kind
  | fallback => exact hlevel root .fallback
  | ancestors checkout =>
    by_cases hrefused : ∃ dir ∈ reader.unreadBelow checkout, tree dir = .refused
    · obtain ⟨e, he⟩ := LevelReader.ancestors_refused hdoc hrefused
      exact ⟨by simp [Call.run, he], by simpa [Call.run, he] using hs⟩
    · obtain ⟨after, hafter, hlearns⟩ :=
        LevelReader.ancestors_learns hdoc (by simpa using hrefused)
      exact ⟨by simpa [Call.run, hafter] using hlearns.home,
        by simpa [Call.run, hafter] using hlearns.sound hs⟩

theorem afterCalls_sound (hdoc : crate.Documented tree) (root : Dir ν) (home : Option (Dir ν))
    (calls : List (Call ν)) :
    (afterCalls crate root home calls).home = home ∧
      (afterCalls crate root home calls).Sound tree := by
  have hrun : ∀ reader : LevelReader ν δ, reader.home = home → reader.Sound tree →
      (calls.foldl (Call.run crate root) reader).home = home ∧
        (calls.foldl (Call.run crate root) reader).Sound tree := by
    induction calls with
    | nil => exact fun _ hhome hs => ⟨hhome, hs⟩
    | cons call rest ih =>
      intro reader hhome hs
      obtain ⟨hhome', hs'⟩ := call.run_sound hdoc root hs
      exact ih _ (hhome'.trans hhome) hs'
  apply hrun
  · rfl
  · intro dir level hlevel
    cases hlevel

/-! ## The answer -/

/-- Where one filter leaves out some of what another keeps, the results have the same
elements only if it leaves out none. -/
theorem filterMap_eq_iff_of_drops {α β : Type} {f g : α → Option β} {l : List α}
    (hdrops : ∀ a ∈ l, f a = g a ∨ f a = none) :
    l.filterMap f = l.filterMap g ↔ ∀ a ∈ l, f a = g a := by
  have hshorter : ∀ {l : List α}, (∀ a ∈ l, f a = g a ∨ f a = none) →
      (l.filterMap f).length ≤ (l.filterMap g).length := by
    intro l
    induction l with
    | nil => simp
    | cons first rest ih =>
      intro h
      have hrest := ih fun a ha => h a (List.mem_cons_of_mem _ ha)
      rcases h first List.mem_cons_self with hsame | hnone
      · cases hg : g first <;> simp [hsame, hg, hrest]
      · cases hg : g first <;> simp [hnone, hg] <;> omega
  refine ⟨fun heq => ?_, List.filterMap_congr⟩
  induction l with
  | nil => simp
  | cons first rest ih =>
    have hrest := fun a ha => hdrops a (List.mem_cons_of_mem _ ha)
    rcases hdrops first List.mem_cons_self with hsame | hnone
    · have htail : rest.filterMap f = rest.filterMap g := by
        cases hg : g first <;> simpa [hsame, hg] using heq
      exact List.forall_mem_cons.mpr ⟨hsame, ih hrest htail⟩
    · cases hg : g first with
      | none =>
        have htail : rest.filterMap f = rest.filterMap g := by simpa [hnone, hg] using heq
        exact List.forall_mem_cons.mpr ⟨by rw [hnone, hg], ih hrest htail⟩
      | some b =>
        have hlength := congrArg List.length heq
        have hle := hshorter hrest
        simp [hnone, hg] at hlength
        omega

/-- The level a directory declares, as the plain walk answers it. -/
def directoryLevel (tree : Tree ν δ) (dir : Dir ν) : Option (Level ν δ) :=
  (declared tree dir).map fun found => ⟨.directory, found.1, found.2⟩

theorem directoryLevel_eq_none_iff {dir : Dir ν} (h : tree dir ≠ .refused) :
    directoryLevel tree dir = none ↔ tree dir = .nothing := by
  cases htree : tree dir <;> simp_all [directoryLevel, declared]

theorem LevelReader.Sound.cached {reader : LevelReader ν δ} (hs : reader.Sound tree) (dir : Dir ν) :
    ((reader.cache dir).join.map fun level => { level with kind := LevelKind.directory }) =
      if (reader.cache dir).isSome then directoryLevel tree dir else none := by
  cases hcache : reader.cache dir with
  | none => rfl
  | some level =>
    obtain ⟨hdeclared, -⟩ := hs dir level hcache
    rw [directoryLevel, ← hdeclared, Option.map_map]
    rfl

/-- The answer of a reader whose cache is right, and the plain walk's. -/
theorem LevelReader.Sound.ancestors_eq_plain (hdoc : crate.Documented tree)
    {reader : LevelReader ν δ} (hs : reader.Sound tree) (checkout : Dir ν) :
    (reader.ancestors crate checkout).1.toOption = plainLevels tree checkout reader.home ↔
      (∃ dir ∈ reader.unreadBelow checkout, tree dir = .refused) ∨
        ∀ dir ∈ walk checkout reader.home,
          dir ∈ reader.unreadBelow checkout ∨ (reader.cache dir).isSome ∨
            tree dir = .nothing := by
  by_cases hrefused : ∃ dir ∈ reader.unreadBelow checkout, tree dir = .refused
  · refine iff_of_true ?_ (.inl hrefused)
    obtain ⟨e, he⟩ := LevelReader.ancestors_refused hdoc hrefused
    obtain ⟨dir, hdir, htree⟩ := hrefused
    have hwalked : dir ∈ walk checkout reader.home := (List.takeWhile_prefix _).mem hdir
    rw [he, plainLevels, if_pos]
    · rfl
    · exact List.any_eq_true.mpr ⟨dir, hwalked, by rw [htree]; rfl⟩
  · have hreadable : ∀ dir ∈ reader.unreadBelow checkout, tree dir ≠ .refused := by
      simpa using hrefused
    obtain ⟨after, hafter, hlearns⟩ := LevelReader.ancestors_learns hdoc hreadable
    have hcached (dir : Dir ν) : (after.cache dir).isSome ↔
        dir ∈ reader.unreadBelow checkout ∨ (reader.cache dir).isSome := by
      by_cases hdir : dir ∈ reader.unreadBelow checkout
      · obtain ⟨level, hlevel, -⟩ := hlearns.learnt dir hdir
        simp [hdir, hlevel]
      · simp [hdir, hlearns.kept dir hdir]
    -- A cached directory was read, so none is refused.
    have hknown (dir : Dir ν) (hdir : (after.cache dir).isSome) : tree dir ≠ .refused := by
      obtain ⟨level, hlevel⟩ := Option.isSome_iff_exists.mp hdir
      exact (hlearns.sound hs dir level hlevel).2
    have hanswer : after.answer (walk checkout reader.home) = (walk checkout reader.home).filterMap fun dir =>
        if (after.cache dir).isSome then directoryLevel tree dir else none :=
      List.filterMap_congr fun dir _ => (hlearns.sound hs).cached dir
    rw [hafter, or_iff_right hrefused]
    simp only [← or_assoc, ← hcached]
    by_cases hany : ∃ dir ∈ walk checkout reader.home, tree dir = .refused
    · obtain ⟨dir, hdir, htree⟩ := hany
      have hplain : plainLevels tree checkout reader.home = none :=
        if_pos (List.any_eq_true.mpr ⟨dir, hdir, by rw [htree]; rfl⟩)
      rw [hplain]
      refine iff_of_false (by simp [Except.toOption]) fun hcomplete => ?_
      rcases hcomplete dir hdir with hsome | hnothing
      · exact hknown dir hsome htree
      · rw [htree] at hnothing
        cases hnothing
    · have hplain : plainLevels tree checkout reader.home =
          some ((walk checkout reader.home).filterMap (directoryLevel tree)) := by
        refine if_neg fun hsome => hany ?_
        obtain ⟨dir, hdir, hisRefused⟩ := List.any_eq_true.mp hsome
        exact ⟨dir, hdir, by cases htree : tree dir <;> simp_all [Holding.isRefused]⟩
      rw [hplain, hanswer]
      show some _ = some _ ↔ _
      rw [Option.some_inj, filterMap_eq_iff_of_drops]
      · refine forall₂_congr fun dir hdir => ?_
        have hreadable' : tree dir ≠ .refused := fun htree => hany ⟨dir, hdir, htree⟩
        by_cases hsome : (after.cache dir).isSome
        · simp [hsome]
        · simp only [hsome, Bool.false_eq_true, if_false, false_or]
          rw [eq_comm, directoryLevel_eq_none_iff hreadable']
      · intro dir _
        by_cases hsome : (after.cache dir).isSome <;> simp [hsome]

/-- The answer is the plain walk's exactly where the walk is refused below the nearest
directory read before, or every directory above it that holds anything has been read. -/
theorem ancestors_eq_plain_iff (hdoc : crate.Documented tree) (root : Dir ν)
    (home : Option (Dir ν)) (calls : List (Call ν)) (checkout : Dir ν) :
    ((afterCalls crate root home calls).ancestors crate checkout).1.toOption =
        plainLevels tree checkout home ↔
      (∃ dir ∈ (afterCalls crate root home calls).unreadBelow checkout, tree dir = .refused) ∨
        ∀ dir ∈ walk checkout home,
          dir ∈ (afterCalls crate root home calls).unreadBelow checkout ∨
            ((afterCalls crate root home calls).cache dir).isSome ∨ tree dir = .nothing := by
  obtain ⟨hhome, hs⟩ := afterCalls_sound hdoc root home calls
  have hanswer := hs.ancestors_eq_plain hdoc checkout
  rwa [hhome] at hanswer

/-- The declarations crate over a tree it reads without fail. -/
def Privateterms.ofTree (tree : Tree ν δ) : Privateterms ν δ Unit where
  readDirLevel dir kind :=
    match tree dir with
    | .refused => .error ()
    | .nothing => .ok none
    | .declares declaration => .ok (some ⟨kind, dir, declaration⟩)
  discoverLevels start stop :=
    if (between start stop).any fun dir => (tree dir).isRefused then .error ()
    else .ok ((between start stop).filterMap (directoryLevel tree))

theorem Privateterms.ofTree_documented (tree : Tree ν δ) :
    (Privateterms.ofTree tree).Documented tree where
  read_nothing dir kind h := by simp [ofTree, h]
  read_declares dir kind declaration h := by simp [ofTree, h]
  read_refused dir kind h := ⟨(), by simp [ofTree, h]⟩
  discover_found start stop _ h := by
    refine ⟨_, if_neg fun hany => ?_, ?_⟩
    · obtain ⟨dir, hdir, hisRefused⟩ := List.any_eq_true.mp hany
      exact h dir hdir (by cases htree : tree dir <;> simp_all [Holding.isRefused])
    · rw [List.map_filterMap]
      refine List.filterMap_congr fun dir _ => ?_
      rw [directoryLevel, Option.map_map]
      exact Option.map_id'
  discover_refused start stop _ := by
    rintro ⟨dir, hdir, htree⟩
    exact ⟨(), if_pos (List.any_eq_true.mpr ⟨dir, hdir, by rw [htree]; rfl⟩)⟩

/-- A home directory that declares a level, and nothing else that does. -/
def homeLevel : Tree String String
  | ["ana", "home"] => .declares "terms"
  | _ => .nothing

/-- A reader that has read the fallback, a directory below the home directory. -/
def fallbackFirst : LevelReader String String :=
  afterCalls (.ofTree homeLevel) ["work", "ana", "home"] (some ["ana", "home"]) [.fallback]

theorem ancestors_eq_plain_iff_fallbackFirst :
    (fallbackFirst.ancestors (.ofTree homeLevel) ["repo", "work", "ana", "home"]).1.toOption =
        plainLevels homeLevel ["repo", "work", "ana", "home"] (some ["ana", "home"]) ↔
      (∃ dir ∈ fallbackFirst.unreadBelow ["repo", "work", "ana", "home"],
          homeLevel dir = .refused) ∨
        ∀ dir ∈ walk ["repo", "work", "ana", "home"] (some ["ana", "home"]),
          dir ∈ fallbackFirst.unreadBelow ["repo", "work", "ana", "home"] ∨
            (fallbackFirst.cache dir).isSome ∨ homeLevel dir = .nothing :=
  ancestors_eq_plain_iff (Privateterms.ofTree_documented homeLevel) _ _ _ _

/-- The walk from a checkout stops at the fallback's directory, which is all the cache
holds, and the home directory's level is left out. -/
theorem fallbackFirst_drops_homeLevel :
    ¬ (fallbackFirst.ancestors (.ofTree homeLevel) ["repo", "work", "ana", "home"]).1.toOption =
        plainLevels homeLevel ["repo", "work", "ana", "home"] (some ["ana", "home"]) := by
  decide

/-! ## Without the fallback

`ancestors` alone keeps its cache closed upward: two walks that meet go on alike. -/

end Onevcs.Boundary
