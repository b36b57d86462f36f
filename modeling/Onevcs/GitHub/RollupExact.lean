import Onevcs.GitHub.RollupChecks

/-!
# A reading of checks marks what blocks the merge

A check that a merge requires is marked required where the required names are those of the head that
the rollup was of, since what is registered stays so. A push between the two requests has the names
of one head mark the checks of another: there a check is marked rightly only where one of its name
is registered and required on the new head as well.
-/

namespace Onevcs.GitHub

open Foundations (System Text bind_eq_ok forall₂_of_mapM_ok exists_of_mapM_ok exists_of_mem_mapM_ok)
open Onevcs.Publish (Check Declared Reported isAbout)

/-! ## What the calls answer -/

theorem said_eq_some_iff {field : Option Text} {value : Text} :
    said field = some value ↔ field = some value ∧ value ≠ [] := by
  rw [said, Option.filter_eq_some_iff, Bool.not_eq_true', List.isEmpty_eq_false_iff]

theorem needed_ok {name : String} {field : Option Text} {value : Text}
    (h : needed name field = .ok value) : field = some value := by
  unfold needed at h
  split at h
  case h_1 found hfound =>
    obtain rfl := Except.ok.inj h
    exact (said_eq_some_iff.mp hfound).1
  case h_2 => cases h

section Entries

variable {required : List Text} {head : Option Text} {entry : Entry} {found : Check}

theorem statusContext_ok (h : statusContext required head entry = .ok found) :
    found.head = head ∧ found.required = required.contains found.name ∧
      entry.context = some found.name := by
  obtain ⟨name, hname, h⟩ := bind_eq_ok.mp h
  obtain ⟨state, hstate, h⟩ := bind_eq_ok.mp h
  obtain ⟨stands, hstands, h⟩ := bind_eq_ok.mp h
  obtain rfl := Except.ok.inj h
  exact ⟨rfl, rfl, needed_ok hname⟩

theorem checkRun_ok (h : checkRun required head entry = .ok found) :
    found.head = head ∧ found.required = required.contains found.name ∧
      ∀ name, name ≠ [] → entry.name = some name → name = found.name := by
  obtain ⟨name, hname, h⟩ := bind_eq_ok.mp h
  obtain ⟨status, hstatus, h⟩ := bind_eq_ok.mp h
  obtain rfl := Except.ok.inj h
  refine ⟨rfl, rfl, fun other hne hother => ?_⟩
  rw [runName, needed, said_eq_some_iff.mpr ⟨hother, hne⟩] at hname
  exact Except.ok.inj hname

theorem check_ok (h : check required head entry = .ok found) :
    found.head = head ∧ found.required = required.contains found.name := by
  unfold check at h
  split at h
  · exact ⟨(statusContext_ok h).1, (statusContext_ok h).2.1⟩
  · exact ⟨(checkRun_ok h).1, (checkRun_ok h).2.1⟩

end Entries

variable {ι : Type} {repository : Repository ι} {reader : Reader ι}

theorem check_name {required : List Text} {head : Option Text} {shown : ι} {entry : Entry}
    {found : Check} (hshows : reader.Shows repository shown entry)
    (h : check required head entry = .ok found) : found.name = repository.named shown := by
  obtain ⟨-, hgiven⟩ := hshows
  unfold check at h
  split at h
  case isTrue hcontext =>
    rw [if_pos hcontext] at hgiven
    exact Option.some.inj ((statusContext_ok h).2.2.symm.trans hgiven)
  case isFalse hcontext =>
    rw [if_neg hcontext] at hgiven
    exact ((checkRun_ok h).2.2 _ (repository.named_ne shown) hgiven).symm

namespace Reader

/-- A check of the name is registered on the head, and a merge requires it. -/
def Blocks (repository : Repository ι) (reader : Reader ι) (name : Text) : Prop :=
  ∃ check ∈ reader.registered reader.head,
    repository.requires check = true ∧ repository.named check = name

end Reader

theorem eq_some_of_read {entry : Option Text} {value : Text}
    (h : (match said entry with
      | some name => .ok name
      | none => .error .unsaid : Except Unread Text) = .ok value) : entry = some value := by
  split at h
  case h_1 found hfound =>
    obtain rfl := Except.ok.inj h
    exact (said_eq_some_iff.mp hfound).1
  case h_2 => cases h

theorem requiredChecks_ok {answer : Answer} {required : List Text}
    (htells : reader.Tells repository answer)
    (h : requiredChecks repository.names answer = .ok required) (name : Text) :
    name ∈ required ↔ reader.Blocks repository name := by
  unfold requiredChecks at h
  split at h
  case isTrue husable =>
    split at h
    case h_1 => cases h
    case h_2 entries hentries =>
      obtain ⟨hall, honly⟩ := htells.1 husable entries hentries
      constructor
      · intro hname
        obtain ⟨entry, hentry, hvalue⟩ := exists_of_mem_mapM_ok h hname
        obtain ⟨check, hcheck, hrequires, hnamed⟩ := honly entry hentry
        rw [eq_some_of_read hvalue] at hnamed
        exact ⟨check, hcheck, hrequires, (Option.some.inj hnamed).symm⟩
      · rintro ⟨check, hcheck, hrequires, rfl⟩
        obtain ⟨value, hvalue, hentry⟩ := exists_of_mapM_ok h (hall check hcheck hrequires)
        rw [Option.some.inj (eq_some_of_read hentry)]
        exact hvalue
  case isFalse =>
    split at h
    case isTrue hnone =>
      obtain rfl := Except.ok.inj h
      constructor
      · intro hname
        cases hname
      · rintro ⟨check, hcheck, hrequires, -⟩
        rw [htells.2 hnone check hcheck] at hrequires
        cases hrequires
    case isFalse => split at h <;> cases h

theorem rollupView_ok {view : RollupView} {head : Option Text} {entries : List Entry}
    (h : rollupView (some view) = .ok (some (head, entries))) :
    view.rollup = .list entries ∧ entries ≠ [] := by
  obtain ⟨reported, hreported, h⟩ := bind_eq_ok.mp h
  split at h
  · cases h
  · cases h
  · cases h
  · cases h
  · next listed hne hrollup =>
    obtain rfl : listed = entries := congrArg Prod.snd (Option.some.inj (Except.ok.inj h))
    exact ⟨hrollup, fun hnil => hne (hnil ▸ rfl)⟩

theorem rollupChecks_ok {names : Text → Option (List (Option Text))} {view : Option RollupView}
    {answer : Answer} {checks : List Check} (h : rollupChecks names view answer = .ok checks) :
    rollupView view = .ok none ∧ checks = [] ∨
      ∃ head entries required, rollupView view = .ok (some (head, entries)) ∧
        requiredChecks names answer = .ok required ∧
        entries.mapM (check required head) = .ok checks := by
  obtain ⟨viewed, hview, h⟩ := bind_eq_ok.mp h
  cases viewed with
  | none => exact .inl ⟨hview, (Except.ok.inj h).symm⟩
  | some viewed =>
    obtain ⟨required, hrequired, h⟩ := bind_eq_ok.mp h
    exact .inr ⟨viewed.1, viewed.2, required, hview, hrequired, h⟩

/-- The reading marks nothing falsely optional, and is not of two heads where it is read as the
host's answer that nothing is required. -/
structure Answered.Right (repository : Repository ι) (answered : Answered ι) : Prop where
  marked : ∀ pair ∈ answered.checks, pair.2.required = false → repository.requires pair.1 = false
  oneHead : ∀ because commit, (Declared.unknown because).given
    { reported := .of (answered.checks.map Prod.snd) commit, complete := true } = .nothing →
      answered.head = answered.namesHead

/-- An unknown declaration is read as nothing where there are checks, none of them required. -/
theorem given_eq_nothing {because commit : Text} {checks : List Check}
    (h : (Declared.unknown because).given { reported := .of checks commit, complete := true } =
      .nothing) :
    (∃ found ∈ checks, isAbout found commit = true) ∧
      ∀ found ∈ checks, isAbout found commit = true → found.required = false := by
  unfold Declared.given Reported.of at h
  dsimp only at h
  split at h
  case h_1 about habout =>
    split at habout
    case isTrue => cases habout
    case isFalse =>
      obtain rfl := Reported.about.inj habout
      unfold Declared.sharpened at h
      dsimp only at h
      split at h
      case isTrue hsharp =>
        simp only [Bool.true_and, Bool.and_eq_true, Bool.not_eq_true', List.isEmpty_eq_false_iff,
          List.all_eq_true, List.mem_filter, and_imp] at hsharp
        obtain ⟨first, hfirst⟩ := List.exists_mem_of_ne_nil _ hsharp.1
        exact ⟨⟨first, List.mem_filter.mp hfirst⟩, hsharp.2⟩
      case isFalse => cases h
  case h_2 => cases h

namespace Reader

/-- What a merge requires of the checks that were viewed blocks a merge of the head too, by name;
and of one of them a check of its name does. -/
def Covers (repository : Repository ι) (reader : Reader ι) (shown : List (ι × Entry)) : Prop :=
  (∀ pair ∈ shown, repository.requires pair.1 = true →
    reader.Blocks repository (repository.named pair.1)) ∧
  ∃ pair ∈ shown, reader.Blocks repository (repository.named pair.1)

/-- The required names are asked while the branch has the head that was viewed, or another that
covers its checks. -/
def Meets (repository : Repository ι) (reader : Reader ι) : Move ι → Prop
  | .required _ => ∀ viewed ∈ reader.viewed,
      reader.head = viewed.2.2 ∨ reader.Covers repository viewed.2.1
  | _ => True

/-- A rollup that was viewed is of checks registered on its head, entry by entry, and each reading
marks rightly. -/
structure Sound (repository : Repository ι) (reader : Reader ι) : Prop where
  viewed : ∀ viewed ∈ reader.viewed,
    (∀ entries, viewed.1.rollup = .list entries → entries = viewed.2.1.map Prod.snd) ∧
    ∀ pair ∈ viewed.2.1, pair.1 ∈ reader.registered viewed.2.2 ∧
      ∀ {required head found}, check required head pair.2 = .ok found →
        found.name = repository.named pair.1
  answered : ∀ answered ∈ reader.answered, answered.Right repository

theorem blocks_of_mem {check : ι} (hcheck : check ∈ reader.registered reader.head)
    (hrequires : repository.requires check = true) :
    reader.Blocks repository (repository.named check) :=
  ⟨check, hcheck, hrequires, rfl⟩

/-- A reading that the two requests make of one head, or of two where the later one covers the
checks of the other. -/
theorem Sound.right (h : Sound repository reader) {view : RollupView} {shown : List (ι × Entry)}
    {head : Text} (hviewed : reader.viewed = some (view, shown, head)) {answer : Answer}
    (htells : reader.Tells repository answer)
    (hmeets : reader.Meets repository (.required answer)) {checks : List Check}
    (hchecks : rollupChecks repository.names (some view) answer = .ok checks) :
    Answered.Right repository
      { checks := (shown.map Prod.fst).zip checks, head, namesHead := reader.head } := by
  obtain ⟨hentries, hshown⟩ := h.viewed _ hviewed
  have hmeets := hmeets _ hviewed
  rcases rollupChecks_ok hchecks with ⟨-, rfl⟩ | ⟨named, entries, required, hview, hrequired, hread⟩
  · constructor
    · intro pair hpair
      rw [List.zip_nil_right] at hpair
      cases hpair
    · intro because commit hnothing
      obtain ⟨⟨found, hfound, -⟩, -⟩ := given_eq_nothing hnothing
      rw [List.zip_nil_right] at hfound
      cases hfound
  · obtain ⟨hrollup, hne⟩ := rollupView_ok hview
    obtain rfl : entries = shown.map Prod.snd := hentries entries hrollup
    have hblocks := requiredChecks_ok htells hrequired
    have hplaces := List.forall₂_map_left_iff.mp (forall₂_of_mapM_ok hread)
    -- each check is of the entry in its place
    have hpairs : ∀ {pair}, pair ∈ (shown.map Prod.fst).zip checks →
        ∃ place ∈ shown, place.1 = pair.1 ∧ check required named place.2 = .ok pair.2 := by
      intro pair hpair
      rw [List.zip_map_left] at hpair
      obtain ⟨place, hplace, rfl⟩ := List.mem_map.mp hpair
      obtain ⟨shownAt, found⟩ := place
      exact ⟨shownAt, (List.of_mem_zip hplace).1, rfl, (List.forall₂_iff_zip.mp hplaces).2 hplace⟩
    have hmarked : ∀ {place : ι × Entry} {found : Check}, place ∈ shown →
        check required named place.2 = .ok found →
        (found.required = true ↔ reader.Blocks repository (repository.named place.1)) := by
      intro place found hplace hcheck
      rw [(check_ok hcheck).2, List.contains_iff_mem, hblocks, (hshown place hplace).2 hcheck]
    constructor
    · intro pair hpair hoptional
      obtain ⟨place, hplace, hfst, hcheck⟩ := hpairs hpair
      rw [← hfst]
      by_contra hrequires
      rw [Bool.not_eq_false] at hrequires
      have hblock : reader.Blocks repository (repository.named place.1) := by
        rcases hmeets with hhead | hcovers
        · refine blocks_of_mem ?_ hrequires
          rw [hhead]
          exact (hshown place hplace).1
        · exact hcovers.1 place hplace hrequires
      rw [(hmarked hplace hcheck).mpr hblock] at hoptional
      cases hoptional
    · intro because commit hnothing
      rcases hmeets with hhead | ⟨-, covered, hcovered, hblock⟩
      · exact hhead.symm
      · -- the check that is covered is marked, so not all of them are optional
        exfalso
        have hsnd : ((shown.map Prod.fst).zip checks).map Prod.snd = checks :=
          List.map_snd_zip (by rw [List.length_map, hplaces.length_eq])
        obtain ⟨⟨first, hfirst, habout⟩, hoptional⟩ := given_eq_nothing hnothing
        rw [hsnd] at hfirst hoptional
        obtain ⟨found, hfound, hcheck⟩ :=
          exists_of_mapM_ok hread (List.mem_map.mpr ⟨covered, hcovered, rfl⟩)
        obtain ⟨entry, -, hfirstCheck⟩ := exists_of_mem_mapM_ok hread hfirst
        have hsame : isAbout found commit = true := by
          rw [← habout, isAbout, isAbout, (check_ok hcheck).1, (check_ok hfirstCheck).1]
        have hrequired := (hmarked hcovered hcheck).mpr hblock
        rw [hoptional found hfound hsame] at hrequired
        cases hrequired

variable [DecidableEq ι]

theorem Sound.step {act : Move ι} {after : Reader ι} (h : Sound repository reader)
    (hmeets : reader.Meets repository act) (hstep : reader.step repository act = some after) :
    Sound repository after := by
  cases act with
  | push head =>
    obtain rfl := Option.some.inj hstep
    exact ⟨h.viewed, h.answered⟩
  | register commit check =>
    obtain rfl := Option.some.inj hstep
    refine ⟨fun viewed hviewed => ?_, h.answered⟩
    obtain ⟨hentries, hshown⟩ := h.viewed viewed hviewed
    refine ⟨hentries, fun pair hpair => ⟨?_, (hshown pair hpair).2⟩⟩
    -- what is registered stays so
    dsimp only
    rw [Function.update_apply]
    split
    case isTrue hcommit => exact List.mem_cons_of_mem _ (hcommit ▸ (hshown pair hpair).1)
    case isFalse => exact (hshown pair hpair).1
  | view view shown =>
    rw [Reader.step] at hstep
    split at hstep
    case isFalse => cases hstep
    case isTrue hviews =>
      obtain ⟨-, hrollup, hshows⟩ := hviews
      split at hstep
      · obtain rfl := Option.some.inj hstep
        refine ⟨fun viewed hviewed => ?_, h.answered⟩
        obtain rfl := Option.some.inj hviewed
        refine ⟨fun entries hentries => ?_, fun pair hpair => ?_⟩
        · rw [hentries] at hrollup
          exact hrollup
        · exact ⟨(hshows pair hpair).1, fun hcheck => check_name (hshows pair hpair) hcheck⟩
      · obtain rfl := Option.some.inj hstep
        refine ⟨fun _ hviewed => (nomatch hviewed), fun answered hanswered => ?_⟩
        rcases List.mem_cons.mp hanswered with rfl | hanswered
        · exact ⟨fun _ hpair => (nomatch hpair), fun _ _ _ => rfl⟩
        · exact h.answered answered hanswered
      · obtain rfl := Option.some.inj hstep
        exact ⟨fun _ hviewed => (nomatch hviewed), h.answered⟩
  | viewFails =>
    obtain rfl := Option.some.inj hstep
    exact ⟨fun _ hviewed => (nomatch hviewed), h.answered⟩
  | required answer =>
    rw [Reader.step] at hstep
    split at hstep
    case h_1 => cases hstep
    case h_2 view shown head hviewed =>
      split at hstep
      case isFalse => cases hstep
      case isTrue htells =>
        obtain rfl := Option.some.inj hstep
        refine ⟨fun _ hnone => (nomatch hnone), fun answered hanswered => ?_⟩
        cases hchecks : rollupChecks repository.names (some view) answer with
        | error unread =>
          rw [hchecks] at hanswered
          exact h.answered answered hanswered
        | ok checks =>
          rw [hchecks] at hanswered
          rcases List.mem_cons.mp hanswered with rfl | hanswered
          · exact h.right hviewed htells hmeets hchecks
          · exact h.answered answered hanswered

end Reader

/-- In every run whose required names are asked of the head that was viewed, or of one that covers
its checks, each reading marks rightly. -/
theorem readings_mark_required [DecidableEq ι] (repository : Repository ι) (reader : Reader ι)
    (hreach : (Reader.system repository).ReachableBy
      (fun reader => reader.Meets repository) reader) :
    ∀ answered ∈ reader.answered, answered.Right repository := by
  have hsound : reader.Sound repository := by
    refine System.ReachableBy.invariant hreach ?_ fun _ _ _ h hmeets hstep => h.step hmeets hstep
    rintro start ⟨hviewed, hanswered⟩
    constructor
    · intro viewed hmem
      rw [hviewed] at hmem
      cases hmem
    · intro answered hmem
      rw [hanswered] at hmem
      cases hmem
  exact hsound.answered

/-- A repository whose merges require one of its two checks. -/
def building : Repository Bool where
  named check := if check then "build".toList else "lint".toList
  requires check := check
  names _ := some [some "build".toList]
  named_ne check := by cases check <;> decide

def running : Entry where
  typename := some "CheckRun".toList
  name := some "build".toList
  context := none
  status := some "IN_PROGRESS".toList
  state := none
  conclusion := none
  startedAt := none

/-- The branch at one commit, with the required check registered, and another check on the next
commit. -/
def pushed : Reader Bool where
  head := "a1".toList
  registered commit := if commit = "a1".toList then [true] else [false]
  viewed := none
  answered := []

def viewing : Move Bool :=
  .view { headRefOid := some "a1".toList, rollup := .list [running] } [(true, running)]

/-- What `gh` says of a head whose checks are none of them required. -/
def noneRequired : Answer where
  code := some 1
  stdout := []
  stderr := "no required checks reported on the 'b' branch".toList

/-- The answer that names a required check. -/
def oneRequired : Answer where
  code := some checksPending
  stdout := "[\x7b\"name\":\"build\"\x7d]".toList
  stderr := []

theorem readings_mark_required_unmoved : ∃ reader,
    (Reader.system building).ReachableBy (fun reader => reader.Meets building) reader ∧
    (reader.answered.map fun answered => answered.checks.map fun pair => pair.2.required) =
      [[true]] ∧ ∀ answered ∈ reader.answered, answered.Right building := by
  obtain ⟨viewed, hview⟩ : ∃ viewed, pushed.step building viewing = some viewed := ⟨_, rfl⟩
  obtain ⟨reader, hread⟩ : ∃ reader,
      viewed.step building (.required oneRequired) = some reader := by
    obtain rfl := Option.some.inj hview
    exact ⟨_, rfl⟩
  have hmeets : viewed.Meets building (.required oneRequired) := by
    obtain rfl := Option.some.inj hview
    intro found hfound
    obtain rfl := Option.some.inj hfound
    exact .inl rfl
  have hfirst : (Reader.system building).ReachableBy (fun reader => reader.Meets building) viewed :=
    .step (s := pushed) (a := viewing) (.start ⟨rfl, rfl⟩) trivial hview
  have hreach : (Reader.system building).ReachableBy (fun reader => reader.Meets building) reader :=
    .step hfirst hmeets hread
  refine ⟨reader, hreach, ?_, readings_mark_required building reader hreach⟩
  have hanswered : ((pushed.step building viewing).bind
      (Reader.step building · (.required oneRequired))).map (fun reader => reader.answered.map
        fun answered => answered.checks.map fun pair => pair.2.required) = some [[true]] := by
    decide +kernel
  rw [hview, Option.bind_some, hread] at hanswered
  exact Option.some.inj hanswered

/-- The required check of the first commit is answered as optional, and the reading as the host's
answer that nothing is required. -/
theorem pushed_between_marks_nothing : ∃ reader, (Reader.system building).Reachable reader ∧
    ∃ answered ∈ reader.answered, ∃ pair ∈ answered.checks,
      pair.2.head = some "a1".toList ∧ pair.2.required = false ∧ building.requires pair.1 = true ∧
      (Declared.unknown []).given
        { reported := .of (answered.checks.map Prod.snd) "a1".toList, complete := true } =
          .nothing ∧
      answered.head ≠ answered.namesHead := by
  have hrun : ((Reader.system building).run pushed
      [viewing, .push "b2".toList, .required noneRequired]).isSome = true := by decide +kernel
  obtain ⟨reader, hreader⟩ := Option.isSome_iff_exists.mp hrun
  refine ⟨reader, System.reachable_of_run ⟨rfl, rfl⟩ hreader, ?_⟩
  obtain rfl := Option.some.inj hreader
  refine ⟨_, List.mem_cons_self, _, List.mem_cons_self, rfl, rfl, rfl, rfl, by decide⟩

end Onevcs.GitHub
