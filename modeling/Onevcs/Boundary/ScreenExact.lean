import Mathlib
import Onevcs.Foundations.Outcome
import Onevcs.Boundary.Screen

/-!
# When every added line is judged

A path's new text is judged line by line. The lines of the text file that was there
before need not be; where something else was there, or nothing, every line is one the
publication adds. The screen reads a changed path as a line diff of two texts, so it
judges nothing of a text that takes the place of what is no text, and not what such a
diff keeps of a symbolic link's target.

The theorem is exact: every added line is judged, and a pass means none of them carries
a term, if and only if neither happens.
-/

set_option linter.unusedSectionVars false

namespace Onevcs.Boundary

open Foundations (Text Script contents pieces trimEnd bind_eq_ok exists_of_mapM_ok)

variable {ω : Type} [DecidableEq ω]

/-! ## What must be judged -/

/-- The lines of the text an entry names, if it names one. -/
def newLines (repository : Repository ω) : Option (Entry ω) → List Text
  | none => []
  | some entry =>
    match repository.blob entry.id with
    | .ok (some blob) => contents blob.text
    | _ => []

/-- The lines of the text file an entry is, if it is one. -/
def oldLines (repository : Repository ω) : Option (Entry ω) → List Text
  | some ⟨.file, id⟩ => newLines repository (some ⟨.file, id⟩)
  | _ => []

/-- A line of a path's new text is passed to the matcher as text the path's change adds. -/
def Judged (repository : Repository ω) (before : Option (GitTree ω)) (after : GitTree ω)
    (path line : Text) : Prop :=
  ∃ deltas, repository.diffTreeToTree before after = .ok deltas ∧
    ∃ delta ∈ deltas, delta.newFile.path = some path ∧
      ∃ changed, change repository delta = .ok changed ∧ line ∈ contents changed.added

/-- A statement about each changed path of each outgoing commit against each parent. -/
def ForEachChange (repository : Repository ω) (commits : List (Commit ω))
    (P : Option (GitTree ω) → GitTree ω → Text → Prop) : Prop :=
  ∀ commit ∈ commits, ∀ after, repository.commitTree commit.id = .ok after →
    ∀ parents, parentTrees repository commit = .ok parents → ∀ before ∈ parents,
      ∀ path, before.bind (·.lookup path) ≠ after.lookup path → P before after path

/-- A line the change of a path adds: one of its new text and not of the text file that was
there. -/
def Adds (repository : Repository ω) (before : Option (GitTree ω)) (after : GitTree ω)
    (path line : Text) : Prop :=
  line ∈ newLines repository (after.lookup path) ∧ line ∉ oldLines repository (before.bind (·.lookup path))

/-- Every line the publication adds is judged. -/
def EveryLineJudged (repository : Repository ω) (commits : List (Commit ω)) : Prop :=
  ForEachChange repository commits fun before after path =>
    ∀ line, Adds repository before after path line → Judged repository before after path line

/-- No line the publication adds, and no message of a commit, carries a term. -/
structure Clean (matcher : Matcher) (repository : Repository ω) (commits : List (Commit ω)) :
    Prop where
  line : ForEachChange repository commits fun before after path =>
    ∀ line, Adds repository before after path line → matcher.find line = []
  message : ∀ commit ∈ commits, matcher.find commit.message = []

/-- What is left unjudged of a new text, by what was there before: all of it where that
is no text, and what a line diff keeps of a link's target and adds nowhere. -/
def NothingUnjudged (repository : Repository ω) : Option (Entry ω) → Option (Entry ω) → Prop
  | some before, some after =>
    match repository.blob before.id, repository.blob after.id with
    | .ok none, _ => newLines repository (some after) = []
    | .ok (some old), .ok (some new) =>
      before.kind = .file ∨ ∀ script, repository.diffLines old new = .ok script →
        ∀ line, (.kept, line) ∈ script →
          ∃ added, (.added, added) ∈ script ∧ trimEnd added = trimEnd line
    | _, _ => True
  | _, _ => True

theorem saying_eq_ok {α : Type} {doing : String} {x : Except Text α} {a : α} :
    saying doing x = .ok a ↔ x = .ok a := by
  cases x <;> simp [saying]

theorem commitChanges_ok {repository : Repository ω} {commit : Commit ω} {changes : List Change}
    (h : commitChanges repository commit = .ok changes) {after : GitTree ω}
    (hafter : repository.commitTree commit.id = .ok after)
    {parents : List (Option (GitTree ω))} (hparents : parentTrees repository commit = .ok parents)
    {before : Option (GitTree ω)} (hbefore : before ∈ parents) :
    ∃ deltas, repository.diffTreeToTree before after = .ok deltas ∧
      ∀ delta ∈ deltas, ∃ changed ∈ changes, change repository delta = .ok changed := by
  obtain ⟨tree, htree, h⟩ := bind_eq_ok.mp h
  obtain ⟨trees, htrees, h⟩ := bind_eq_ok.mp h
  obtain ⟨each, heach, h⟩ := bind_eq_ok.mp h
  obtain rfl : each.flatten = changes := Except.ok.inj h
  obtain rfl : after = tree := Except.ok.inj (hafter.symm.trans (saying_eq_ok.mp htree))
  obtain rfl : parents = trees := Except.ok.inj (hparents.symm.trans htrees)
  obtain ⟨here, hhere, hbetween⟩ := exists_of_mapM_ok heach hbefore
  obtain ⟨deltas, hdeltas, hbetween⟩ := bind_eq_ok.mp hbetween
  refine ⟨deltas, saying_eq_ok.mp hdeltas, fun delta hdelta => ?_⟩
  obtain ⟨changed, hchanged, hchange⟩ := exists_of_mapM_ok hbetween hdelta
  exact ⟨changed, List.mem_flatten.mpr ⟨here, hhere, hchanged⟩, hchange⟩

theorem read_ok {opened : Except Text (Repository ω)} {outgoing : Outgoing}
    {commits : List (Commit ω)} {changes : List Change}
    (h : read opened outgoing = .ok (commits, changes)) :
    ∃ repository, opened = .ok repository ∧
      ∀ commit ∈ commits, ∃ here, commitChanges repository commit = .ok here ∧
        ∀ changed ∈ here, changed ∈ changes := by
  obtain ⟨repository, hopened, h⟩ := bind_eq_ok.mp h
  obtain ⟨walked, -, h⟩ := bind_eq_ok.mp h
  obtain ⟨each, heach, h⟩ := bind_eq_ok.mp h
  obtain ⟨rfl, rfl⟩ := Prod.mk.inj (Except.ok.inj h)
  refine ⟨repository, saying_eq_ok.mp hopened, fun commit hcommit => ?_⟩
  obtain ⟨here, hhere, hread⟩ := exists_of_mapM_ok heach hcommit
  exact ⟨here, hread, fun changed hchanged => List.mem_flatten.mpr ⟨here, hhere, hchanged⟩⟩

/-! ## One change -/

theorem contents_addedText {script : Script Text} {old new : Text}
    (h : Foundations.Aligns script (pieces old) (pieces new)) {line : Text} :
    line ∈ contents (addedText script) ↔
      ∃ added, (.added, added) ∈ script ∧ trimEnd added = line := by
  have hadded : ∀ added, (.added, added) ∈ script → '\n' ∉ trimEnd added := fun added hadded =>
    Foundations.newline_not_mem_trimEnd (h.new_of_added hadded)
  have htexts : addedText script = (((script.filter fun line => line.1 = .added).map fun line =>
      trimEnd line.2).flatMap fun text => text ++ ['\n']) := by
    rw [List.flatMap_map]
    rfl
  rw [htexts, Foundations.contents_flatMap_line, List.map_map]
  · simp only [List.mem_map, List.mem_filter, Function.comp_apply, Foundations.trimEnd_idem]
    constructor
    · rintro ⟨⟨origin, added⟩, ⟨hscript, horigin⟩, rfl⟩
      obtain rfl : origin = .added := by simpa using horigin
      exact ⟨added, hscript, rfl⟩
    · rintro ⟨added, hscript, rfl⟩
      exact ⟨(.added, added), ⟨hscript, by simp⟩, rfl⟩
  · intro text htext
    obtain ⟨⟨origin, added⟩, hmem, rfl⟩ := List.mem_map.mp htext
    obtain ⟨hscript, horigin⟩ := List.mem_filter.mp hmem
    obtain rfl : origin = .added := by simpa using horigin
    exact hadded added hscript

/-- Only what the script adds is text of the change. -/
example : addedText [(.kept, "a\n".toList), (.removed, "b\n".toList), (.added, "c\r\n".toList)] =
    "c\n".toList := by decide +kernel

theorem change_added {repository : Repository ω} {delta : Delta ω} {after : Entry ω}
    {changed : Change} (hdelta : delta.Describes none (some after))
    (h : change repository delta = .ok changed) :
    contents changed.added = newLines repository (some after) := by
  obtain ⟨hstatus, hid⟩ := hdelta
  simp only [change, hstatus, hid] at h
  obtain ⟨blob, hblob, h⟩ := bind_eq_ok.mp h
  simp only [newLines, hblob]
  cases blob with
  | none =>
    obtain rfl := Except.ok.inj h
    rfl
  | some new =>
    obtain rfl := Except.ok.inj h
    rfl

theorem change_modified {repository : Repository ω} {delta : Delta ω} {before after : Entry ω}
    {changed : Change} (hdelta : delta.Describes (some before) (some after))
    (h : change repository delta = .ok changed) :
    ∃ old new, repository.blob before.id = .ok old ∧ repository.blob after.id = .ok new ∧
      match old, new with
      | some old, some new =>
        ∃ script, repository.diffLines old new = .ok script ∧ changed.added = addedText script
      | _, _ => changed.added = [] := by
  obtain ⟨hstatus, hold, hnew⟩ := hdelta
  rcases hstatus with hstatus | hstatus
  all_goals
    simp only [change, hstatus, hold, hnew] at h
    obtain ⟨old, hold', h⟩ := bind_eq_ok.mp h
    obtain ⟨new, hnew', h⟩ := bind_eq_ok.mp h
    refine ⟨old, new, hold', hnew', ?_⟩
    rcases old with _ | old
    · obtain rfl := Except.ok.inj h
      rfl
    · rcases new with _ | new
      · obtain rfl := Except.ok.inj h
        rfl
      · obtain ⟨script, hscript, h⟩ := bind_eq_ok.mp h
        obtain rfl := Except.ok.inj h
        exact ⟨script, saying_eq_ok.mp hscript, rfl⟩

theorem change_unique {repository : Repository ω} {delta delta' : Delta ω}
    {before : Option (Entry ω)} {after : Entry ω} {changed changed' : Change}
    (hdelta : delta.Describes before (some after)) (h : change repository delta = .ok changed)
    (hdelta' : delta'.Describes before (some after))
    (h' : change repository delta' = .ok changed') :
    contents changed.added = contents changed'.added := by
  cases before with
  | none => rw [change_added hdelta h, change_added hdelta' h']
  | some before =>
    obtain ⟨old, new, hold, hnew, hadded⟩ := change_modified hdelta h
    obtain ⟨old', new', hold', hnew', hadded'⟩ := change_modified hdelta' h'
    obtain rfl : old = old' := Except.ok.inj (hold.symm.trans hold')
    obtain rfl : new = new' := Except.ok.inj (hnew.symm.trans hnew')
    rcases old with _ | old
    · rw [show changed.added = [] from hadded, show changed'.added = [] from hadded']
    · rcases new with _ | new
      · rw [show changed.added = [] from hadded, show changed'.added = [] from hadded']
      · obtain ⟨script, hscript, hadded⟩ := hadded
        obtain ⟨script', hscript', hadded'⟩ := hadded'
        obtain rfl : script = script' := Except.ok.inj (hscript.symm.trans hscript')
        rw [hadded, hadded']

/-- The lines of one changed path that are left unjudged, if any. -/
theorem lines_judged_iff {repository : Repository ω} (hdoc : repository.Documented)
    {delta : Delta ω} {before : Option (Entry ω)} {after : Entry ω} {changed : Change}
    (hdelta : delta.Describes before (some after)) (h : change repository delta = .ok changed) :
    (∀ line, line ∈ newLines repository (some after) → line ∉ oldLines repository before →
        line ∈ contents changed.added) ↔
      NothingUnjudged repository before (some after) := by
  cases before with
  | none =>
    refine iff_of_true (fun line hline _ => ?_) trivial
    rwa [change_added hdelta h]
  | some before =>
    obtain ⟨old, new, hold, hnew, hadded⟩ := change_modified hdelta h
    have hnotFile : before.kind ≠ .file → oldLines repository (some before) = [] := by
      rcases before with ⟨_ | _ | _, id⟩ <;> simp [oldLines]
    have hfile : before.kind = .file →
        oldLines repository (some before) = newLines repository (some before) := by
      rcases before with ⟨_ | _ | _, id⟩ <;> simp [oldLines]
    rcases old with _ | old
    · -- What was there is no text.
      have hnone : oldLines repository (some before) = [] := by
        by_cases hkind : before.kind = .file
        · simp [hfile hkind, newLines, hold]
        · exact hnotFile hkind
      have hadded : changed.added = [] := hadded
      simp [NothingUnjudged, hold, hnone, hadded, List.eq_nil_iff_forall_not_mem]
    · rcases new with _ | new
      · simp [NothingUnjudged, newLines, hold, hnew]
      · obtain ⟨script, hscript, hadded⟩ := hadded
        have haligns := hdoc.aligns old new script hscript
        have hnewLines : newLines repository (some after) = contents new.text := by
          simp [newLines, hnew]
        simp only [NothingUnjudged, hold, hnew, hnewLines, hadded,
          contents_addedText haligns]
        by_cases hkind : before.kind = .file
        · refine iff_of_true (fun line hline hnot => ?_) (.inl hkind)
          obtain ⟨piece, hpiece, rfl⟩ := List.mem_map.mp hline
          rcases haligns.kept_or_added hpiece with hkept | hpieceAdded
          · refine absurd ?_ hnot
            rw [hfile hkind, newLines, hold]
            exact List.mem_map.mpr ⟨piece, haligns.old_of_kept hkept, rfl⟩
          · exact ⟨piece, hpieceAdded, rfl⟩
        · rw [hnotFile hkind, or_iff_right hkind]
          constructor
          · intro hlines other hother piece hkept
            obtain rfl : script = other := Except.ok.inj (hscript.symm.trans hother)
            exact hlines _ (List.mem_map.mpr ⟨piece, haligns.new_of_kept hkept, rfl⟩) (by simp)
          · intro hkeptAdded line hline _
            obtain ⟨piece, hpiece, rfl⟩ := List.mem_map.mp hline
            rcases haligns.kept_or_added hpiece with hkept | hpieceAdded
            · exact hkeptAdded script hscript piece hkept
            · exact ⟨piece, hpieceAdded, rfl⟩

/-- The lines of every changed path are judged where nothing of one is left unjudged. -/
theorem everyLineJudged_iff {repository : Repository ω} (hdoc : repository.Documented)
    {commits : List (Commit ω)}
    (hread : ∀ commit ∈ commits, ∃ here, commitChanges repository commit = .ok here) :
    EveryLineJudged repository commits ↔
      ForEachChange repository commits fun before after path =>
        NothingUnjudged repository (before.bind (·.lookup path)) (after.lookup path) := by
  refine forall₂_congr fun commit hcommit => forall₂_congr fun after hafter =>
    forall₂_congr fun parents hparents => forall₂_congr fun before hbefore =>
      forall₂_congr fun path hpath => ?_
  dsimp only
  obtain ⟨here, hhere⟩ := hread commit hcommit
  obtain ⟨deltas, hdeltas, hchanges⟩ := commitChanges_ok hhere hafter hparents hbefore
  obtain ⟨delta, hdelta, hdeltaPath⟩ := hdoc.delta_of_change before after deltas hdeltas path hpath
  cases hentry : after.lookup path with
  | none =>
    refine iff_of_true (fun line hline => ?_) ?_
    · simp [Adds, hentry, newLines] at hline
    · cases before.bind (·.lookup path) <;> trivial
  | some entry =>
    have hdescribes : ∀ delta ∈ deltas, delta.newFile.path = some path →
        delta.Describes (before.bind (·.lookup path)) (some entry) := fun delta hdelta hdeltaPath =>
      hentry ▸ hdoc.describes before after deltas hdeltas delta hdelta path hdeltaPath
    obtain ⟨changed, -, hchange⟩ := hchanges delta hdelta
    have hdelta' := hdescribes delta hdelta hdeltaPath
    rw [← lines_judged_iff hdoc hdelta' hchange]
    refine forall_congr' fun line => ?_
    rw [Adds, hentry, and_imp]
    refine forall₂_congr fun hnew hold => ⟨?_, fun hline => ?_⟩
    · rintro ⟨deltas', hdeltas', other, hother, hotherPath, changed', hchange', hline⟩
      obtain rfl : deltas = deltas' := Except.ok.inj (hdeltas.symm.trans hdeltas')
      rwa [change_unique hdelta' hchange (hdescribes other hother hotherPath) hchange']
    · exact ⟨deltas, hdeltas, delta, hdelta, hdeltaPath, changed, hchange, hline⟩

namespace Judge

variable {matcher : Matcher}

theorem text_pass {judge : Judge} {surface : Surface} {text place : Text} :
    (judge.text matcher surface text place).verdict = .pass ↔
      judge.verdict = .pass ∧ matcher.find text = [] := by
  unfold Judge.text
  cases hfound : matcher.find text with
  | nil => simp
  | cons rule rules => by_cases hpass : judge.verdict = .pass <;> simp [refuse, hpass]

theorem foldl_pass {α : Type} {step : Judge → α → Judge} {P : α → Prop}
    (hstep : ∀ judge a, (step judge a).verdict = .pass → judge.verdict = .pass ∧ P a)
    {l : List α} {judge : Judge} (h : (l.foldl step judge).verdict = .pass) :
    judge.verdict = .pass ∧ ∀ a ∈ l, P a := by
  induction l generalizing judge with
  | nil => exact ⟨h, by simp⟩
  | cons first rest ih =>
    obtain ⟨hfirst, hrest⟩ := ih h
    obtain ⟨hpass, hP⟩ := hstep judge first hfirst
    exact ⟨hpass, List.forall_mem_cons.mpr ⟨hP, hrest⟩⟩

theorem change_pass (hline : matcher.LineWise) {judge : Judge} {changed : Change}
    (h : (judge.change matcher changed).verdict = .pass) :
    judge.verdict = .pass ∧ ∀ line ∈ contents changed.added, matcher.find line = [] := by
  unfold Judge.change at h
  dsimp only at h
  split at h
  · -- The whole text carries a term, and no line of it does.
    obtain ⟨hpass, hlines⟩ :=
      foldl_pass (P := fun line => matcher.find line = []) (fun _ _ hpass => text_pass.mp hpass) h
    have hjudge : judge.verdict = .pass := by
      split at hpass
      · exact (text_pass.mp hpass).1
      · exact hpass
    refine ⟨hjudge, fun line hcontent => ?_⟩
    obtain ⟨piece, hpiece, rfl⟩ := List.mem_map.mp hcontent
    obtain ⟨hnewline, htrim⟩ := Foundations.stripLineEnding_spec hpiece
    have hclear := hlines _ (List.mem_map.mpr ⟨piece, hpiece, rfl⟩)
    by_cases hempty : Foundations.stripLineEnding piece = []
    · rw [← htrim, hempty]
      rwa [hempty] at hclear
    · by_contra hfound
      refine hline _ (trimEnd piece) ?_ hfound hclear
      rw [contents, Foundations.pieces_of_not_mem hnewline hempty, List.map_singleton, htrim]
      exact List.mem_singleton.mpr rfl
  · -- The whole text carries no term, so no line of it does.
    rename_i hnone
    have hjudge : judge.verdict = .pass := by
      split at h
      · exact (text_pass.mp h).1
      · exact h
    refine ⟨hjudge, fun line hcontent => ?_⟩
    by_contra hfound
    have hwhole := hline _ line hcontent hfound
    have hne : changed.added ≠ [] := by
      intro hnil
      rw [hnil] at hcontent
      cases hcontent
    exact hnone (by simp [hne, hwhole])

theorem fields_pass {judge : Judge} {outgoing : Outgoing}
    (h : (judge.fields matcher outgoing).verdict = .pass) : judge.verdict = .pass := by
  refine (foldl_pass (P := fun _ => True) (fun judge field hpass => ⟨?_, trivial⟩) h).1
  split at hpass
  · exact (text_pass.mp hpass).1
  · exact hpass

theorem messages_pass {judge : Judge} {commits : List (Commit ω)}
    (h : (judge.messages matcher commits).verdict = .pass) :
    ∀ commit ∈ commits, matcher.find commit.message = [] := by
  have hall := (foldl_pass (P := fun commit : Commit ω × Nat => matcher.find commit.1.message = [])
    (fun _ _ hpass => text_pass.mp hpass) h).2
  intro commit hcommit
  obtain ⟨index, hindex⟩ := List.mem_iff_getElem?.mp hcommit
  exact hall (commit, index) (List.mk_mem_zipIdx_iff_getElem?.mpr hindex)

end Judge

/-- Every line a publication adds is judged, and a pass is clean, exactly where no text
takes the place of what is no text, and no line diff keeps a line of a link's target that it
does not add. -/
theorem screen_judges_iff (repository : Repository ω) (hdoc : repository.Documented)
    (matcher : Matcher) (hline : matcher.LineWise) (outgoing : Outgoing) :
    ((∀ commits changes, read (.ok repository) outgoing = .ok (commits, changes) →
        EveryLineJudged repository commits) ∧
      (screen (.ok (some matcher)) (.ok repository) outgoing = .pass →
        ∃ commits changes, read (.ok repository) outgoing = .ok (commits, changes) ∧
          Clean matcher repository commits)) ↔
      ∀ commits changes, read (.ok repository) outgoing = .ok (commits, changes) →
        ForEachChange repository commits fun before after path =>
          NothingUnjudged repository (before.bind (·.lookup path)) (after.lookup path) := by
  have hjudged : ∀ commits changes, read (.ok repository) outgoing = .ok (commits, changes) →
      (EveryLineJudged repository commits ↔
        ForEachChange repository commits fun before after path =>
          NothingUnjudged repository (before.bind (·.lookup path)) (after.lookup path)) := by
    intro commits changes hread
    obtain ⟨_, hopened, hcommits⟩ := read_ok hread
    obtain rfl := Except.ok.inj hopened
    exact everyLineJudged_iff hdoc fun commit hcommit =>
      (hcommits commit hcommit).imp fun _ h => h.1
  constructor
  · rintro ⟨hevery, -⟩ commits changes hread
    exact (hjudged commits changes hread).mp (hevery commits changes hread)
  · intro hnothing
    have hevery := fun commits changes hread =>
      (hjudged commits changes hread).mpr (hnothing commits changes hread)
    refine ⟨hevery, fun hpass => ?_⟩
    unfold screen at hpass
    cases hread : read (.ok repository) outgoing with
    | error e => simp [hread] at hpass
    | ok both =>
      obtain ⟨commits, changes⟩ := both
      simp only [hread] at hpass
      obtain ⟨hfields, hchanges⟩ :=
        Judge.foldl_pass (fun _ _ hpass => Judge.change_pass hline hpass) hpass
      refine ⟨commits, changes, rfl, ?_, ?_⟩
      · intro commit hcommit after hafter parents hparents before hbefore path hpath line hadds
        obtain ⟨deltas, hdeltas, delta, hdelta, -, changed, hchange, hcontent⟩ :=
          hevery commits changes hread commit hcommit after hafter parents hparents before hbefore
            path hpath line hadds
        obtain ⟨_, hopened, hcommits⟩ := read_ok hread
        obtain rfl := Except.ok.inj hopened
        obtain ⟨here, hhere, hsub⟩ := hcommits commit hcommit
        obtain ⟨deltas', hdeltas', hall⟩ := commitChanges_ok hhere hafter hparents hbefore
        obtain rfl : deltas = deltas' := Except.ok.inj (hdeltas.symm.trans hdeltas')
        obtain ⟨changed', hmem, hchange'⟩ := hall delta hdelta
        obtain rfl : changed = changed' := Except.ok.inj (hchange.symm.trans hchange')
        exact hchanges changed (hsub changed hmem) line hcontent
      · exact Judge.messages_pass (Judge.fields_pass hfields)

/-! ## A repository to run it on -/

/-- What a diff says of one path. -/
def deltaAt (zero : ω) (path : Text) : Option (Entry ω) → Option (Entry ω) → Option (Delta ω)
  | none, none => none
  | none, some new => some ⟨.added, ⟨some path, zero⟩, ⟨some path, new.id⟩⟩
  | some old, none => some ⟨.deleted, ⟨some path, old.id⟩, ⟨some path, zero⟩⟩
  | some old, some new =>
    if old = new then none
    else
      some ⟨if old.kind = new.kind then .modified else .typechange, ⟨some path, old.id⟩,
        ⟨some path, new.id⟩⟩

/-- The diff of two trees, path by path. -/
def diffTrees (zero : ω) (before : Option (GitTree ω)) (after : GitTree ω) : List (Delta ω) :=
  ((before.getD [] ++ after).map Prod.fst).filterMap fun path =>
    deltaAt zero path (before.bind (·.lookup path)) (after.lookup path)

theorem deltaAt_isSome {zero : ω} {path : Text} {old new : Option (Entry ω)} (h : old ≠ new) :
    ∃ delta, deltaAt zero path old new = some delta := by
  rcases old with _ | old <;> rcases new with _ | new
  · exact absurd rfl h
  · exact ⟨_, rfl⟩
  · exact ⟨_, rfl⟩
  · exact ⟨_, if_neg fun heq => h (congrArg some heq)⟩

theorem deltaAt_describes {zero : ω} {path : Text} {old new : Option (Entry ω)} {delta : Delta ω}
    (h : deltaAt zero path old new = some delta) :
    delta.newFile.path = some path ∧ delta.Describes old new := by
  rcases old with _ | old <;> rcases new with _ | new
  · cases h
  · obtain rfl := Option.some.inj h
    exact ⟨rfl, rfl, rfl⟩
  · obtain rfl := Option.some.inj h
    exact ⟨rfl, rfl⟩
  · simp only [deltaAt] at h
    split at h
    · cases h
    · obtain rfl := Option.some.inj h
      refine ⟨rfl, ?_, rfl, rfl⟩
      dsimp only
      split
      · exact .inl rfl
      · exact .inr rfl

theorem mem_paths_of_lookup {tree : GitTree ω} {path : Text} {entry : Entry ω}
    (h : tree.lookup path = some entry) : path ∈ tree.map Prod.fst := by
  induction tree with
  | nil => cases h
  | cons first rest ih =>
    rw [List.lookup_cons] at h
    split at h
    · rename_i hpath
      exact List.mem_cons.mpr (.inl (by simpa using hpath))
    · exact List.mem_cons_of_mem _ (ih h)

theorem delta_of_diffTrees {zero : ω} {before : Option (GitTree ω)} {after : GitTree ω}
    {path : Text} (h : before.bind (·.lookup path) ≠ after.lookup path) :
    ∃ delta ∈ diffTrees zero before after, delta.newFile.path = some path := by
  have hpath : path ∈ (before.getD [] ++ after).map Prod.fst := by
    rw [List.map_append, List.mem_append]
    cases hnew : after.lookup path with
    | some entry => exact .inr (mem_paths_of_lookup hnew)
    | none =>
      rw [hnew] at h
      cases before with
      | none => exact absurd rfl h
      | some tree =>
        obtain ⟨entry, hentry⟩ := Option.ne_none_iff_exists'.mp h
        exact .inl (mem_paths_of_lookup hentry)
  obtain ⟨delta, hdelta⟩ : ∃ delta, deltaAt zero path _ _ = some delta := deltaAt_isSome h
  exact ⟨delta, List.mem_filterMap.mpr ⟨path, hpath, hdelta⟩, (deltaAt_describes hdelta).1⟩

theorem diffTrees_describes {zero : ω} {before : Option (GitTree ω)} {after : GitTree ω}
    {delta : Delta ω} (hdelta : delta ∈ diffTrees zero before after) {path : Text}
    (hpath : delta.newFile.path = some path) :
    delta.Describes (before.bind (·.lookup path)) (after.lookup path) := by
  obtain ⟨own, -, hown⟩ := List.mem_filterMap.mp hdelta
  obtain ⟨hownPath, hdescribes⟩ := deltaAt_describes hown
  obtain rfl : own = path := Option.some.inj (hownPath.symm.trans hpath)
  exact hdescribes

/-- A repository of two commits: the second puts a text where the first had a binary file. -/
def binaryReplaced : Repository Nat where
  zero := 0
  revparse name := if name = "main".toList then .ok 1 else .ok 2
  revwalk tip base := .ok ([1, 2].filter fun id => decide (base.getD 0 < id ∧ id ≤ tip))
  findCommit id := .ok ⟨id, if id = 1 then [] else [1], "notes".toList⟩
  commitTree id := .ok [("notes".toList, ⟨.file, id + 10⟩)]
  diffTreeToTree before after := .ok (diffTrees 0 before after)
  findBlob id :=
    if id = 11 then .found ⟨true, []⟩ else if id = 12 then .found ⟨false, "acme".toList⟩
    else .notFound
  diffLines before after := .ok (Foundations.rewriting (pieces before.text) (pieces after.text))

theorem binaryReplaced_documented : binaryReplaced.Documented where
  delta_of_change before after deltas h path hpath := by
    obtain rfl := Except.ok.inj h
    exact delta_of_diffTrees hpath
  describes before after deltas h delta hdelta path hpath := by
    obtain rfl := Except.ok.inj h
    exact diffTrees_describes hdelta hpath
  aligns before after script h := by
    obtain rfl := Except.ok.inj h
    exact Foundations.rewriting_aligns _ _

/-- A matcher of one term, found wherever it stands. -/
def acme : Matcher where
  find text := if "acme".toList <:+: text then [0] else []

theorem acme_lineWise : acme.LineWise := by
  intro text line hline hfound
  simp only [acme, ne_eq, ite_eq_right_iff, List.cons_ne_nil, imp_false, not_not] at hfound ⊢
  exact hfound.trans (Foundations.infix_of_mem_contents hline)

/-- A publication of the second commit over the first. -/
def overMain : Outgoing := ⟨some "main".toList, "tip".toList, none, none, none⟩

theorem screen_judges_iff_binaryReplaced :
    ((∀ commits changes, read (.ok binaryReplaced) overMain = .ok (commits, changes) →
        EveryLineJudged binaryReplaced commits) ∧
      (screen (.ok (some acme)) (.ok binaryReplaced) overMain = .pass →
        ∃ commits changes, read (.ok binaryReplaced) overMain = .ok (commits, changes) ∧
          Clean acme binaryReplaced commits)) ↔
      ∀ commits changes, read (.ok binaryReplaced) overMain = .ok (commits, changes) →
        ForEachChange binaryReplaced commits fun before after path =>
          NothingUnjudged binaryReplaced (before.bind (·.lookup path)) (after.lookup path) :=
  screen_judges_iff binaryReplaced binaryReplaced_documented acme acme_lineWise overMain

/-- The screen passes, and the text it publishes carries the term. -/
theorem binaryReplaced_passes :
    screen (.ok (some acme)) (.ok binaryReplaced) overMain = .pass ∧
      ¬ ∃ commits changes, read (.ok binaryReplaced) overMain = .ok (commits, changes) ∧
          Clean acme binaryReplaced commits := by
  refine ⟨by decide, ?_⟩
  rintro ⟨commits, changes, hread, hclean⟩
  have hcommits : (read (.ok binaryReplaced) overMain).map Prod.fst =
      .ok [⟨2, [1], "notes".toList⟩] := by decide
  rw [hread] at hcommits
  obtain rfl : commits = [⟨2, [1], "notes".toList⟩] := Except.ok.inj hcommits
  have hadds : Adds binaryReplaced (some [("notes".toList, ⟨.file, 11⟩)])
      [("notes".toList, ⟨.file, 12⟩)] "notes".toList "acme".toList := ⟨by decide, by decide⟩
  have hclear := hclean.line _ (List.mem_singleton.mpr rfl) _ rfl _ rfl _
    (List.mem_singleton.mpr rfl) "notes".toList (by decide) "acme".toList hadds
  exact absurd hclear (by decide)

end Onevcs.Boundary
