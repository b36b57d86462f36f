import Mathlib.Data.Fintype.Basic
import Onevcs.Host.ReleaseChanges

/-!
# Which commits of a release are mapped to their pull request

A repository as the three reads see it: what the releases listing says, the commits between two
tags, and the closed pull requests, each split into pages in any way. The listing of pull requests
is left at the first page whose last pull request was updated before the previous tag's commit, so
a pull request on a later page is not seen, whatever it merged.
-/

namespace Onevcs.Host

open Foundations (Text)

/-! ## A repository -/

/-- A closed pull request, and when it was last updated. -/
structure Closed where
  change : Change
  updatedAt : Timestamp

/-- It is merged, and its merge made `commit`. -/
def Change.mergedAs (commit : Text) (change : Change) : Bool :=
  change.mergedAt.isSome && decide (change.mergeCommitSha = some commit)

/-- The pull requests of a run of pages. -/
def changesOf (pages : List (Text × List Closed)) : List Change :=
  pages.flatMap fun page => page.2.map Closed.change

@[simp] theorem changesOf_nil : changesOf [] = [] := rfl

@[simp] theorem changesOf_append (before after : List (Text × List Closed)) :
    changesOf (before ++ after) = changesOf before ++ changesOf after :=
  List.flatMap_append

@[simp] theorem changesOf_cons (page : Text × List Closed) (rest : List (Text × List Closed)) :
    changesOf (page :: rest) = page.2.map Closed.change ++ changesOf rest :=
  rfl

/-- What a host holds: the releases as they are listed, each tag's commit with its date, the
commits between two tags, oldest first, and the closed pull requests, in pages. -/
structure Repository where
  releases : List (Page (List Release))
  base : Text → Text × Timestamp
  comparison : Text → Text → List (Text × List Text)
  closed : List (Text × List Closed)

namespace Repository

def range (repository : Repository) (previous tag : Text) : List Text :=
  (repository.comparison previous tag).flatMap Prod.snd

/-- A page of the closed pull requests, as it is answered. -/
def pullPage (page : Text × List Closed) : Page (List Pull) :=
  ⟨page.1, .ok (page.2.map fun pull => ⟨.ok pull.change, .ok pull.updatedAt⟩)⟩

def answers (repository : Repository) : Answers where
  releases := repository.releases
  compare previous tag := (repository.comparison previous tag).map fun page =>
    ⟨page.1, .ok ⟨.ok (repository.base previous), .ok page.2⟩⟩
  pulls := repository.closed.map pullPage

end Repository

/-- A page ends before the previous tag's commit: it is empty, or its last pull request was
updated before. -/
def Passed (previousTime : Timestamp) (page : Text × List Closed) : Prop :=
  ∀ last ∈ page.2.getLast?, last.updatedAt.instant < previousTime.instant

instance (previousTime : Timestamp) (page : Text × List Closed) :
    Decidable (Passed previousTime page) :=
  inferInstanceAs (Decidable (∀ last ∈ page.2.getLast?, _))

/-- Every commit of the range is attributed, in order: without a change only where no merged pull
request has it as its merge commit, and otherwise to one that has. The changes are those pull
requests, each once, in the order of their first commit. -/
structure Attributes (repository : Repository) (previous tag : Text) (answer : ReleaseChanges) :
    Prop where
  commits : answer.commits.map ReleaseCommit.sha = repository.range previous tag
  unmapped : ∀ entry ∈ answer.commits, entry.change = none →
    ∀ change ∈ changesOf repository.closed, ¬ change.mergedAs entry.sha
  mapped : ∀ entry ∈ answer.commits, ∀ number, entry.change = some number →
    ∃ change ∈ changesOf repository.closed, change.mergedAs entry.sha ∧ change.number = number
  changes : answer.changes.map Change.number =
    (answer.commits.filterMap ReleaseCommit.change).eraseDups
  listed : ∀ change ∈ answer.changes, change ∈ changesOf repository.closed ∧
    ∃ sha ∈ repository.range previous tag, change.mergedAs sha

/-- The query is answered, and so that every commit is attributed. -/
def AttributesEvery (repository : Repository) (request : ReleaseChangesRequest)
    (previous : Text) : Prop :=
  ∃ answer, releaseChanges request repository.answers = .ok answer ∧
    Attributes repository previous request.tag answer

/-- A merged pull request after a page that ends before the previous tag's commit merged no commit
of the range that none up to that page did. -/
def SeenInTime (repository : Repository) (previous tag : Text) : Prop :=
  ∀ before page after, repository.closed = before ++ page :: after →
    Passed (repository.base previous).2 page →
      ∀ sha ∈ repository.range previous tag, ∀ change ∈ changesOf after, change.mergedAs sha →
        ∃ seen ∈ changesOf (before ++ [page]), seen.mergedAs sha

theorem walk_visitComparison (base : Text × Timestamp) (pages : List (Text × List Text))
    (requests : List Text) (shas : List Text) :
    ∃ requests', walk visitComparison requests (some base, shas)
        (pages.map fun page => ⟨page.1, .ok ⟨.ok base, .ok page.2⟩⟩) =
      .ok ((some base, shas ++ pages.flatMap Prod.snd), requests') := by
  induction pages generalizing requests shas with
  | nil => exact ⟨requests, by simp [walk]⟩
  | cons page rest ih =>
    obtain ⟨requests', hwalk⟩ := ih (requests ++ [page.1]) (shas ++ page.2)
    exact ⟨requests', by simpa [walk, visitComparison, bind, Except.bind] using hwalk⟩

theorem walk_compare (repository : Repository) (previous tag : Text) (requests : List Text)
    (h : repository.range previous tag ≠ []) :
    ∃ requests', walk visitComparison requests (none, [])
        (repository.answers.compare previous tag) =
      .ok ((some (repository.base previous), repository.range previous tag), requests') := by
  simp only [Repository.answers, Repository.range] at h ⊢
  cases hpages : repository.comparison previous tag with
  | nil => simp [hpages] at h
  | cons page rest =>
    obtain ⟨requests', hwalk⟩ :=
      walk_visitComparison (repository.base previous) rest (requests ++ [page.1]) page.2
    exact ⟨requests', by simpa [walk, visitComparison, bind, Except.bind] using hwalk⟩

/-! ## The closed pull requests -/

/-- After the pull requests seen, the first merged as each commit of the range is known, and the
commits none is known for are still wanted. -/
structure Mapped (shas : List Text) (seen : List Change) (state : Mapping) : Prop where
  wanted : ∀ sha, sha ∈ state.wanted ↔ sha ∈ shas ∧ seen.find? (Change.mergedAs sha) = none
  merged : ∀ sha ∈ shas, state.merged.lookup sha = seen.find? (Change.mergedAs sha)

theorem Mapped.start (shas : List Text) : Mapped shas [] ⟨shas.toFinset, []⟩ where
  wanted sha := by simp
  merged sha _ := rfl

variable {shas : List Text} {seen : List Change} {state : Mapping}

theorem Mapped.skip (h : Mapped shas seen state) {change : Change}
    (hskip : ∀ sha ∈ state.wanted, change.mergedAs sha = false) :
    Mapped shas (seen ++ [change]) state := by
  have hsame : ∀ sha ∈ shas, (seen ++ [change]).find? (Change.mergedAs sha) =
      seen.find? (Change.mergedAs sha) := by
    intro sha hsha
    rw [List.find?_append]
    cases hfind : seen.find? (Change.mergedAs sha) with
    | some found => rfl
    | none => simp [hskip sha ((h.wanted sha).mpr ⟨hsha, hfind⟩)]
  constructor
  · intro sha
    rw [h.wanted sha]
    constructor
    · rintro ⟨hsha, hnone⟩
      exact ⟨hsha, (hsame sha hsha).trans hnone⟩
    · rintro ⟨hsha, hnone⟩
      exact ⟨hsha, (hsame sha hsha).symm.trans hnone⟩
  · intro sha hsha
    rw [hsame sha hsha]
    exact h.merged sha hsha

theorem Mapped.take (h : Mapped shas seen state) {change : Change} {commit : Text}
    (hcommit : commit ∈ state.wanted) (hmerged : change.mergedAt.isSome)
    (hsha : change.mergeCommitSha = some commit) :
    Mapped shas (seen ++ [change])
      ⟨state.wanted.erase commit, (commit, change) :: state.merged⟩ := by
  have hmergedAs : ∀ sha, change.mergedAs sha = decide (commit = sha) := by
    intro sha
    simp [Change.mergedAs, hmerged, hsha]
  have hnone := ((h.wanted commit).mp hcommit).2
  constructor
  · intro sha
    by_cases heq : commit = sha
    · subst heq
      simp [List.find?_append, hnone, hmergedAs]
    · simp [List.find?_append, hmergedAs, heq, h.wanted sha, Ne.symm heq]
  · intro sha hmem
    by_cases heq : commit = sha
    · subst heq
      simp [List.find?_append, hnone, hmergedAs]
    · simp [List.lookup_cons, List.find?_append, hmergedAs, heq, h.merged sha hmem,
        beq_eq_false_iff_ne.mpr (Ne.symm heq)]

theorem takePull_mapped (h : Mapped shas seen state) (change : Change)
    (updatedAt : HostQueryResult Timestamp) :
    ∃ state', takePull state ⟨.ok change, updatedAt⟩ = .ok state' ∧
      Mapped shas (seen ++ [change]) state' := by
  cases hsha : change.mergeCommitSha with
  | none =>
    refine ⟨state, by simp [takePull, bind, Except.bind, hsha], h.skip fun sha _ => ?_⟩
    simp [Change.mergedAs, hsha]
  | some commit =>
    by_cases htake : change.mergedAt.isSome ∧ commit ∈ state.wanted
    · refine ⟨_, ?_, h.take htake.2 htake.1 hsha⟩
      simp [takePull, bind, Except.bind, hsha, htake.1, htake.2]
    · have htest : (change.mergedAt.isSome && decide (commit ∈ state.wanted)) = false := by
        simpa using htake
      refine ⟨state, by simp [takePull, bind, Except.bind, hsha, htest],
        h.skip fun sha hwanted => ?_⟩
      rw [Change.mergedAs, hsha]
      by_contra hmerged
      obtain ⟨hsome, heq⟩ := Bool.and_eq_true_iff.mp (Bool.eq_true_of_not_eq_false hmerged)
      obtain rfl := Option.some.inj (of_decide_eq_true heq)
      exact htake ⟨hsome, hwanted⟩

theorem takePulls_mapped (h : Mapped shas seen state) (pulls : List Closed) :
    ∃ state', takePulls state (pulls.map fun pull => ⟨.ok pull.change, .ok pull.updatedAt⟩) =
        .ok state' ∧
      Mapped shas (seen ++ pulls.map Closed.change) state' := by
  induction pulls generalizing state seen with
  | nil => exact ⟨state, rfl, by simpa using h⟩
  | cons pull rest ih =>
    obtain ⟨first, hfirst, hmapped⟩ := takePull_mapped h pull.change (.ok pull.updatedAt)
    obtain ⟨state', hrest, hmapped'⟩ := ih hmapped
    refine ⟨state', ?_, by simpa using hmapped'⟩
    rw [List.map_cons, takePulls, hfirst]
    exact hrest

theorem passed_eq (previousTime : Timestamp) (page : Text × List Closed) :
    passed previousTime (page.2.map fun pull => ⟨.ok pull.change, .ok pull.updatedAt⟩) =
      .ok (decide (Passed previousTime page)) := by
  cases hlast : page.2.getLast? with
  | none => simp [passed, Passed, hlast]
  | some last => simp [passed, Passed, hlast, bind, Except.bind]

theorem visitPulls_page (previousTime : Timestamp) (h : Mapped shas seen state)
    (page : Text × List Closed) :
    ∃ state' paging, visitPulls previousTime state
        (page.2.map fun pull => ⟨.ok pull.change, .ok pull.updatedAt⟩) = .ok (state', paging) ∧
      Mapped shas (seen ++ page.2.map Closed.change) state' ∧
      (paging = .done ↔ state'.wanted = ∅ ∨ Passed previousTime page) := by
  obtain ⟨state', htake, hmapped⟩ := takePulls_mapped h page.2
  refine ⟨state', if decide (state'.wanted = ∅) || decide (Passed previousTime page) then .done
    else .more, ?_, hmapped, ?_⟩
  · simp only [visitPulls, htake, passed_eq, bind, Except.bind]
  · by_cases hstop : state'.wanted = ∅ ∨ Passed previousTime page
    · rw [if_pos (by simpa using hstop)]
      simpa using hstop
    · rw [if_neg (by simpa using hstop)]
      simpa using hstop

/-- The listing is read from its start: to its end, or until nothing is wanted, or up to a page
that has passed, and past no such page. -/
theorem walk_pulls (previousTime : Timestamp) (h : Mapped shas seen state)
    (pages : List (Text × List Closed)) (requests : List Text) :
    ∃ state' requests' read unread,
      walk (visitPulls previousTime) requests state (pages.map Repository.pullPage) =
        .ok (state', requests') ∧
      pages = read ++ unread ∧ Mapped shas (seen ++ changesOf read) state' ∧
      (unread = [] ∨ state'.wanted = ∅ ∨
        ∃ before page, read = before ++ [page] ∧ Passed previousTime page) ∧
      ∀ before page after, pages = before ++ page :: after → Passed previousTime page →
        read <+: before ++ [page] := by
  induction pages generalizing state seen requests with
  | nil =>
    refine ⟨state, requests, [], [], rfl, rfl, by simpa using h, .inl rfl, ?_⟩
    intro before page after heq
    simp at heq
  | cons page rest ih =>
    obtain ⟨next, paging, hvisit, hmapped, hdone⟩ := visitPulls_page previousTime h page
    cases paging with
    | done =>
      refine ⟨next, requests ++ [page.1], [page], rest, ?_, rfl, by simpa using hmapped,
        .inr ?_, ?_⟩
      · simp [walk, Repository.pullPage, hvisit, bind, Except.bind]
      · exact (hdone.mp rfl).imp_right fun hpassed => ⟨[], page, rfl, hpassed⟩
      · intro before other after heq _
        cases before with
        | nil =>
          obtain ⟨rfl, -⟩ := List.cons.inj heq
          exact List.prefix_rfl
        | cons first before =>
          obtain ⟨rfl, -⟩ := List.cons.inj heq
          exact (List.cons_prefix_cons).mpr ⟨rfl, List.nil_prefix⟩
    | more =>
      obtain ⟨state', requests', read, unread, hwalk, rfl, hread, hstop, hearly⟩ :=
        ih hmapped (requests ++ [page.1])
      refine ⟨state', requests', page :: read, unread, ?_, rfl, by simpa using hread, ?_, ?_⟩
      · simpa [walk, Repository.pullPage, hvisit, bind, Except.bind] using hwalk
      · refine hstop.imp_right (Or.imp_right ?_)
        rintro ⟨before, last, rfl, hpassed⟩
        exact ⟨page :: before, last, rfl, hpassed⟩
      · intro before other after heq hpassed
        cases before with
        | nil =>
          obtain ⟨rfl, -⟩ := List.cons.inj heq
          exact absurd (hdone.mpr (.inr hpassed)) (by simp)
        | cons first before =>
          obtain ⟨rfl, hrest⟩ := List.cons.inj heq
          exact (List.cons_prefix_cons).mpr ⟨rfl, hearly before other after hrest hpassed⟩

theorem mapCommits_commits (merged : List (Text × Change)) (changes : List Change)
    (shas : List Text) :
    (mapCommits merged changes shas).1 =
      shas.map fun sha => ⟨sha, (merged.lookup sha).map Change.number⟩ := by
  induction shas generalizing changes with
  | nil => rfl
  | cons sha rest ih =>
    rw [mapCommits, List.map_cons, ← ih]

theorem removeAll_concat (numbers listed : List ℕ) (number : ℕ) :
    numbers.removeAll (listed ++ [number]) =
      (numbers.removeAll listed).filter fun other => !other == number := by
  rw [List.removeAll, List.removeAll, List.filter_filter]
  apply List.filter_congr
  intro other _
  by_cases heq : other = number <;> simp [heq]

theorem mapCommits_numbers (merged : List (Text × Change)) (changes : List Change)
    (shas : List Text) :
    (mapCommits merged changes shas).2.map Change.number =
      changes.map Change.number ++
        (((shas.filterMap fun sha => merged.lookup sha).map Change.number).removeAll
          (changes.map Change.number)).eraseDups := by
  induction shas generalizing changes with
  | nil => simp [mapCommits]
  | cons sha rest ih =>
    cases hfound : merged.lookup sha with
    | none =>
      simp only [mapCommits, hfound, List.filterMap_cons]
      exact ih changes
    | some found =>
      by_cases hlisted : found.number ∈ changes.map Change.number
      · have hany : (changes.any fun change => change.number == found.number) = true := by
          simpa [List.any_eq_true] using hlisted
        simp only [mapCommits, hfound, List.filterMap_cons, hany, if_true, ih]
        rw [List.map_cons, List.cons_removeAll, if_neg]
        simpa using hlisted
      · have hany : (changes.any fun change => change.number == found.number) = false := by
          simpa [List.any_eq_false] using hlisted
        simp only [mapCommits, hfound, List.filterMap_cons, hany,
          Bool.false_eq_true, if_false, ih]
        rw [List.map_cons, List.cons_removeAll, if_pos (by simpa using hlisted), List.eraseDups_cons]
        rw [List.map_append, List.map_singleton, removeAll_concat, List.append_assoc]
        rfl

theorem mapCommits_listed {merged : List (Text × Change)} {changes : List Change}
    {shas : List Text} {change : Change} (h : change ∈ (mapCommits merged changes shas).2) :
    change ∈ changes ∨ ∃ sha ∈ shas, merged.lookup sha = some change := by
  induction shas generalizing changes with
  | nil => exact .inl h
  | cons sha rest ih =>
    rw [mapCommits] at h
    rcases ih h with hchanges | ⟨other, hother, hlookup⟩
    · cases hfound : merged.lookup sha with
      | none => exact .inl (by simpa [hfound] using hchanges)
      | some found =>
        simp only [hfound] at hchanges
        split at hchanges
        · exact .inl hchanges
        · rcases List.mem_append.mp hchanges with hold | hnew
          · exact .inl hold
          · obtain rfl := List.mem_singleton.mp hnew
            exact .inr ⟨sha, List.mem_cons_self, hfound⟩
    · exact .inr ⟨other, List.mem_cons_of_mem _ hother, hlookup⟩

/-- What the query answers: each commit with the first merged pull request of the pages read, and
the pages read end where the listing does, or every commit is mapped, or a page has passed; they
go past no such page. -/
theorem releaseChanges_read (repository : Repository) (request : ReleaseChangesRequest)
    {previous : Text} {requests : List Text}
    (h : previousTag request repository.releases = .ok (previous, requests))
    (hrange : repository.range previous request.tag ≠ []) :
    ∃ answer read unread, releaseChanges request repository.answers = .ok answer ∧
      repository.closed = read ++ unread ∧
      answer.commits = (repository.range previous request.tag).map (fun sha =>
        ⟨sha, ((changesOf read).find? (Change.mergedAs sha)).map Change.number⟩) ∧
      answer.changes.map Change.number =
        (answer.commits.filterMap ReleaseCommit.change).eraseDups ∧
      (∀ change ∈ answer.changes, ∃ sha ∈ repository.range previous request.tag,
        (changesOf read).find? (Change.mergedAs sha) = some change) ∧
      (unread = [] ∨
        (∀ sha ∈ repository.range previous request.tag,
          ∃ seen ∈ changesOf read, seen.mergedAs sha) ∨
        ∃ before page, read = before ++ [page] ∧ Passed (repository.base previous).2 page) ∧
      ∀ before page after, repository.closed = before ++ page :: after →
        Passed (repository.base previous).2 page → read <+: before ++ [page] := by
  obtain ⟨requests₁, hcompare⟩ := walk_compare repository previous request.tag requests hrange
  obtain ⟨commit, hcommit⟩ : ∃ commit,
      (repository.range previous request.tag).getLast? = some commit :=
    ⟨_, List.getLast?_eq_some_getLast hrange⟩
  obtain ⟨mapping, requests₂, read, unread, hpulls, hpages, hmapped, hstop, hearly⟩ :=
    walk_pulls (repository.base previous).2
      (Mapped.start (repository.range previous request.tag)) repository.closed requests₁
  rw [List.nil_append] at hmapped
  have hcommits : (mapCommits mapping.merged [] (repository.range previous request.tag)).1 =
      (repository.range previous request.tag).map (fun sha =>
        ⟨sha, ((changesOf read).find? (Change.mergedAs sha)).map Change.number⟩) := by
    rw [mapCommits_commits]
    apply List.map_congr_left
    intro sha hsha
    rw [hmapped.merged sha hsha]
  refine ⟨{ schemaVersion := 1, repository := request.repository, tag := request.tag, commit,
            previousTag := previous, previousCommit := (repository.base previous).1
            commits :=
              (mapCommits mapping.merged [] (repository.range previous request.tag)).1
            changes :=
              (mapCommits mapping.merged [] (repository.range previous request.tag)).2
            cost := ⟨0, min requests₂.length (2 ^ 32 - 1), requests₂⟩ },
    read, unread, ?_, hpages, hcommits, ?_, ?_, ?_, hearly⟩
  · change previousTag request repository.answers.releases = _ at h
    change walk _ _ _ repository.answers.pulls = _ at hpulls
    simp only [releaseChanges, h, hcompare, hcommit, hpulls, bind, Except.bind]
  · rw [mapCommits_numbers, mapCommits_commits]
    simp [List.removeAll, List.filterMap_map, List.map_filterMap]
  · intro change hchange
    rcases mapCommits_listed hchange with hnil | ⟨sha, hsha, hlookup⟩
    · simp at hnil
    · exact ⟨sha, hsha, (hmapped.merged sha hsha).symm.trans hlookup⟩
  · refine hstop.imp_right (Or.imp_left ?_)
    intro hempty sha hsha
    have hfound : (changesOf read).find? (Change.mergedAs sha) ≠ none := by
      intro hnone
      have hwanted := (hmapped.wanted sha).mpr ⟨hsha, hnone⟩
      simp [hempty] at hwanted
    obtain ⟨seen, hseen⟩ := Option.ne_none_iff_exists'.mp hfound
    exact ⟨seen, List.mem_of_find?_eq_some hseen, List.find?_some hseen⟩

/-- A release's answer attributes every commit exactly where no merged pull request it carries is
only on a page after one that ends before the previous tag's commit. -/
theorem releaseChanges_attributes_iff (repository : Repository) (request : ReleaseChangesRequest)
    {previous : Text} {requests : List Text}
    (h : previousTag request repository.releases = .ok (previous, requests))
    (hrange : repository.range previous request.tag ≠ []) :
    AttributesEvery repository request previous ↔
      SeenInTime repository previous request.tag := by
  obtain ⟨answer, read, unread, hanswer, hpages, hcommits, hchanges, hlisted, hstop, hearly⟩ :=
    releaseChanges_read repository request h hrange
  have hread : ∀ change ∈ changesOf read, change ∈ changesOf repository.closed := by
    intro change hchange
    rw [hpages, changesOf_append]
    exact List.mem_append_left _ hchange
  constructor
  · rintro ⟨other, hother, hattributes⟩ before page after hsplit hpassed sha hsha change
      hchange hmerged
    obtain rfl := Except.ok.inj (hanswer.symm.trans hother)
    -- The commit has a change, which is one of the pages read, and none is read past this page.
    have hentry : (⟨sha, ((changesOf read).find? (Change.mergedAs sha)).map Change.number⟩ :
        ReleaseCommit) ∈ answer.commits := by
      rw [hcommits]
      exact List.mem_map_of_mem hsha
    have hall : change ∈ changesOf repository.closed := by
      rw [hsplit, changesOf_append, changesOf_cons]
      exact List.mem_append_right _ (List.mem_append_right _ hchange)
    cases hfind : (changesOf read).find? (Change.mergedAs sha) with
    | none =>
      have hnone := hattributes.unmapped _ hentry (by simp [hfind]) change hall
      exact absurd hmerged hnone
    | some seen =>
      obtain ⟨rest, hrest⟩ := hearly before page after hsplit hpassed
      refine ⟨seen, ?_, List.find?_some hfind⟩
      rw [← hrest, changesOf_append]
      exact List.mem_append_left _ (List.mem_of_find?_eq_some hfind)
  · intro hseen
    refine ⟨answer, hanswer, ?_, ?_, ?_, hchanges, ?_⟩
    · rw [hcommits, List.map_map]
      exact List.map_id _
    · intro entry hentry hnone change hchange hmerged
      rw [hcommits] at hentry
      obtain ⟨sha, hsha, rfl⟩ := List.mem_map.mp hentry
      have hfind := Option.map_eq_none_iff.mp hnone
      have hunseen : ∀ seen ∈ changesOf read, ¬ seen.mergedAs sha := by
        intro seen hmem
        simpa using List.find?_eq_none.mp hfind seen hmem
      rw [hpages, changesOf_append] at hchange
      rcases List.mem_append.mp hchange with hin | hout
      · exact hunseen change hin hmerged
      · rcases hstop with rfl | hmapped | ⟨before, page, rfl, hpassed⟩
        · simp at hout
        · obtain ⟨seen, hmem, hmergedAs⟩ := hmapped sha hsha
          exact hunseen seen hmem hmergedAs
        · obtain ⟨seen, hmem, hmergedAs⟩ := hseen before page unread (by simpa using hpages)
            hpassed sha hsha change hout hmerged
          exact hunseen seen hmem hmergedAs
    · intro entry hentry number hnumber
      rw [hcommits] at hentry
      obtain ⟨sha, hsha, rfl⟩ := List.mem_map.mp hentry
      obtain ⟨change, hfind, rfl⟩ := Option.map_eq_some_iff.mp hnumber
      exact ⟨change, hread change (List.mem_of_find?_eq_some hfind), List.find?_some hfind, rfl⟩
    · intro change hchange
      obtain ⟨sha, hsha, hfind⟩ := hlisted change hchange
      exact ⟨hread change (List.mem_of_find?_eq_some hfind), sha, hsha, List.find?_some hfind⟩

/-- The first of a month of 2026. -/
def march : Timestamp := ⟨"2026-03-01T00:00:00Z".toList, 1772323200⟩

def april : Timestamp := ⟨"2026-04-01T00:00:00Z".toList, 1775001600⟩

def may : Timestamp := ⟨"2026-05-01T00:00:00Z".toList, 1777593600⟩

/-- A pull request closed without a merge. -/
def abandoned (number : ℕ) : Change :=
  ⟨number, "Drop a cache".toList, "closed".toList, "main".toList, List.replicate 40 'd', march, none,
    none⟩

/-- The pull request merged in March, as its merge commit is on the line of the later tag. -/
def mergedInMarch : Change :=
  ⟨7, "Add a cache".toList, "closed".toList, "main".toList, List.replicate 40 'c', march,
    some march, some (List.replicate 40 'a')⟩

/-- The earlier tag is on a branch of its own, on a commit of May; the later one carries a pull
request merged in March. A hundred others were updated since, the last of them in April. -/
def branchedRelease : Repository where
  releases := []
  base _ := (List.replicate 40 'b', may)
  comparison _ _ := [("repos/o/r/compare/v1.0.0...v1.1.0?per_page=100".toList,
    [List.replicate 40 'a'])]
  closed :=
    [("repos/o/r/pulls?state=closed&sort=updated&direction=desc&per_page=100".toList,
        (List.range 100).map fun n => ⟨abandoned (107 - n), april⟩),
      ("repositories/1/pulls?state=closed&sort=updated&direction=desc&per_page=100&page=2".toList,
        [⟨mergedInMarch, march⟩])]

def branchedRequest : ReleaseChangesRequest :=
  ⟨"o/r".toList, "v1.1.0".toList, some "v1.0.0".toList⟩

/-- The listing is left at April, and the commit is reported without its pull request. -/
theorem branched_release_unmapped :
    branchedRelease.range "v1.0.0".toList branchedRequest.tag ≠ [] ∧
      ¬ AttributesEvery branchedRelease branchedRequest "v1.0.0".toList := by
  refine ⟨by decide, ?_⟩
  rintro ⟨answer, hanswer, hattributes⟩
  have hcommits : (releaseChanges branchedRequest branchedRelease.answers).map
      ReleaseChanges.commits = .ok [⟨List.replicate 40 'a', none⟩] := rfl
  rw [hanswer] at hcommits
  have hentry := hattributes.unmapped ⟨List.replicate 40 'a', none⟩
    (by rw [Except.ok.inj hcommits]; exact List.mem_singleton_self _) rfl mergedInMarch
  exact hentry (by decide +kernel) (by decide)

/-- The same release measured from a commit of March: no page ends before it, and the commit is
reported with its pull request. -/
theorem march_release_attributed :
    AttributesEvery { branchedRelease with base := fun _ => (List.replicate 40 'b', march) }
      branchedRequest "v1.0.0".toList := by
  refine (releaseChanges_attributes_iff _ branchedRequest
    (show _ = Except.ok ("v1.0.0".toList, []) from rfl) (by decide)).mpr ?_
  intro before page after hsplit hpassed
  have hpages : ∀ page ∈ branchedRelease.closed, ¬ Passed march page := by decide +kernel
  refine absurd hpassed (hpages page ?_)
  rw [show branchedRelease.closed = before ++ page :: after from hsplit]
  exact List.mem_append_right _ List.mem_cons_self

end Onevcs.Host
