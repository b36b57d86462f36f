import Mathlib.Data.List.Dedup
import Onevcs.Audit.Records

/-!
# A history that was read whole

What a scan owes a history it reports scanned: each ref's name, each reachable commit's
identities and message, each reachable annotated tag's message, each path of a reachable tree
and each reachable blob that is neither oversized nor binary, in pieces cut at most at the two
bytes the listings are framed by.

The scan does not keep it. The framing loses what a message holds after a record's end; the
tags' listing reads the tags that a ref under `refs/tags` names, and no tag such a tag names; a
directory without a file is in no raw diff; and a replacement ref hides the object it replaces.
The scan reads a history whole in exactly those mirrors where none of this loses a byte.
-/

namespace Onevcs.Audit

open Foundations

/-! ## What a scan owes, and what it comes down to -/

/-- A text was passed to the matcher, in pieces cut at framing alone. -/
def Read (passed : List (List Cell)) (source : Source) (bytes : Bytes) : Prop :=
  Covered Cell.separates passed (marked source bytes)

/-- Everything reachable was passed to the matcher. -/
structure ReadWhole (m : Mirror) (passed : List (List Cell)) : Prop where
  names : ∀ ref ∈ m.refs, Read passed (.ref ref.1) ref.1
  commits : ∀ oid commit content, m.Reachable oid →
    m.stored oid = some ⟨.commit commit, content⟩ →
      Read passed (.author oid) commit.author.text ∧
        Read passed (.committer oid) commit.committer.text ∧
          Read passed (.message oid) commit.message
  tags : ∀ oid tag content, m.Reachable oid → m.stored oid = some ⟨.tag tag, content⟩ →
    Read passed (.contents oid) tag.contents
  paths : ∀ oid entries content, m.Reachable oid →
    m.stored oid = some ⟨.tree entries, content⟩ →
      ∀ entry ∈ entries, Read passed (.path entry.path) entry.path
  blobs : ∀ oid content, m.Reachable oid → m.stored oid = some ⟨.blob, content⟩ →
    content.length ≤ maxBlob → Scan.binary content = false → Read passed (.blob oid) content

namespace Mirror

variable (m : Mirror)

/-- The log lists the commit, itself and not a replacement of it. -/
def ListsCommit (oid : Word) : Prop :=
  ∃ listed, m.Logged listed ∧ m.resolve listed = some oid

/-- A ref under `refs/tags` names the tag, and it is shown itself. -/
def ListsTag (oid : Word) : Prop :=
  ∃ ref ∈ m.refs, under tagsNamespace ref.1 = true ∧ m.resolve ref.2 = some oid

/-- The path is that of a file some listed commit wrote or of a directory above one, or is in
a tree that a commitless ref names. -/
def ListsPath (path : Bytes) : Prop :=
  (∃ listed, m.Logged listed ∧ ∃ diff ∈ m.rawDiffs listed, ∃ file ∈ diff,
    path ∈ Scan.prefixes file) ∨
  ∃ ref ∈ Scan.commitless m, path ∈ Scan.commitlessPaths m ref

/-- The blob is shown itself, for a blob that is asked for. -/
def ListsBlob (oid : Word) : Prop :=
  ∃ listed ∈ Scan.wanted m, m.resolve listed = some oid

/-- Every listing shows what it is to list, framed so that none of it is lost. -/
structure Framed : Prop where
  commits : ∀ oid commit content, m.Reachable oid →
    m.stored oid = some ⟨.commit commit, content⟩ → m.ListsCommit oid ∧ commit.Framed
  tags : ∀ oid tag content, m.Reachable oid → m.stored oid = some ⟨.tag tag, content⟩ →
    Void tag.contents ∨ m.ListsTag oid ∧ tag.Framed
  paths : ∀ oid entries content, m.Reachable oid →
    m.stored oid = some ⟨.tree entries, content⟩ →
      ∀ entry ∈ entries, Void entry.path ∨ m.ListsPath entry.path
  blobs : ∀ oid content, m.Reachable oid → m.stored oid = some ⟨.blob, content⟩ →
    content.length ≤ maxBlob → Scan.binary content = false → Void content ∨ m.ListsBlob oid

end Mirror

section Parts

variable {m : Mirror} {walk : m.Walk} {oid : Word} {cell : Cell} {source : Source} {index : Nat}
  {piece : List Cell} {bytes : Bytes}

/-- The part of the scan that passes a source's text. -/
def partOf (m : Mirror) (walk : m.Walk) : Source → List (List Cell)
  | .author _ | .committer _ | .message _ => Scan.commits (m.log walk)
  | .contents _ => Scan.tags m.tagsListing
  | .ref _ => Scan.refs m
  | .path _ => Scan.paths m walk
  | .blob _ => Scan.blobs m

def everything (m : Mirror) (walk : m.Walk) : List (List Cell) :=
  Scan.refs m ++ Scan.commits (m.log walk) ++ Scan.tags m.tagsListing ++ Scan.blobs m ++
    Scan.paths m walk

theorem partOf_subset (source : Source) : partOf m walk source ⊆ everything m walk := by
  intro piece hpiece
  simp only [everything, List.mem_append]
  cases source <;> simp only [partOf] at hpiece <;> tauto

theorem mem_refs_iff : piece ∈ Scan.refs m ↔ ∃ ref ∈ m.refs, piece = marked (.ref ref.1) ref.1 := by
  simp [Scan.refs, Mirror.forEachRef, eq_comm]

theorem mem_blobs_iff : piece ∈ Scan.blobs m ↔ ∃ listed ∈ Scan.wanted m, ∃ actual stored,
    m.shown listed = some (actual, stored) ∧ Scan.binary stored.content = false ∧
      piece = marked (.blob actual) stored.content := by
  simp only [Scan.blobs, List.mem_filter, List.mem_filterMap, Mirror.batch, Option.map_eq_some_iff,
    Prod.exists]
  constructor
  · rintro ⟨⟨listed, hlisted, actual, stored, hshown, rfl⟩, hbinary⟩
    exact ⟨listed, hlisted, actual, stored, hshown, by simpa using hbinary, rfl⟩
  · rintro ⟨listed, hlisted, actual, stored, hshown, hbinary, rfl⟩
    exact ⟨⟨listed, hlisted, actual, stored, hshown, rfl⟩, by simpa using hbinary⟩

theorem mem_paths_iff : piece ∈ Scan.paths m walk ↔
    ∃ path, (path ∈ Scan.diffPaths false (m.rawLog walk) ∨
      ∃ ref ∈ Scan.commitless m, path ∈ Scan.commitlessPaths m ref) ∧
        piece = marked (.path path) path := by
  simp only [Scan.paths, List.mem_map, List.mem_dedup, List.mem_append, List.mem_flatMap,
    @eq_comm _ piece]

theorem exists_listed (hpiece : piece ∈ Scan.commits (m.log walk)) (hcell : cell ∈ piece) :
    ∃ listed actual commit content, m.Logged listed ∧
      m.shown listed = some (actual, ⟨.commit commit, content⟩) ∧
        piece ∈ piecesOf 5 Scan.readsCommit (headed listed commit.time (commit.cells actual)) ∧
          cell ∈ headed listed commit.time (commit.cells actual) := by
  rw [commits_log, List.mem_flatMap] at hpiece
  obtain ⟨listed, hlisted, hpiece⟩ := hpiece
  have hbody := mem_of_mem_piece hpiece hcell
  fun_cases logBody m listed with
  | case1 actual commit content hshown =>
    rw [logBody_of_shown hshown] at hpiece hbody
    exact ⟨listed, actual, commit, content, (walk.property listed).mp hlisted, hshown, hpiece,
      hbody⟩
  | case2 hnot =>
    have hempty : logBody m listed = [] := by
      rw [logBody]
      split
      · rename_i hshown
        exact absurd hshown (hnot _ _ _)
      · rfl
    rw [hempty] at hbody
    cases hbody

theorem mark_of_mem_headed {first second actual : Word} {commit : Commit}
    (h : cell ∈ headed first second (commit.cells actual)) (hmark : cell.mark ≠ none) :
    cell ∈ marked (.author actual) commit.author.text ∨
      cell ∈ marked (.committer actual) commit.committer.text ∨
        cell ∈ marked (.message actual) commit.message := by
  simp only [headed, Commit.cells, Mirror.field, List.mem_append, List.mem_singleton] at h
  rcases h with ((h | rfl) | (h | rfl)) | (h | rfl) | (h | rfl) | h
  · exact absurd (mark_of_mem_plain h) hmark
  · exact absurd rfl hmark
  · exact absurd (mark_of_mem_plain h) hmark
  · exact absurd rfl hmark
  · exact .inl h
  · exact absurd rfl hmark
  · exact .inr (.inl h)
  · exact absurd rfl hmark
  · exact .inr (.inr h)

theorem mark_of_mem_tagBody (h : cell ∈ tagBody m oid) :
    cell.mark = none ∨ ∃ actual index, cell.mark = some (.contents actual, index) := by
  simp only [tagBody, List.mem_append, List.mem_singleton] at h
  rcases h with ((h | rfl) | (h | rfl)) | h
  · exact .inl (mark_of_mem_plain h)
  · exact .inl rfl
  · exact .inl (mark_of_mem_plain h)
  · exact .inl rfl
  · right
    rw [Mirror.contentsOf] at h
    split at h
    · exact ⟨_, mark_of_mem_marked h⟩
    · exact ⟨_, mark_of_mem_marked h⟩
    · cases h

/-- A cell of a text is passed only where its source's texts are. -/
theorem mem_partOf (hpiece : piece ∈ everything m walk) (hcell : cell ∈ piece)
    (hmark : cell.mark = some (source, index)) : piece ∈ partOf m walk source := by
  have hne : cell.mark ≠ none := by
    rw [hmark]
    nofun
  simp only [everything, List.mem_append] at hpiece
  rcases hpiece with (((hpiece | hpiece) | hpiece) | hpiece) | hpiece
  · obtain ⟨ref, -, rfl⟩ := mem_refs_iff.mp hpiece
    obtain ⟨_, hown⟩ := mark_of_mem_marked hcell
    obtain ⟨rfl, -⟩ := Prod.mk.inj (Option.some.inj (hmark.symm.trans hown))
    exact hpiece
  · obtain ⟨listed, actual, commit, content, -, -, -, hin⟩ := exists_listed hpiece hcell
    rcases mark_of_mem_headed hin hne with hin | hin | hin <;>
      obtain ⟨_, hown⟩ := mark_of_mem_marked hin <;>
        obtain ⟨rfl, -⟩ := Prod.mk.inj (Option.some.inj (hmark.symm.trans hown)) <;>
          exact hpiece
  · have htags := hpiece
    rw [tags_tagsListing, List.mem_flatMap] at hpiece
    obtain ⟨ref, -, hrecord⟩ := hpiece
    rcases mark_of_mem_tagBody (mem_of_mem_piece hrecord hcell) with hnone | ⟨_, _, hown⟩
    · exact absurd hnone hne
    · obtain ⟨rfl, -⟩ := Prod.mk.inj (Option.some.inj (hmark.symm.trans hown))
      exact htags
  · obtain ⟨_, _, _, _, _, _, rfl⟩ := mem_blobs_iff.mp hpiece
    obtain ⟨_, hown⟩ := mark_of_mem_marked hcell
    obtain ⟨rfl, -⟩ := Prod.mk.inj (Option.some.inj (hmark.symm.trans hown))
    exact hpiece
  · obtain ⟨_, _, rfl⟩ := mem_paths_iff.mp hpiece
    obtain ⟨_, hown⟩ := mark_of_mem_marked hcell
    obtain ⟨rfl, -⟩ := Prod.mk.inj (Option.some.inj (hmark.symm.trans hown))
    exact hpiece

theorem read_of_mem (h : marked source bytes ∈ partOf m walk source) :
    Read (everything m walk) source bytes :=
  covered_of_mem (partOf_subset source h)

theorem read_of_void (h : Void bytes) : Read (everything m walk) source bytes := by
  refine covered_of_forall fun cell hcell => ?_
  exact h cell.byte (byte_of_mem_marked hcell)

theorem exists_passed (h : Read (everything m walk) source bytes) (hvoid : ¬ Void bytes) :
    ∃ cell index, cell.mark = some (source, index) ∧
      ∃ piece ∈ partOf m walk source, cell ∈ piece := by
  rw [Void] at hvoid
  push Not at hvoid
  obtain ⟨byte, hbyte, hfree⟩ := hvoid
  obtain ⟨cell, hcell, rfl⟩ := exists_mem_marked source hbyte
  obtain ⟨index, hmark⟩ := mark_of_mem_marked hcell
  obtain ⟨piece, hpiece, hin⟩ := h.mem hcell (by simpa [Cell.separates] using hfree)
  exact ⟨cell, index, hmark, piece, mem_partOf hpiece hin hmark, hin⟩

theorem name_read {ref : Bytes × Word} (h : ref ∈ m.refs) :
    Read (everything m walk) (.ref ref.1) ref.1 :=
  read_of_mem (mem_refs_iff.mpr ⟨ref, h, rfl⟩)

theorem shown_of_resolve {listed actual : Word} {stored : Stored}
    (hresolve : m.resolve listed = some actual) (hstored : m.stored actual = some stored) :
    m.shown listed = some (actual, stored) := by
  rw [Mirror.shown, hresolve, Option.bind_some, hstored]
  rfl

theorem resolve_of_shown {listed actual : Word} {stored : Stored}
    (h : m.shown listed = some (actual, stored)) :
    m.resolve listed = some actual ∧ m.stored actual = some stored := by
  rw [Mirror.shown, Option.bind_eq_some_iff] at h
  obtain ⟨found, hresolve, h⟩ := h
  rw [Option.map_eq_some_iff] at h
  obtain ⟨object, hstored, h⟩ := h
  obtain ⟨rfl, rfl⟩ := Prod.mk.inj h
  exact ⟨hresolve, hstored⟩

theorem blob_read_iff {content : Bytes} (hstored : m.stored oid = some ⟨.blob, content⟩)
    (hbinary : Scan.binary content = false) :
    Read (everything m walk) (.blob oid) content ↔ Void content ∨ m.ListsBlob oid := by
  constructor
  · intro hread
    refine or_iff_not_imp_left.mpr fun hvoid => ?_
    obtain ⟨cell, index, hmark, piece, hpiece, hin⟩ := exists_passed hread hvoid
    obtain ⟨listed, hlisted, actual, stored, hshown, -, rfl⟩ := mem_blobs_iff.mp hpiece
    obtain ⟨_, hown⟩ := mark_of_mem_marked hin
    obtain ⟨hsource, -⟩ := Prod.mk.inj (Option.some.inj (hmark.symm.trans hown))
    obtain rfl := Source.blob.inj hsource
    exact ⟨listed, hlisted, (resolve_of_shown hshown).1⟩
  · rintro (hvoid | ⟨listed, hlisted, hresolve⟩)
    · exact read_of_void hvoid
    · exact read_of_mem (mem_blobs_iff.mpr
        ⟨listed, hlisted, oid, _, shown_of_resolve hresolve hstored, hbinary, rfl⟩)

theorem diffPaths_diff (diff : List Bytes) (rest : List Bytes) :
    Scan.diffPaths false ((diff.flatMap fun path => [Mirror.metaToken, path]) ++ rest) =
      diff.flatMap Scan.prefixes ++ Scan.diffPaths false rest := by
  induction diff with
  | nil => rfl
  | cons path diff ih =>
    have hmeta : Scan.diffPaths false (Mirror.metaToken :: path ::
        ((diff.flatMap fun path => [Mirror.metaToken, path]) ++ rest)) =
        Scan.prefixes path ++ Scan.diffPaths false
          ((diff.flatMap fun path => [Mirror.metaToken, path]) ++ rest) := rfl
    rw [List.flatMap_cons, List.flatMap_cons, List.append_assoc, List.append_assoc, ← ih]
    exact hmeta

theorem diffPaths_header (oid : Word) (rest : List Bytes) :
    Scan.diffPaths false (Mirror.headerToken oid :: rest) = Scan.diffPaths false rest := rfl

theorem diffPaths_diffs (oid : Word) (diffs : List (List Bytes)) (rest : List Bytes) :
    Scan.diffPaths false ((diffs.flatMap fun diff =>
        Mirror.headerToken oid :: diff.flatMap fun path => [Mirror.metaToken, path]) ++ rest) =
      diffs.flatten.flatMap Scan.prefixes ++ Scan.diffPaths false rest := by
  induction diffs with
  | nil => rfl
  | cons diff diffs ih =>
    rw [List.flatMap_cons, List.flatten_cons, List.flatMap_append, List.append_assoc,
      List.append_assoc, ← ih, List.cons_append, diffPaths_header, diffPaths_diff]

/-- The paths of the raw diffs are those of every listed commit's, and the directories they
are in. -/
theorem diffPaths_rawLog (m : Mirror) (walk : m.Walk) :
    Scan.diffPaths false (m.rawLog walk) =
      walk.val.flatMap fun oid => (m.rawDiffs oid).flatten.flatMap Scan.prefixes := by
  rw [Mirror.rawLog]
  induction walk.val with
  | nil => rfl
  | cons oid rest ih => rw [List.flatMap_cons, List.flatMap_cons, diffPaths_diffs, ih]

theorem path_read_iff {path : Bytes} :
    Read (everything m walk) (.path path) path ↔ Void path ∨ m.ListsPath path := by
  have hlists : m.ListsPath path ↔ path ∈ Scan.diffPaths false (m.rawLog walk) ∨
      ∃ ref ∈ Scan.commitless m, path ∈ Scan.commitlessPaths m ref := by
    rw [Mirror.ListsPath, diffPaths_rawLog]
    simp only [List.mem_flatMap, List.mem_flatten, walk.property]
    refine or_congr ?_ Iff.rfl
    constructor
    · rintro ⟨listed, hlogged, diff, hdiff, file, hfile, hpath⟩
      exact ⟨listed, hlogged, file, ⟨diff, hdiff, hfile⟩, hpath⟩
    · rintro ⟨listed, hlogged, file, ⟨diff, hdiff, hfile⟩, hpath⟩
      exact ⟨listed, hlogged, diff, hdiff, file, hfile, hpath⟩
  rw [hlists]
  constructor
  · intro hread
    refine or_iff_not_imp_left.mpr fun hvoid => ?_
    obtain ⟨cell, index, hmark, piece, hpiece, hin⟩ := exists_passed hread hvoid
    obtain ⟨other, hother, rfl⟩ := mem_paths_iff.mp hpiece
    obtain ⟨_, hown⟩ := mark_of_mem_marked hin
    obtain ⟨hsource, -⟩ := Prod.mk.inj (Option.some.inj (hmark.symm.trans hown))
    obtain rfl := Source.path.inj hsource
    exact hother
  · rintro (hvoid | hlisted)
    · exact read_of_void hvoid
    · exact read_of_mem (mem_paths_iff.mpr ⟨path, hlisted, rfl⟩)

variable {commit : Commit} {content : Bytes}

theorem not_void_text (identity : Identity) : ¬ Void identity.text := by
  intro hvoid
  have hmem : (0x20 : UInt8) ∈ identity.text := by
    have hspace : (0x20 : UInt8) ∈ ascii " <" := by decide
    simp only [Identity.text, List.mem_append]
    exact .inl (.inl (.inr hspace))
  exact absurd (hvoid _ hmem) (by decide)

theorem mem_cells_iff {actual : Word} : cell ∈ commit.cells actual ∧ cell.mark ≠ none ↔
    cell ∈ marked (.author actual) commit.author.text ∨
      cell ∈ marked (.committer actual) commit.committer.text ∨
        cell ∈ marked (.message actual) commit.message := by
  constructor
  · rintro ⟨hcell, hmark⟩
    have hheaded : cell ∈ headed actual actual (commit.cells actual) :=
      List.mem_append_right _ hcell
    exact mark_of_mem_headed hheaded hmark
  · intro h
    refine ⟨?_, ?_⟩
    · simp only [Commit.cells, Mirror.field, List.mem_append]
      tauto
    · rcases h with h | h | h <;> obtain ⟨_, hmark⟩ := mark_of_mem_marked h <;> rw [hmark] <;>
        rintro ⟨⟩

theorem read_of_framed {count : Nat} {reads : List (List Cell) → Bool} {stream : List Cell}
    (htext : marked source bytes <:+: stream)
    (hlost : ∀ record ∈ stream.splitOnP Cell.endsRecord, ∀ cell ∈ lost (count + 1) reads record,
      cell.mark ≠ none → cell.endsField = true)
    (hpieces : piecesOf (count + 1) reads stream ⊆ everything m walk) :
    Read (everything m walk) source bytes := by
  intro stretch hne hin hfree
  have hkept (record : List Cell) (hrecord : record ∈ stream.splitOnP Cell.endsRecord)
      (cell : Cell) (hcell : cell ∈ stretch) : cell ∉ lost (count + 1) reads record := by
    intro hmem
    obtain ⟨_, hmark⟩ := mark_of_mem_marked (hin.subset hcell)
    have hends := hlost record hrecord cell hmem (by rw [hmark]; nofun)
    have hcellfree := hfree cell hcell
    rw [Cell.separates_eq, hends, Bool.or_true] at hcellfree
    cases hcellfree
  obtain ⟨piece, hpiece, hwithin⟩ := exists_piece (hin.trans htext) hne hfree hkept
  exact ⟨piece, hpieces hpiece, hwithin⟩

theorem commit_read (hstored : m.stored oid = some ⟨.commit commit, content⟩)
    (hlists : m.ListsCommit oid) (hframed : commit.Framed) {source : Source} {bytes : Bytes}
    (htext : marked source bytes <:+: commit.cells oid) :
    Read (everything m walk) source bytes := by
  obtain ⟨listed, hlogged, hresolve⟩ := hlists
  have hbody := logBody_of_shown (shown_of_resolve hresolve hstored)
  refine read_of_framed (htext.trans (List.suffix_append _ _).isInfix)
    ((framed_iff_lost listed oid commit).mp hframed) fun piece hpiece => ?_
  have hpart : piece ∈ Scan.commits (m.log walk) := by
    rw [commits_log, List.mem_flatMap]
    exact ⟨listed, (walk.property listed).mpr hlogged, hbody ▸ hpiece⟩
  exact partOf_subset (.message oid) hpart

theorem commit_read_iff (hstored : m.stored oid = some ⟨.commit commit, content⟩) :
    (Read (everything m walk) (.author oid) commit.author.text ∧
      Read (everything m walk) (.committer oid) commit.committer.text ∧
        Read (everything m walk) (.message oid) commit.message) ↔
      m.ListsCommit oid ∧ commit.Framed := by
  constructor
  · rintro ⟨hauthor, hcommitter, hmessage⟩
    -- What is read of the commit is in a record of it, and every cell of it in such a record.
    have hall (cell : Cell) (hcell : cell ∈ commit.cells oid) (hmark : cell.mark ≠ none)
        (hfree : cell.separates = false) : ∃ listed, m.Logged listed ∧
          m.shown listed = some (oid, ⟨.commit commit, content⟩) ∧
            ∃ piece ∈ piecesOf 5 Scan.readsCommit
              (headed listed commit.time (commit.cells oid)), cell ∈ piece := by
      have hin := mem_cells_iff.mp ⟨hcell, hmark⟩
      obtain ⟨piece, hpiece, hcellin, hown⟩ : ∃ piece ∈ Scan.commits (m.log walk),
          cell ∈ piece ∧ ∃ index, cell.mark = some (.author oid, index) ∨
            cell.mark = some (.committer oid, index) ∨
              cell.mark = some (.message oid, index) := by
        rcases hin with hin | hin | hin <;> obtain ⟨index, hsource⟩ := mark_of_mem_marked hin
        · obtain ⟨piece, hpiece, hcellin⟩ := hauthor.mem hin hfree
          exact ⟨piece, mem_partOf hpiece hcellin hsource, hcellin, index, .inl hsource⟩
        · obtain ⟨piece, hpiece, hcellin⟩ := hcommitter.mem hin hfree
          exact ⟨piece, mem_partOf hpiece hcellin hsource, hcellin, index, .inr (.inl hsource)⟩
        · obtain ⟨piece, hpiece, hcellin⟩ := hmessage.mem hin hfree
          exact ⟨piece, mem_partOf hpiece hcellin hsource, hcellin, index, .inr (.inr hsource)⟩
      obtain ⟨listed, actual, other, found, hlogged, hshown, hrecord, hheaded⟩ :=
        exists_listed hpiece hcellin
      obtain rfl : actual = oid := by
        obtain ⟨index, hown⟩ := hown
        rcases mark_of_mem_headed hheaded hmark with hin | hin | hin <;>
          obtain ⟨_, hother⟩ := mark_of_mem_marked hin <;>
            rw [hother] at hown <;> simp at hown <;> exact hown.1
      have hsame := hstored.symm.trans (resolve_of_shown hshown).2
      obtain ⟨rfl, rfl⟩ : commit = other ∧ content = found := by simpa using hsame
      exact ⟨listed, hlogged, hshown, piece, hrecord, hcellin⟩
    constructor
    · obtain ⟨byte, hbyte, hfree⟩ : ∃ byte ∈ commit.author.text, isSeparator byte = false := by
        simpa [Void] using not_void_text commit.author
      obtain ⟨cell, hcell, rfl⟩ := exists_mem_marked (.author oid) hbyte
      obtain ⟨hin, hmark⟩ := mem_cells_iff.mpr (.inl hcell)
      obtain ⟨listed, hlogged, hshown, -⟩ := hall cell hin hmark hfree
      exact ⟨listed, hlogged, (resolve_of_shown hshown).1⟩
    · refine (framed_iff_lost oid oid commit).mpr fun record hrecord cell hlost hmark => ?_
      by_contra hends
      rw [Bool.not_eq_true] at hends
      have hrecordcell := mem_of_mem_lost hlost
      have hfree : cell.separates = false := by
        rw [Cell.separates_eq, free_of_mem_splitOnP hrecord hrecordcell, hends]
        rfl
      have hin := mark_of_mem_headed (mem_of_mem_splitOnP hrecord hrecordcell) hmark
      obtain ⟨listed, -, -, piece, hpiece, hcellin⟩ :=
        hall cell (mem_cells_iff.mpr hin).1 hmark hfree
      obtain ⟨other, hother, hlostthere⟩ : ∃ other ∈
          (headed listed commit.time (commit.cells oid)).splitOnP Cell.endsRecord,
          cell ∈ lost 5 Scan.readsCommit other :=
        exists_lost_headed hmark ⟨record, hrecord, hlost⟩
      obtain ⟨⟨source, index⟩, hsource⟩ := Option.ne_none_iff_exists'.mp hmark
      exact not_mem_piece hfree (count_headed_le hsource) hother hlostthere hpiece hcellin
  · rintro ⟨hlists, hframed⟩
    refine ⟨commit_read hstored hlists hframed ?_, commit_read hstored hlists hframed ?_,
      commit_read hstored hlists hframed ?_⟩
    · exact ((List.prefix_append _ _).trans (List.prefix_append _ _)).isInfix
    · exact ((List.prefix_append _ _).trans (List.prefix_append _ _)).isInfix.trans
        (List.suffix_append _ _).isInfix
    · exact ((List.suffix_append _ _).trans (List.suffix_append _ _)).isInfix

variable {tag : Tag}

/-- A cell of a tag's contents is passed by the record of a ref that names it. -/
theorem exists_tag_ref (hstored : m.stored oid = some ⟨.tag tag, content⟩)
    (hpiece : piece ∈ Scan.tags m.tagsListing) (hcell : cell ∈ piece)
    (hmark : cell.mark = some (.contents oid, index)) :
    ∃ ref ∈ m.refs, under Mirror.tagsNamespace ref.1 = true ∧ m.resolve ref.2 = some oid ∧
      piece ∈ piecesOf 3 Scan.readsTag
        (headed ref.2 tagWord (marked (.contents oid) tag.contents)) := by
  rw [tags_tagsListing, List.mem_flatMap] at hpiece
  obtain ⟨ref, href, hrecord⟩ := hpiece
  obtain ⟨href, hunder⟩ := List.mem_filter.mp href
  have hin := mem_of_mem_piece hrecord hcell
  have hne : cell.mark ≠ none := by
    rw [hmark]
    nofun
  have hcontents : cell ∈ m.contentsOf ref.2 := by
    simp only [tagBody, List.mem_append, List.mem_singleton] at hin
    rcases hin with ((hin | rfl) | (hin | rfl)) | hin
    · exact absurd (mark_of_mem_plain hin) hne
    · exact absurd rfl hne
    · exact absurd (mark_of_mem_plain hin) hne
    · exact absurd rfl hne
    · exact hin
  rw [Mirror.contentsOf] at hcontents
  split at hcontents
  · rename_i actual other found hshown
    obtain ⟨_, hown⟩ := mark_of_mem_marked hcontents
    obtain ⟨hsource, -⟩ := Prod.mk.inj (Option.some.inj (hmark.symm.trans hown))
    obtain rfl := Source.contents.inj hsource
    obtain ⟨hresolve, hother⟩ := resolve_of_shown hshown
    obtain ⟨rfl, rfl⟩ : tag = other ∧ content = found := by
      simpa using hstored.symm.trans hother
    rw [tagBody_of_shown hshown] at hrecord
    exact ⟨ref, href, hunder, hresolve, hrecord⟩
  · rename_i actual other found hshown
    obtain ⟨_, hown⟩ := mark_of_mem_marked hcontents
    obtain ⟨hsource, -⟩ := Prod.mk.inj (Option.some.inj (hmark.symm.trans hown))
    obtain rfl := Source.contents.inj hsource
    have hboth := hstored.symm.trans (resolve_of_shown hshown).2
    simp at hboth
  · cases hcontents

theorem count_tag_le {first second : Word} (hmark : cell.mark = some (source, index)) :
    (headed first second (marked source bytes)).count cell ≤ 1 := by
  have hne : cell.mark ≠ none := by
    rw [hmark]
    nofun
  have hend : (⟨fieldEnd, none⟩ : Cell) ≠ cell := by
    rintro rfl
    cases hmark
  have htext := count_marked_le source bytes cell
  simp only [headed, Mirror.field, List.count_append, List.count_singleton,
    beq_eq_false_iff_ne.mpr hend, count_plain_of_mark hne, Bool.false_eq_true, if_false]
  omega

theorem exists_lost_tag {first other : Word} {text : List Cell} (hmark : cell.mark ≠ none)
    (h : ∃ record ∈ (headed first tagWord text).splitOnP Cell.endsRecord,
      cell ∈ lost 3 Scan.readsTag record) :
    ∃ record ∈ (headed other tagWord text).splitOnP Cell.endsRecord,
      cell ∈ lost 3 Scan.readsTag record := by
  obtain ⟨part, later, hparts, hrecords⟩ := splitOnP_headed first tagWord text
  obtain ⟨part', later', hparts', hrecords'⟩ := splitOnP_headed other tagWord text
  obtain ⟨rfl, rfl⟩ := List.cons.inj (hparts.symm.trans hparts')
  rw [hrecords] at h
  rw [hrecords']
  obtain ⟨record, hrecord, hlost⟩ := h
  rcases List.mem_cons.mp hrecord with rfl | hlater
  · exact absurd (mark_of_headed (readsTag_headed part) hlost) hmark
  · exact ⟨record, List.mem_cons_of_mem _ hlater, hlost⟩

/-- A tag is read where a ref under `refs/tags` names it and its contents are framed. -/
theorem tag_read_iff (hstored : m.stored oid = some ⟨.tag tag, content⟩) :
    Read (everything m walk) (.contents oid) tag.contents ↔
      Void tag.contents ∨ m.ListsTag oid ∧ tag.Framed := by
  constructor
  · intro hread
    refine or_iff_not_imp_left.mpr fun hvoid => ⟨?_, ?_⟩
    · obtain ⟨cell, index, hmark, piece, hpiece, hcell⟩ := exists_passed hread hvoid
      obtain ⟨ref, href, hunder, hresolve, -⟩ := exists_tag_ref hstored hpiece hcell hmark
      exact ⟨ref, href, hunder, hresolve⟩
    · refine (tagFramed_iff_lost oid oid tag).mpr fun record hrecord cell hlost hmark => ?_
      by_contra hends
      rw [Bool.not_eq_true] at hends
      have hrecordcell := mem_of_mem_lost hlost
      have hfree : cell.separates = false := by
        rw [Cell.separates_eq, free_of_mem_splitOnP hrecord hrecordcell, hends]
        rfl
      have htext : cell ∈ marked (.contents oid) tag.contents := by
        have hin := mem_of_mem_splitOnP hrecord hrecordcell
        simp only [headed, Mirror.field, List.mem_append, List.mem_singleton] at hin
        rcases hin with ((hin | rfl) | (hin | rfl)) | hin
        · exact absurd (mark_of_mem_plain hin) hmark
        · exact absurd rfl hmark
        · exact absurd (mark_of_mem_plain hin) hmark
        · exact absurd rfl hmark
        · exact hin
      obtain ⟨index, hown⟩ := mark_of_mem_marked htext
      obtain ⟨piece, hpiece, hcell⟩ := hread.mem htext hfree
      obtain ⟨ref, -, -, -, hrecords⟩ :=
        exists_tag_ref hstored (mem_partOf hpiece hcell hown) hcell hown
      obtain ⟨other, hother, hlostthere⟩ : ∃ other ∈
          (headed ref.2 tagWord (marked (.contents oid) tag.contents)).splitOnP Cell.endsRecord,
          cell ∈ lost 3 Scan.readsTag other :=
        exists_lost_tag hmark ⟨record, hrecord, hlost⟩
      exact not_mem_piece hfree (count_tag_le hown) hother hlostthere hrecords hcell
  · rintro (hvoid | ⟨⟨ref, href, hunder, hresolve⟩, hframed⟩)
    · exact read_of_void hvoid
    · have hbody := tagBody_of_shown (shown_of_resolve hresolve hstored)
      refine read_of_framed (List.suffix_append _ _).isInfix
        ((tagFramed_iff_lost ref.2 oid tag).mp hframed) fun piece hpiece => ?_
      have hpart : piece ∈ Scan.tags m.tagsListing := by
        rw [tags_tagsListing, List.mem_flatMap]
        exact ⟨ref, List.mem_filter.mpr ⟨href, hunder⟩, hbody ▸ hpiece⟩
      exact partOf_subset (.contents oid) hpart

end Parts

/-- Everything reachable is in what the scan passes exactly where every listing shows what it
is to list, framed so that none of it is lost. -/
theorem everything_iff (m : Mirror) (walk : m.Walk) :
    ReadWhole m (everything m walk) ↔ m.Framed := by
  constructor
  · intro h
    refine ⟨?_, ?_, ?_, ?_⟩
    · exact fun oid commit content hreach hstored =>
        (commit_read_iff hstored).mp (h.commits oid commit content hreach hstored)
    · exact fun oid tag content hreach hstored =>
        (tag_read_iff hstored).mp (h.tags oid tag content hreach hstored)
    · exact fun oid entries content hreach hstored entry hentry =>
        path_read_iff.mp (h.paths oid entries content hreach hstored entry hentry)
    · exact fun oid content hreach hstored hsize hbinary =>
        (blob_read_iff hstored hbinary).mp (h.blobs oid content hreach hstored hsize hbinary)
  · intro h
    refine ⟨fun ref href => name_read href, ?_, ?_, ?_, ?_⟩
    · exact fun oid commit content hreach hstored =>
        (commit_read_iff hstored).mpr (h.commits oid commit content hreach hstored)
    · exact fun oid tag content hreach hstored =>
        (tag_read_iff hstored).mpr (h.tags oid tag content hreach hstored)
    · exact fun oid entries content hreach hstored entry hentry =>
        path_read_iff.mpr (h.paths oid entries content hreach hstored entry hentry)
    · exact fun oid content hreach hstored hsize hbinary =>
        (blob_read_iff hstored hbinary).mpr (h.blobs oid content hreach hstored hsize hbinary)

/-- Every command of a scan succeeds, on a mirror with refs, and all it asks for is answered. -/
structure Completes (m : Mirror) (succeeds : Command → Bool) : Prop where
  refs : m.refs ≠ []
  commands : ∀ command ∈ [.refs, .commits, .tags, .objects, .batch, .rawLog], succeeds command
  blobs : Scan.blobsAnswered m = true
  commitless : Scan.commitlessRead m succeeds = true

theorem readStatus_eq_scanned {succeeded : Bool} :
    readStatus succeeded = .scanned ↔ succeeded = true := by
  cases succeeded <;> decide

theorem scanned_iff_completes {m : Mirror} {walk : m.Walk} {succeeds : Command → Bool} :
    (Scan.run m walk succeeds).history = .scanned ↔ Completes m succeeds := by
  have hfields : Completes m succeeds ↔ m.refs ≠ [] ∧
      (∀ command ∈ [.refs, .commits, .tags, .objects, .batch, .rawLog], succeeds command) ∧
        Scan.blobsAnswered m = true ∧ Scan.commitlessRead m succeeds = true :=
    ⟨fun ⟨hrefs, hall, hblobs, hread⟩ => ⟨hrefs, hall, hblobs, hread⟩,
      fun ⟨hrefs, hall, hblobs, hread⟩ => ⟨hrefs, hall, hblobs, hread⟩⟩
  rw [hfields]
  fun_cases Scan.run m walk succeeds
  · simp_all
  · simp_all
  · rw [Status.combineAll_eq_scanned]
    simp_all [readStatus_eq_scanned]
    tauto

theorem passed_of_completes {m : Mirror} {walk : m.Walk} {succeeds : Command → Bool}
    (h : Completes m succeeds) : (Scan.run m walk succeeds).passed = everything m walk := by
  have hscanned : (Scan.run m walk succeeds).history = .scanned := scanned_iff_completes.mpr h
  revert hscanned
  fun_cases Scan.run m walk succeeds <;> intro hscanned
  · cases hscanned
  · cases hscanned
  · rfl

def digit (byte : UInt8) (h : 0x20 < byte) : Word := ⟨[byte], by simpa using h⟩

/-- The commit, the tree and the blob of a history of one commit. -/
def loneCommit : Word := digit 0x63 (by decide)
def loneTree : Word := digit 0x74 (by decide)
def loneBlob : Word := digit 0x62 (by decide)

/-- A commit of one file, with a message. -/
def commitOf (message : Bytes) : Commit where
  parents := []
  tree := loneTree
  time := digit 0x30 (by decide)
  author := ⟨ascii "a", ascii "a@b"⟩
  committer := ⟨ascii "a", ascii "a@b"⟩
  message := message

/-- A branch at one commit of one file. -/
def loneMirror (message : Bytes) : Mirror where
  store :=
    [(loneCommit, ⟨.commit (commitOf message), []⟩),
      (loneTree, ⟨.tree [⟨ascii "f", .blob, loneBlob⟩], []⟩), (loneBlob, ⟨.blob, ascii "text"⟩)]
  refs := [(ascii "refs/heads/m", loneCommit)]

section Lone

variable {message : Bytes} {oid : Word}

theorem lone_stored {stored : Stored} (h : (loneMirror message).stored oid = some stored) :
    oid = loneCommit ∧ stored = ⟨.commit (commitOf message), []⟩ ∨
      oid = loneTree ∧ stored = ⟨.tree [⟨ascii "f", .blob, loneBlob⟩], []⟩ ∨
        oid = loneBlob ∧ stored = ⟨.blob, ascii "text"⟩ := by
  by_cases hcommit : oid = loneCommit
  · subst hcommit
    exact .inl ⟨rfl, (Option.some.inj h).symm⟩
  by_cases htree : oid = loneTree
  · subst htree
    exact .inr (.inl ⟨rfl, (Option.some.inj h).symm⟩)
  by_cases hblob : oid = loneBlob
  · subst hblob
    exact .inr (.inr ⟨rfl, (Option.some.inj h).symm⟩)
  simp [Mirror.stored, loneMirror, List.lookup_cons, beq_eq_false_iff_ne.mpr hcommit,
    beq_eq_false_iff_ne.mpr htree, beq_eq_false_iff_ne.mpr hblob] at h

theorem lone_logged : (loneMirror message).Logged oid ↔ oid = loneCommit := by
  have hshown : (loneMirror message).shown loneCommit =
      some (loneCommit, ⟨.commit (commitOf message), []⟩) := rfl
  constructor
  · intro h
    induction h with
    | @ref name target commit _ _ _ href hpeel _ =>
      obtain ⟨-, rfl⟩ : name = ascii "refs/heads/m" ∧ target = loneCommit := by
        simpa [loneMirror] using href
      exact (Option.some.inj hpeel).symm
    | parent _ hcommit hparent ih =>
      subst ih
      rw [hshown] at hcommit
      cases hcommit
      cases hparent
  · rintro rfl
    exact .ref (List.mem_singleton_self _) rfl hshown

/-- The walk of a history of one commit. -/
def loneWalk (message : Bytes) : (loneMirror message).Walk :=
  ⟨[loneCommit], fun _ => by rw [lone_logged, List.mem_singleton]⟩

/-- A history of one commit is listed, framed so that nothing of it is lost, where its commit's
text is framed. -/
theorem lone_framed_iff : (loneMirror message).Framed ↔ (commitOf message).Framed := by
  constructor
  · intro h
    exact (h.commits loneCommit (commitOf message) [] (.ref (List.mem_singleton_self _)) rfl).2
  · intro h
    refine ⟨?_, ?_, ?_, ?_⟩
    · intro oid commit content _ hstored
      rcases lone_stored hstored with ⟨rfl, hsame⟩ | ⟨-, hsame⟩ | ⟨-, hsame⟩ <;> cases hsame
      exact ⟨⟨loneCommit, lone_logged.mpr rfl, rfl⟩, h⟩
    · intro oid tag content _ hstored
      rcases lone_stored hstored with ⟨-, hsame⟩ | ⟨-, hsame⟩ | ⟨-, hsame⟩ <;> cases hsame
    · intro oid entries content _ hstored entry hentry
      rcases lone_stored hstored with ⟨-, hsame⟩ | ⟨rfl, hsame⟩ | ⟨-, hsame⟩ <;> cases hsame
      obtain rfl := List.mem_singleton.mp hentry
      have hdiffs : (loneMirror message).rawDiffs loneCommit = [[ascii "f"]] := by
        show [Mirror.changed [] [(ascii "f", loneBlob)]] = [[ascii "f"]]
        decide
      refine .inr (.inl ⟨loneCommit, lone_logged.mpr rfl, [ascii "f"], ?_, ascii "f", ?_, ?_⟩)
      · rw [hdiffs]
        exact List.mem_singleton_self _
      · exact List.mem_singleton_self _
      · decide
    · intro oid content _ hstored _ _
      rcases lone_stored hstored with ⟨-, hsame⟩ | ⟨-, hsame⟩ | ⟨rfl, hsame⟩ <;> cases hsame
      have hwanted : Scan.wanted (loneMirror message) = [loneBlob] := rfl
      exact .inr ⟨loneBlob, hwanted ▸ List.mem_singleton_self _, rfl⟩

end Lone

end Onevcs.Audit
