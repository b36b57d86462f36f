import Onevcs.Audit.Status
import Onevcs.Foundations.Dict
import Onevcs.Foundations.Lines
import Onevcs.Store.Normalize

/-!
# Attributing a hit to its commits

`Scan::attribute` of the exposure audit's `gitscan.rs`: one walk of every commit's raw diffs
notes, for each blob that matched and each path that matches, the commits that carry it; then the
trees that only a commitless ref names are listed, and each hit's rows are written.

Texts are what the audit reads git's bytes as: UTF-8, with U+FFFD for what is not. A row names its
rule by the rule's index. The survey of exemptions, the repository a row names and the matching of
the blobs themselves are left out.
-/

namespace Onevcs.Audit.Attribute

open Foundations (Dict Text)
open Store (splitOnce stripPrefix trim)

/-! ## Hits -/

/-- The commits a matching blob or path is attributed to, at most. -/
def maxAttribution : Nat := 20

/-- A rule that was found, and a snippet of where. -/
structure Found where
  rule : Nat
  snippet : Text

/-- The commits carrying a hit: the first `maxAttribution` of them, and how many. -/
structure Attribution where
  commits : List Text := []
  total : Nat := 0
  /-- The walk's generation of the commit counted last. -/
  generation : Nat := 0

def Attribution.add (commit : Text) (generation : Nat) (attribution : Attribution) : Attribution :=
  if attribution.generation = generation then attribution
  else
    { generation
      total := attribution.total + 1
      commits :=
        if attribution.commits.length < maxAttribution then attribution.commits ++ [commit]
        else attribution.commits }

/-- A hit waiting for its commits: its terms with their snippets, and what reaches it. -/
structure Pending where
  found : List Found
  attribution : Attribution := {}
  /-- For a blob, the first path it was seen at. -/
  path : Option Text := none
  /-- A commitless ref that reaches it. -/
  reachedBy : Option Text := none

def Pending.new (found : List Found) : Pending := { found }

/-- One more commit carries the hit. -/
def Pending.credit (commit : Text) (generation : Nat) (hit : Pending) : Pending :=
  { hit with attribution := hit.attribution.add commit generation }

/-- A path the hit is at, where none was known. -/
def Pending.seenAt (path : Text) (hit : Pending) : Pending :=
  { hit with path := hit.path.or (some path) }

/-- A commitless ref that reaches the hit, where none was known. -/
def Pending.reachedFrom (name : Text) (hit : Pending) : Pending :=
  { hit with reachedBy := hit.reachedBy.or (some name) }

/-- Every distinct path the walk has met, each matched once when first met. -/
abbrev Paths := Dict Text (Option Pending)

variable (find : Text → List Found)

/-- What is noted of a path when it is first met: a hit, where it matches. -/
def met (path : Text) : Option Pending :=
  if (find path).isEmpty then none else some (.new (find path))

/-- `Paths::get`, with what becomes of the hit there. -/
def Paths.get (path : Text) (change : Pending → Pending) (paths : Paths) : Paths :=
  Dict.modify path (Option.map change)
    (if (Dict.get path paths).isSome then paths else paths ++ [(path, met find path)])

/-- `rsplit_once('/')`: the directory a path is in. -/
def directoryOf (path : Text) : Option Text :=
  match path.reverse.dropWhile (· != '/') with
  | [] => none
  | _ :: directory => some directory.reverse

/-- A path and the directories it is in, in at most `depth` steps. -/
def prefixesWithin : Nat → Text → List Text
  | 0, _ => []
  | depth + 1, path =>
    path ::
      match directoryOf path with
      | some directory => prefixesWithin depth directory
      | none => []

/-- A path and the directories it is in. -/
def prefixes (path : Text) : List Text := prefixesWithin (path.length + 1) path

/-- The state of the walk over the raw diffs. -/
structure Walk where
  commit : Text := []
  /-- A merge's header repeats before its diff against each parent; the generation changes only
  when the commit does. -/
  generation : Nat := 0
  /-- The blob an entry writes, where the next token is the entry's path. -/
  written : Option Text := none
  blobs : Dict Text Pending
  paths : Paths := []

/-- `split(0)`: what stands before each NUL, and what stands after the last one unless it is
nothing. -/
def split (stream : Text) : List Text :=
  if (stream.splitOn '\x00').getLast? = some [] then (stream.splitOn '\x00').dropLast
  else stream.splitOn '\x00'

/-- A path of a raw diff, whose entry writes the blob `oid`. -/
def Walk.touch (oid path : Text) (walk : Walk) : Walk :=
  { walk with
    written := none
    blobs := Dict.modify oid (fun blob => (blob.credit walk.commit walk.generation).seenAt path)
      walk.blobs
    paths := (prefixes path).foldl
      (fun paths directory =>
        Paths.get find directory (Pending.credit walk.commit walk.generation) paths)
      walk.paths }

def Walk.enter (hash : Text) (walk : Walk) : Walk :=
  if hash = walk.commit then walk
  else { walk with commit := hash, generation := walk.generation + 1 }

/-- The hash of what an entry writes. -/
def writtenBy (entry : Text) : Text := (entry.splitOn ' ')[3]?.getD []

/-- One token of the walk: a path is the token after its entry's metadata, whatever it starts
with. -/
def read (walk : Walk) (token : Text) : Walk :=
  match walk.written with
  | some oid => walk.touch find oid token
  | none =>
    match stripPrefix ['\x1e'] ((stripPrefix ['\n'] token).getD token) with
    | some hash => walk.enter hash
    | none =>
      match stripPrefix [':'] ((stripPrefix ['\n'] token).getD token) with
      | some entry => { walk with written := some (writtenBy entry) }
      | none => walk

/-- What git answers about the refs that name no commit: none where it fails. -/
structure Git where
  /-- `rev-parse --verify -q name^{}`. -/
  revParse : Text → Option Text
  /-- `cat-file -t`. -/
  catFile : Text → Option Text
  /-- `ls-tree -r -t -z`. -/
  lsTree : Text → Option Text

/-- The hits while the commitless refs are read, and whether every read succeeded. -/
structure Reading where
  read : Bool := true
  blobs : Dict Text Pending
  paths : Paths

/-- One entry of the listing of the tree that the ref `name` names. -/
def readEntry (name : Text) (reading : Reading) (entry : Text) : Reading :=
  match splitOnce '\t' entry with
  | none => reading
  | some (header, path) =>
    { reading with
      paths := Paths.get find path (Pending.reachedFrom name) reading.paths
      blobs :=
        match (header.splitOn ' ')[2]? with
        | some oid =>
          Dict.modify oid (fun blob => (blob.reachedFrom name).seenAt path) reading.blobs
        | none => reading.blobs }

def entriesOf (listing : Text) : List Text := (listing.splitOn '\x00').filter (!·.isEmpty)

/-- One ref of `Scan::commitless`. -/
def readRef (git : Git) (reading : Reading) (name : Text) : Reading :=
  match (git.revParse (name ++ "^{}".toList)).map trim with
  | none => { reading with read := false }
  | some oid =>
    if (Dict.get oid reading.blobs).isSome then
      { reading with blobs := Dict.modify oid (Pending.reachedFrom name) reading.blobs }
    else
      match (git.catFile oid).map trim with
      | none => { reading with read := false }
      | some kind =>
        if kind ≠ "tree".toList then reading
        else
          match git.lsTree oid with
          | none => { reading with read := false }
          | some listing => (entriesOf listing).foldl (readEntry find name) reading

def commitless (git : Git) (names : List Text) (reading : Reading) : Reading :=
  names.foldl (readRef find git) reading

/-! ## Rows -/

/-- Where in history a hit is. -/
inductive Location
  | path
  | blob
  deriving DecidableEq

/-- A row of a path that is at the tip. -/
structure FileRow where
  path : Text
  term : Nat
  snippet : Text

structure HistoryRow where
  commit : Text
  term : Nat
  location : Location
  path : Option Text
  snippet : Text

/-- Why a hit's commits are not all listed. -/
inductive Gap
  | unattributed
  | attributionTruncated
  deriving DecidableEq

/-- A row of a hit whose commits are not all listed. -/
structure GapRow where
  gap : Gap
  location : Location
  object : Text
  path : Option Text
  reachedBy : Option Text
  terms : List Nat
  snippets : List Text
  attributed : Nat
  commits : Nat

/-- What is written of one surface, and its statistics. -/
structure Report where
  files : List FileRow := []
  history : List HistoryRow := []
  gaps : List GapRow := []
  unattributed : Nat := 0
  attributionTruncated : Nat := 0
  commitlessRefs : Nat := 0
  paths : Nat := 0

/-- The path a row of a location names. -/
def Location.pathOf (location : Location) (key : Text) : Option Text :=
  if location = .path then some key else none

def historyRows (location : Location) (key : Text) (found : List Found) (commits : List Text) :
    List HistoryRow :=
  found.flatMap fun hit =>
    commits.map fun commit =>
      { commit, term := hit.rule, location, path := location.pathOf key, snippet := hit.snippet }

/-- Why the commits of an attribution are not all listed, where they are not. -/
def Attribution.gap (attribution : Attribution) : Option Gap :=
  if attribution.total = 0 then some .unattributed
  else if attribution.commits.length < attribution.total then some .attributionTruncated
  else none

def gapRow (location : Location) (key : Text) (hit : Pending) (gap : Gap) : GapRow :=
  { gap
    location
    object := key
    path := (location.pathOf key).or hit.path
    reachedBy := hit.reachedBy
    terms := hit.found.map Found.rule
    snippets := hit.found.map Found.snippet
    attributed := hit.attribution.commits.length
    commits := hit.attribution.total }

/-- `Scan::emit`: one hit's history rows, and its gap row when its commits are not all listed. -/
def emit (location : Location) (report : Report) (entry : Text × Pending) : Report :=
  let gap := entry.2.attribution.gap
  { report with
    history := report.history ++
      historyRows location entry.1 entry.2.found entry.2.attribution.commits
    gaps := report.gaps ++ (gap.map (gapRow location entry.1 entry.2)).toList
    unattributed := report.unattributed + if gap = some .unattributed then 1 else 0
    attributionTruncated :=
      report.attributionTruncated + if gap = some .attributionTruncated then 1 else 0 }

/-- A path at the tip is also a current-file row. -/
def fileRows (head : List Text) (entry : Text × Pending) : List FileRow :=
  if entry.1 ∈ head then
    entry.2.found.map fun hit => { path := entry.1, term := hit.rule, snippet := hit.snippet }
  else []

/-- The rows of a path that matches. -/
def emitPath (head : List Text) (report : Report) (entry : Text × Pending) : Report :=
  emit .path { report with files := report.files ++ fileRows head entry } entry

/-- The paths that match, by their names. -/
def matched (paths : Paths) : List (Text × Pending) :=
  (paths.filterMap fun entry => entry.2.map fun hit => (entry.1, hit)).mergeSort
    fun a b => decide (a.1 ≤ b.1)

/-- `Scan::attribute`: whether it completed, and what it wrote. `exited` is whether git succeeded
in printing `stream`, `head` the paths at the tip and `names` the commitless refs. -/
def attributeHits (git : Git) (exited : Bool) (stream : Text) (head names : List Text)
    (blobs : Dict Text Pending) : Except Status Unit × Report :=
  let walk := (split stream).foldl (read find) { blobs }
  let reading := commitless find git names { blobs := walk.blobs, paths := walk.paths }
  let report : Report := { commitlessRefs := names.length, paths := reading.paths.length }
  (if exited && reading.read then .ok () else .error .otherError,
    reading.blobs.foldl (emit .blob) ((matched reading.paths).foldl (emitPath head) report))

/-! ## Histories -/

/-- A mode, a hash or a status, as a raw diff prints it. -/
structure Word where
  text : Text
  unbroken : ' ' ∉ text ∧ '\x00' ∉ text

/-- An entry of a raw diff. What a removed path holds after it is the null hash, which no object
has. -/
structure Touched where
  oldMode : Word
  newMode : Word
  old : Word
  new : Word
  status : Word
  path : { path : Text // '\x00' ∉ path }

/-- The commits that `git log --all` walks, in its order, with the parents of each and git's raw
diff of it against a parent or against nothing. -/
structure History where
  commits : List Text
  nodup : commits.Nodup
  hash : ∀ commit ∈ commits, commit ≠ [] ∧ '\x00' ∉ commit
  parents : Text → List Text
  diff : Option Text → Text → List Touched

/-- A path is the other, or the other lies beneath it. -/
def Beneath (path directory : Text) : Prop := path = directory ∨ (directory ++ ['/']) <+: path

instance (path directory : Text) : Decidable (Beneath path directory) :=
  inferInstanceAs (Decidable (_ ∨ _))

namespace History

variable (h : History)

/-- A commit's raw diffs: against each parent, or against nothing for a root. -/
def rawDiffs (commit : Text) : List (List Touched) :=
  if h.parents commit = [] then [h.diff none commit]
  else (h.parents commit).map fun parent => h.diff (some parent) commit

/-- A raw diff of the commit writes the blob. -/
def Writes (oid commit : Text) : Prop :=
  ∃ diff ∈ h.rawDiffs commit, ∃ entry ∈ diff, entry.new.text = oid

/-- A raw diff of the commit touches the path or something beneath it. -/
def Touches (path commit : Text) : Prop :=
  ∃ diff ∈ h.rawDiffs commit, ∃ entry ∈ diff, Beneath entry.path path

instance (oid commit : Text) : Decidable (h.Writes oid commit) :=
  inferInstanceAs (Decidable (∃ diff ∈ h.rawDiffs commit, ∃ entry ∈ diff, entry.new.text = oid))

instance (path commit : Text) : Decidable (h.Touches path commit) :=
  inferInstanceAs (Decidable (∃ diff ∈ h.rawDiffs commit, ∃ entry ∈ diff, Beneath entry.path path))

/-- The distinct commits that write a blob. -/
def writers (oid : Text) : List Text := h.commits.filter fun commit => h.Writes oid commit

/-- The distinct commits that touch a path or something beneath it. -/
def touchers (path : Text) : List Text := h.commits.filter fun commit => h.Touches path commit

/-- An entry, with the end of each of its two parts. -/
def entryText (entry : Touched) : Text :=
  [':'] ++ [' '].intercalate
      [entry.oldMode.text, entry.newMode.text, entry.old.text, entry.new.text, entry.status.text] ++
    ['\x00'] ++ entry.path ++ ['\x00']

/-- A commit's header, and a raw diff of it after a line end. -/
def diffText (commit : Text) (diff : List Touched) : Text :=
  ['\x1e'] ++ commit ++ ['\x00'] ++
    if diff = [] then [] else ['\n'] ++ diff.flatMap entryText

/-- The raw diffs git prints a header for: those that are not empty, and one of none where every
one is. -/
def printed (commit : Text) : List (List Touched) :=
  if (h.rawDiffs commit).all (·.isEmpty) then [[]]
  else (h.rawDiffs commit).filter (!·.isEmpty)

/-- `git log --all --raw --root -z --diff-merges=separate --format=%x1e%H`. -/
def rawLog : Text := h.commits.flatMap fun commit => (h.printed commit).flatMap (diffText commit)

end History

end Onevcs.Audit.Attribute
