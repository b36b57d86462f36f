import Onevcs.Audit.Mirror
import Onevcs.Audit.Status

/-!
# The scan of a mirror clone's history

The exposure audit's `gitscan.rs`, as far as it decides what of a history is passed to the
matcher and what status the history is reported with: the refs, the commits' messages and
identities, the tags' messages, the blobs, and the paths of the raw diffs and of the trees that
only a commitless ref names. A piece is what one call of the matcher is given; it reads the
bytes as UTF-8, with U+FFFD for what is not, which cuts nowhere the scan does not. Rows, the
survey, statistics and the attribution of a hit to its commits are left out.
-/

namespace Onevcs.Audit

open Foundations (splitn)

def Cell.endsRecord (cell : Cell) : Bool := cell.byte == recordEnd

def Cell.endsField (cell : Cell) : Bool := cell.byte == fieldEnd

def Cell.endsLine (cell : Cell) : Bool := cell.byte == newline

/-- The byte a path's directories end at. -/
def slash : UInt8 := 0x2f

/-- The byte an entry of a raw diff starts with. -/
def colon : UInt8 := 0x3a

/-- A blob larger than this is counted and skipped rather than read. -/
def maxBlob : Nat := 32 * 1024 * 1024

inductive Command
  | refs
  | commits
  | tags
  | objects
  | batch
  | rawLog
  | commitless (name : Bytes)

/-- A read that failed for no reason the statuses name. -/
def readStatus (succeeded : Bool) : Status := if succeeded then .scanned else .otherError

namespace Scan

variable (m : Mirror)

/-! ## Records -/

/-- The fields of a record, cut into at most `count`, from after its line end. -/
def fieldsOf (count : Nat) (record : List Cell) : List (List Cell) :=
  splitn Cell.endsField count (record.dropWhile Cell.endsLine)

/-- What a record passes to the matcher: the fields after its first two, where it is one of
those the scan reads. -/
def passes (count : Nat) (reads : List (List Cell) → Bool) (record : List Cell) :
    List (List Cell) :=
  if reads (fieldsOf count record) then (fieldsOf count record).drop 2 else []

/-- A record of a commit has its five fields. -/
def readsCommit (fields : List (List Cell)) : Bool := !decide (fields.length < 5)

/-- A record of an annotated tag has its three fields, the second of them its type. -/
def readsTag (fields : List (List Cell)) : Bool :=
  !decide (fields.length < 3) && fields[1]?.map (·.map Cell.byte) == some (ascii "tag")

/-- `Scan::commits`: the pieces of a log, record by record. The read after the last record,
where the loop ends, has no five fields. -/
def commits (log : List Cell) : List (List Cell) :=
  (log.splitOnP Cell.endsRecord).flatMap (passes 5 readsCommit)

/-- `Scan::tags`: the pieces of the tags' listing, record by record. -/
def tags (listing : List Cell) : List (List Cell) :=
  (listing.splitOnP Cell.endsRecord).flatMap (passes 3 readsTag)

/-- `Scan::refs`: the pieces of the refs, which are their names. -/
def refs : List (List Cell) :=
  m.forEachRef.map fun line => marked (.ref line.name) line.name

/-- The refs that name a tree or a blob, or a tag that cannot be seen to reach a commit. -/
def commitless : List (Bytes × Word) :=
  m.refs.filter fun ref =>
    m.kindOf ref.2 != ascii "commit" &&
      !(m.kindOf ref.2 == ascii "tag" &&
        match m.shown ref.2 with
        | some (_, ⟨.tag tag, _⟩) => m.kindOf tag.target == ascii "commit"
        | _ => false)

/-- The blobs `Scan::blobs` asks for. -/
def wanted : List Word :=
  (m.objects.filter fun line => line.kind == ascii "blob" && decide (line.size ≤ maxBlob)).map
    (·.oid)

/-- A content whose first bytes hold a NUL. -/
def binary (content : Bytes) : Bool := (content.take 8000).contains 0

/-- `Scan::blobs`: the pieces of the blobs that are answered, and whether each was. -/
def blobs : List (List Cell) :=
  ((wanted m).filterMap m.batch).filter fun content => !binary (content.map Cell.byte)

/-- Every blob that was asked for was answered. -/
def blobsAnswered : Bool := (wanted m).all fun oid => (m.batch oid).isSome

/-- `rsplit_once('/')`: the directory a path is in. -/
def directoryOf (path : Bytes) : Option Bytes :=
  match path.reverse.dropWhile fun byte => byte != slash with
  | [] => none
  | _ :: directory => some directory.reverse

/-- A path and the directories it is in, in at most `depth` steps. -/
def prefixesWithin : Nat → Bytes → List Bytes
  | 0, _ => []
  | depth + 1, path =>
    path ::
      match directoryOf path with
      | some directory => prefixesWithin depth directory
      | none => []

/-- A path and the directories it is in. -/
def prefixes (path : Bytes) : List Bytes := prefixesWithin (path.length + 1) path

/-- The paths `Scan::attribute` asks for in the tokens of the raw diffs, where `written` says
that an entry stands before the next: that token is a path, whatever it starts with. -/
def diffPaths : Bool → List Bytes → List Bytes
  | _, [] => []
  | true, path :: rest => prefixes path ++ diffPaths false rest
  | false, token :: rest =>
    let token := if token.head? = some newline then token.tail else token
    if token.head? = some recordEnd then diffPaths false rest
    else diffPaths (decide (token.head? = some colon)) rest

/-- `Scan::commitless`: the paths of the tree a ref names, where it names one. -/
def commitlessPaths (ref : Bytes × Word) : List Bytes :=
  ((m.peel ref.2).map m.lsTree).getD []

/-- `Paths::get`: the pieces of the paths, each distinct one matched when it is first met. -/
def paths (walk : m.Walk) : List (List Cell) :=
  (diffPaths false (m.rawLog walk) ++ (commitless m).flatMap (commitlessPaths m)).dedup.map
    fun path => marked (.path path) path

def commitlessRead (succeeds : Command → Bool) : Bool :=
  (commitless m).all fun ref => succeeds (.commitless ref.1) && (m.peel ref.2).isSome

/-- What a scan of the history comes to: its status, and every piece it passed. -/
structure Outcome where
  history : Status
  passed : List (List Cell)

/-- `Scan::run`, where `succeeds` says which git commands do. A command that fails fails its
part of the scan; what it had passed by then is left out. -/
def run (walk : m.Walk) (succeeds : Command → Bool) : Outcome :=
  if !succeeds .refs then ⟨.otherError, []⟩
  else if m.refs.isEmpty then ⟨.notFound, []⟩
  else
    { history := .combineAll
        [readStatus (succeeds .commits), readStatus (succeeds .tags),
          readStatus (succeeds .objects && succeeds .batch && blobsAnswered m),
          readStatus (succeeds .rawLog && commitlessRead m succeeds)]
      passed := refs m ++ commits (m.log walk) ++ tags m.tagsListing ++ blobs m ++
        paths m walk }

end Scan

end Onevcs.Audit
