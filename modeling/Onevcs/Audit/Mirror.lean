import Onevcs.Foundations.Framing

/-!
# A mirror clone, and what git lists of it

The objects and refs of a mirror clone, what is reachable in it, and what the git commands the
audit runs answer about them: every ref and object through the replacement refs, as git reads
them, but for `cat-file --batch-all-objects`, which lists the objects themselves.

A listing is a list of cells: a byte, and where it belongs to a text of an object, a ref or a
path, which text and where in it. No command and no part of the audit reads the mark; it is
what lets a passed piece be told from a copy of it elsewhere. A file mode, which nothing reads,
is left out, and so are the identity of a tagger and the order of a tree's entries.
-/

namespace Onevcs.Audit

abbrev Bytes := List UInt8

/-- The bytes of a text of ASCII characters. -/
def ascii (text : String) : Bytes := text.toList.map fun c => .ofNat c.toNat

/-- A hash, a time or an object's type as git prints it: no control byte and no space. -/
structure Word where
  text : Bytes
  printable : ∀ byte ∈ text, 0x20 < byte
  deriving DecidableEq

/-! ## Objects and refs -/

structure Identity where
  name : Bytes
  email : Bytes

/-- An identity as a listing writes it: `name <email>`. -/
def Identity.text (identity : Identity) : Bytes :=
  identity.name ++ ascii " <" ++ identity.email ++ ascii ">"

structure Commit where
  parents : List Word
  tree : Word
  time : Word
  author : Identity
  committer : Identity
  message : Bytes

structure Tag where
  target : Word
  contents : Bytes

/-- What a tree's entry names. -/
inductive EntryKind
  | blob
  | tree
  | submodule
  deriving DecidableEq

/-- One entry of a tree listed with all its subtrees: its path from the tree's root. -/
structure Entry where
  path : Bytes
  kind : EntryKind
  oid : Word

/-- An object, as far as a listing reads it. -/
inductive Object
  | commit (commit : Commit)
  | tag (tag : Tag)
  | tree (entries : List Entry)
  | blob

/-- An object of the store, with its content as `cat-file` prints it. -/
structure Stored where
  object : Object
  content : Bytes

/-- A mirror clone: its objects by hash, and its refs by name. -/
structure Mirror where
  store : List (Word × Stored)
  refs : List (Bytes × Word)

/-- A ref lies under a namespace, or is the name it is asked for by. -/
def under (scope name : Bytes) : Bool :=
  name == scope || (scope ++ ascii "/").isPrefixOf name

namespace Mirror

variable (m : Mirror)

def stored (oid : Word) : Option Stored := m.store.lookup oid

inductive Reachable : Word → Prop
  | ref {name : Bytes} {oid : Word} : (name, oid) ∈ m.refs → Reachable oid
  | parent {oid parent : Word} {content : Bytes} {commit : Commit} :
      Reachable oid → m.stored oid = some ⟨.commit commit, content⟩ →
        parent ∈ commit.parents → Reachable parent
  | tree {oid : Word} {content : Bytes} {commit : Commit} :
      Reachable oid → m.stored oid = some ⟨.commit commit, content⟩ → Reachable commit.tree
  | target {oid : Word} {content : Bytes} {tag : Tag} :
      Reachable oid → m.stored oid = some ⟨.tag tag, content⟩ → Reachable tag.target
  | entry {oid : Word} {content : Bytes} {entries : List Entry} {entry : Entry} :
      Reachable oid → m.stored oid = some ⟨.tree entries, content⟩ → entry ∈ entries →
        entry.kind ≠ .submodule → Reachable entry.oid

/-- `refs/replace/`, under which a ref is named for the hash it replaces. -/
def replacePrefix : Bytes := ascii "refs/replace/"

/-- The hash git reads in place of `oid`, following at most `depth` replacement refs. -/
def resolveWithin : Nat → Word → Option Word
  | 0, _ => none
  | depth + 1, oid =>
    match m.refs.lookup (replacePrefix ++ oid.text) with
    | none => some oid
    | some replacement => resolveWithin depth replacement

/-- The hash git reads in place of `oid`: none where the replacements do not end. -/
def resolve (oid : Word) : Option Word := m.resolveWithin 6 oid

/-- What git shows for a hash: the hash it reads in its place, and the object there. -/
def shown (oid : Word) : Option (Word × Stored) :=
  (m.resolve oid).bind fun actual => (m.stored actual).map fun stored => (actual, stored)

/-- A tag followed to what it names, through at most `depth` tags. -/
def peelWithin : Nat → Word → Option Word
  | 0, _ => none
  | depth + 1, oid =>
    match m.shown oid with
    | some (_, ⟨.tag tag, _⟩) => peelWithin depth tag.target
    | some _ => some oid
    | none => none

/-- `name^{}`: a tag followed to what it names. -/
def peel (oid : Word) : Option Word := m.peelWithin (m.store.length + 1) oid

/-- The commits `git log --all` walks: those the refs name, and the parents of each. -/
inductive Logged : Word → Prop
  | ref {name : Bytes} {oid commit actual : Word} {shown : Commit} {content : Bytes} :
      (name, oid) ∈ m.refs → m.peel oid = some commit →
        m.shown commit = some (actual, ⟨.commit shown, content⟩) → Logged commit
  | parent {oid parent actual : Word} {commit : Commit} {content : Bytes} :
      Logged oid → m.shown oid = some (actual, ⟨.commit commit, content⟩) →
        parent ∈ commit.parents → Logged parent

/-- An order `git log --all` lists its commits in. -/
def Walk : Type := { order : List Word // ∀ oid, oid ∈ order ↔ m.Logged oid }

end Mirror

/-- The text of an object, a ref or a path a listing writes. -/
inductive Source
  | author (commit : Word)
  | committer (commit : Word)
  | message (commit : Word)
  /-- What a listing of tags writes as an object's contents. -/
  | contents (oid : Word)
  | ref (name : Bytes)
  | path (path : Bytes)
  | blob (oid : Word)
  deriving DecidableEq

/-- A byte of a listing, marked with the text it is of and where it stands in it. -/
structure Cell where
  byte : UInt8
  mark : Option (Source × Nat)
  deriving DecidableEq

def plain (bytes : Bytes) : List Cell := bytes.map fun byte => ⟨byte, none⟩

/-- A text, as a listing writes it. -/
def marked (source : Source) (bytes : Bytes) : List Cell :=
  bytes.zipIdx.map fun entry => ⟨entry.1, some (source, entry.2)⟩

/-- The byte a record of `git log` and of the tags ends at. -/
def recordEnd : UInt8 := 0x1e

/-- The byte a field of a record ends at. -/
def fieldEnd : UInt8 := 0x1f

def newline : UInt8 := 0x0a

/-- One of the two bytes a record is framed by. -/
def isSeparator (byte : UInt8) : Bool := byte == recordEnd || byte == fieldEnd

/-! ## Listings -/

/-- The name of an object's type. -/
def Object.kind : Object → Bytes
  | .commit _ => ascii "commit"
  | .tag _ => ascii "tag"
  | .tree _ => ascii "tree"
  | .blob => ascii "blob"

namespace Mirror

variable (m : Mirror)

/-- A line of `for-each-ref`: the object's type, the type of what a tag names, and the name.
A ref's name holds neither a space nor a line end, so a line's words are its fields. -/
structure RefLine where
  kind : Bytes
  peeled : Bytes
  name : Bytes

/-- The type of what a hash shows, empty where it shows nothing. -/
def kindOf (oid : Word) : Bytes := ((m.shown oid).map fun shown => shown.2.object.kind).getD []

/-- `for-each-ref`, of every ref. -/
def forEachRef : List RefLine :=
  m.refs.map fun ref =>
    { kind := m.kindOf ref.2
      peeled :=
        match m.shown ref.2 with
        | some (_, ⟨.tag tag, _⟩) => m.kindOf tag.target
        | _ => []
      name := ref.1 }

/-- A field of a record, and its end. -/
def field (cells : List Cell) : List Cell := cells ++ [⟨fieldEnd, none⟩]

/-- One record of `git log`: the hash, the time, the identities and the message. -/
def logRecord (oid : Word) : List Cell :=
  match m.shown oid with
  | some (actual, ⟨.commit commit, _⟩) =>
    field (plain oid.text) ++ field (plain commit.time.text) ++
      field (marked (.author actual) commit.author.text) ++
      field (marked (.committer actual) commit.committer.text) ++
      marked (.message actual) commit.message ++ [⟨recordEnd, none⟩]
  | _ => []

/-- `git log --all`: each commit's record on lines of its own. -/
def log (walk : m.Walk) : List Cell :=
  walk.val.flatMap fun oid => m.logRecord oid ++ [⟨newline, none⟩]

/-- `%(contents)` of what a ref names. -/
def contentsOf (oid : Word) : List Cell :=
  match m.shown oid with
  | some (actual, ⟨.tag tag, _⟩) => marked (.contents actual) tag.contents
  | some (actual, ⟨.commit commit, _⟩) => marked (.contents actual) commit.message
  | _ => []

/-- One record of the tags' listing: the hash, the type and the contents. -/
def tagRecord (oid : Word) : List Cell :=
  field (plain oid.text) ++ field (plain (m.kindOf oid)) ++ m.contentsOf oid ++
    [⟨recordEnd, none⟩]

/-- `refs/tags`. -/
def tagsNamespace : Bytes := ascii "refs/tags"

/-- `for-each-ref refs/tags`. -/
def tagsListing : List Cell :=
  (m.refs.filter fun ref => under tagsNamespace ref.1).flatMap fun ref =>
    m.tagRecord ref.2 ++ [⟨newline, none⟩]

/-- A line of `cat-file --batch-all-objects --batch-check`. -/
structure ObjectLine where
  oid : Word
  kind : Bytes
  size : Nat

/-- `cat-file --batch-all-objects --batch-check`: every object, as it is stored. -/
def objects : List ObjectLine :=
  m.store.map fun entry => ⟨entry.1, entry.2.object.kind, entry.2.content.length⟩

/-- What `cat-file --batch` answers about a hash: its content, or that it is missing. -/
def batch (oid : Word) : Option (List Cell) :=
  (m.shown oid).map fun shown => marked (.blob shown.1) shown.2.content

/-- The files of a tree: its entries but for its subtrees. -/
def files (tree : Word) : List (Bytes × Word) :=
  match m.shown tree with
  | some (_, ⟨.tree entries, _⟩) =>
    (entries.filter fun entry => entry.kind != .tree).map fun entry => (entry.path, entry.oid)
  | _ => []

/-- The files of the tree a commit shows. -/
def filesAt (oid : Word) : List (Bytes × Word) :=
  match m.shown oid with
  | some (_, ⟨.commit commit, _⟩) => m.files commit.tree
  | _ => []

/-- The paths a raw diff between two trees' files lists. -/
def changed (old new : List (Bytes × Word)) : List Bytes :=
  (((old ++ new).map Prod.fst).dedup).filter fun path => old.lookup path != new.lookup path

/-- A commit's raw diffs: against each parent, or the empty tree for a root. -/
def rawDiffs (oid : Word) : List (List Bytes) :=
  match m.shown oid with
  | some (_, ⟨.commit commit, _⟩) =>
    if commit.parents.isEmpty then [changed [] (m.filesAt oid)]
    else commit.parents.map fun parent => changed (m.filesAt parent) (m.filesAt oid)
  | _ => []

/-- The token a commit's header is, in the walk's raw diffs. -/
def headerToken (oid : Word) : Bytes := recordEnd :: oid.text

/-- The token before a path: the entry's modes, hashes and status, of which nothing that is
passed on depends. -/
def metaToken : Bytes := ascii ":"

/-- The tokens of `git log --all --raw -z`: for each raw diff the commit's header, and for each
path of it the entry and the path. No path holds the byte the tokens end at. -/
def rawLog (walk : m.Walk) : List Bytes :=
  walk.val.flatMap fun oid =>
    (m.rawDiffs oid).flatMap fun diff =>
      headerToken oid :: diff.flatMap fun path => [metaToken, path]

/-- `ls-tree -r -t`: the paths of a tree and of all its subtrees. -/
def lsTree (tree : Word) : List Bytes :=
  match m.shown tree with
  | some (_, ⟨.tree entries, _⟩) => entries.map Entry.path
  | _ => []

end Mirror

end Onevcs.Audit
