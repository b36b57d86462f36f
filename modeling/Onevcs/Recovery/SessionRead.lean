import Mathlib.Data.Char
import Mathlib.Data.List.Lex
import Mathlib.Data.List.Sort
import Onevcs.Foundations.Lines
import Onevcs.Foundations.Outcome
import Onevcs.Foundations.Transition

/-!
# Narrowed reads of the session records

`read` of `recovery_sessions.rs` and the `all` of `workspace.rs` that it narrows, over the records
of one host: files that come, go and are replaced, and an index of hints that each read leaves for
the next.

A file's stamp differs whenever its bytes do, so what a file reads as is given by its token and its
stamp. A path is its components, as paths are compared; a stored index is what its text decodes to
under its digest. Nothing changes while a read is under way. Reading files side by side and the
index's way to disk are left out.
-/

namespace Onevcs.Recovery

open Foundations (System Text)

variable {σ ρ : Type}

/-! ## Session records -/

/-- A path: whether it starts at the root, and its components. -/
structure Place where
  absolute : Bool
  components : List Text
  deriving DecidableEq

/-- `Record`: what a session's record says of where its work is. -/
structure Record (ρ : Type) where
  version : ℕ
  token : Text
  identity : Text
  branch : Text
  worktree : Place
  clone : Place
  runRoot : Place
  executionCheckout : Place
  publicationCheckout : Place
  labels : List (Text × Text)
  others : ρ
  deriving DecidableEq

/-- `Selection`: the sessions that are asked about, and the labels every one must carry. -/
structure Selection where
  sessions : List Text
  labels : List (Text × Text)

/-- Whether this asks nothing at all. -/
def Selection.isEmpty (selection : Selection) : Bool :=
  selection.sessions.isEmpty && selection.labels.isEmpty

/-- Why the records are not read. -/
inductive Unread
  | notToken (token : Text)
  -- the directory, or a record's file or document
  | refused (failure : Text)
  | declares (token : Text) (version : ℕ)
  | isFor (token other : Text)
  | notAbsolute (token what : Text) (path : Place)

def isSafeName (value : Text) : Bool :=
  !value.isEmpty && value != ['.'] && value != ['.', '.'] &&
    value.all fun c => c.isAlphanum || ['-', '_', '.'].contains c

def recordVersion : ℕ := 3

/-- `usable`: refuse a record that disagrees with itself or with what it is for. -/
def usable (token : Text) (record : Record ρ) : Except Unread Unit :=
  if record.version ≠ recordVersion then .error (.declares token record.version)
  else if record.token ≠ token then .error (.isFor token record.token)
  else
    let paths :=
      [("worktree".toList, record.worktree), ("clone".toList, record.clone),
        ("run root".toList, record.runRoot),
        ("execution checkout".toList, record.executionCheckout),
        ("publication checkout".toList, record.publicationCheckout)]
    match paths.find? fun path => !path.2.absolute with
    | some (what, path) => .error (.notAbsolute token what path)
    | none => .ok ()

/-- The directory of the records: none is there, it cannot be listed, or its files with their
stamps, in the order they are listed. -/
inductive Sessions (σ : Type)
  | missing
  | refused (failure : Text)
  | listed (entries : List (Text × σ))

/-- The token a file is named for. -/
def tokenOf (name : Text) : Option Text :=
  if ['.', 'j', 's', 'o', 'n'].isSuffixOf name then some (name.take (name.length - 5)) else none

def recordName (token : Text) : Text := token ++ ['.', 'j', 's', 'o', 'n']

/-- `existing`: the record of a token, where there is one. -/
def existing (document : Text → σ → Except Text (Record ρ)) (entries : List (Text × σ))
    (token : Text) : Except Unread (Option (Record ρ)) :=
  if !isSafeName token then .error (.notToken token)
  else
    match entries.lookup (recordName token) with
    | none => .ok none
    | some stamp => do
      let record ← (document token stamp).mapError .refused
      usable token record
      .ok (some record)

/-- The records of the files listed, in that order. -/
def collect (document : Text → σ → Except Text (Record ρ)) (entries : List (Text × σ)) :
    List (Text × σ) → Except Unread (List (Record ρ))
  | [] => .ok []
  | (name, _) :: rest =>
    match tokenOf name with
    | none => collect document entries rest
    | some token => do
      let record ← existing document entries token
      let records ← collect document entries rest
      .ok (record.toList ++ records)

/-- `all`: every record, in token order. -/
def all (document : Text → σ → Except Text (Record ρ)) (sessions : Sessions σ) :
    Except Unread (List (Record ρ)) :=
  match sessions with
  | .missing => .ok []
  | .refused failure => .error (.refused failure)
  | .listed entries => do
    let records ← collect document entries entries
    .ok (records.mergeSort fun a b => decide (a.token ≤ b.token))

/-! ## The index -/

/-- `Hint`: what one record says about where a selection's rows are read, held to its file's
stamp. The identity, the checkout and the labels are places in tables. -/
structure Hint (σ : Type) where
  token : Text
  stamp : σ
  identity : ℕ
  branch : Text
  clone : Place
  checkout : ℕ
  labels : ℕ
  deriving DecidableEq

/-- `Tables`: every shared value of the hints, once. -/
structure Tables where
  identities : List Text
  checkouts : List Place
  labels : List (List (Text × Text))
  deriving DecidableEq

/-- `Index`: the whole document. -/
structure Index (σ : Type) where
  version : ℕ
  directory : Text
  tables : Tables
  hints : List (Hint σ)
  deriving DecidableEq

/-- `VERSION`. -/
def indexVersion : ℕ := 4

/-- A document that is read: of this version and directory, whose identities and paths are such,
and each of whose hints names values that it holds. -/
def Index.held (isIdentity : Text → Bool) (directory : Text) (index : Index σ) : Bool :=
  (index.hints.all fun hint =>
    decide (hint.identity < index.tables.identities.length) &&
      decide (hint.checkout < index.tables.checkouts.length) &&
      decide (hint.labels < index.tables.labels.length)) &&
    index.tables.identities.all isIdentity &&
    index.tables.checkouts.all Place.absolute &&
    index.hints.all (fun hint => hint.clone.absolute) &&
    index.version == indexVersion && index.directory == directory

/-- `Index::read`: the tables and the hints; of a document that is not read, none. -/
def readIndex (isIdentity : Text → Bool) (directory : Text) (stored : Option (Index σ)) :
    Tables × List (Hint σ) :=
  match stored.filter (Index.held isIdentity directory) with
  | some index => (index.tables, index.hints)
  | none => (⟨[], [], []⟩, [])

/-- A value's place, the last where it has several; a new one is put at the end. -/
def intern {α : Type} [DecidableEq α] (values : List α) (value : α) : List α × ℕ :=
  match values.zipIdx.reverse.find? fun entry => entry.1 = value with
  | some entry => (values, entry.2)
  | none => (values ++ [value], values.length)

def Tables.hint (tables : Tables) (stamp : σ) (record : Record ρ) : Tables × Hint σ :=
  let (identities, identity) := intern tables.identities record.identity
  let (checkouts, checkout) := intern tables.checkouts record.executionCheckout
  let (labels, labelsAt) := intern tables.labels record.labels
  (⟨identities, checkouts, labels⟩,
    { token := record.token, stamp, identity, branch := record.branch, clone := record.clone,
      checkout, labels := labelsAt })

/-- `label::check`. -/
def checkLabel (key value : Text) : Bool :=
  (!key.isEmpty && key.all fun c => c.isAlphanum || c == '_' || c == '-') && !value.contains '\n'

/-- `label::validate`. -/
def validLabels (labels : List (Text × Text)) : Bool :=
  labels.all fun label => checkLabel label.1 label.2

/-- `label::matches`: whether the labels carried satisfy every pair that is asked for. -/
def labelsMatch (carried wanted : List (Text × Text)) : Bool :=
  wanted.all fun pair => carried.lookup pair.1 == some pair.2

def Tables.labelsAt (tables : Tables) (hint : Hint σ) : List (Text × Text) :=
  (tables.labels[hint.labels]?).getD []

/-! ## The read -/

variable [DecidableEq σ]

/-- The tokens listed, with their stamps; a name that is no token is refused as loading it is. -/
def listTokens : List (Text × σ) → Except Unread (List (Text × σ))
  | [] => .ok []
  | (name, stamp) :: rest =>
    match tokenOf name with
    | none => listTokens rest
    | some token => do
      if !isSafeName token then .error (.notToken token)
      let listed ← listTokens rest
      .ok ((token, stamp) :: listed)

/-- The hints that are held to their file's stamp, and the files that have none. Of several hints
for a token the last is known, and a hint is taken once. -/
def splitKnown (tables : Tables) :
    List (Hint σ) → List (Text × σ) → List (Hint σ) × List (Text × σ)
  | _, [] => ([], [])
  | known, (token, stamp) :: rest =>
    let (fresh, changed) :=
      splitKnown tables (known.filter fun hint => decide (hint.token ≠ token)) rest
    match (known.reverse.find? fun hint => hint.token = token).filter fun hint =>
      decide (hint.stamp = stamp) && validLabels (tables.labelsAt hint) with
    | some hint => (hint :: fresh, changed)
    | none => (fresh, (token, stamp) :: changed)

/-- Every changed or new record is read before anything is narrowed away. -/
def loadChanged (document : Text → σ → Except Text (Record ρ)) (entries : List (Text × σ)) :
    Tables → List (Text × σ) → Except Unread (Tables × List (Hint σ × Record ρ))
  | tables, [] => .ok (tables, [])
  | tables, (token, stamp) :: rest => do
    match ← existing document entries token with
    | none => loadChanged document entries tables rest
    | some record =>
      let (tables, hint) := tables.hint stamp record
      let (tables, loaded) ← loadChanged document entries tables rest
      .ok (tables, (hint, record) :: loaded)

/-- A hint of a session that the selection names. -/
def Selection.asks (selection : Selection) (hint : Hint σ) : Bool :=
  selection.sessions.contains hint.token

/-- The tokens of the records a selection can be answered from. -/
def wanted (selection : Selection) (tables : Tables) (fresh : List (Hint σ)) : List Text :=
  let labelled (hint : Hint σ) := labelsMatch (tables.labelsAt hint) selection.labels
  let identities :=
    (fresh.filter fun hint =>
      selection.asks hint || (selection.sessions.isEmpty && labelled hint)).map Hint.identity
  let picked := fresh.filter fun hint =>
    (selection.sessions.isEmpty || selection.asks hint) && labelled hint
  let branches := picked.map Hint.branch
  let checkouts := picked.flatMap fun hint =>
    hint.clone :: (tables.checkouts[hint.checkout]?).toList
  (fresh.filter fun hint =>
    selection.asks hint ||
      (identities.contains hint.identity &&
        (branches.contains hint.branch || checkouts.contains hint.clone))).map Hint.token

/-- The records wanted: those that were loaded, and the others read now. -/
def readWanted (document : Text → σ → Except Text (Record ρ)) (entries : List (Text × σ))
    (loaded : List (Text × Record ρ)) : List Text → Except Unread (List (Record ρ))
  | [] => .ok []
  | token :: rest => do
    let record ←
      match loaded.lookup token with
      | some record => .ok (some record)
      | none => existing document entries token
    let records ← readWanted document entries loaded rest
    .ok (record.toList ++ records)

/-- A place in a table, among those that are used so far. -/
def usedAt (used : List ℕ) (place : ℕ) : List ℕ × ℕ :=
  if place ∈ used then (used, used.idxOf place) else (used ++ [place], used.length)

/-- The hints by the places of the values they use, and those places. -/
def storeHints : List ℕ × List ℕ × List ℕ → List (Hint σ) →
    (List ℕ × List ℕ × List ℕ) × List (Hint σ)
  | used, [] => (used, [])
  | (identities, checkouts, labels), hint :: rest =>
    let (identities, identity) := usedAt identities hint.identity
    let (checkouts, checkout) := usedAt checkouts hint.checkout
    let (labels, labelsAt) := usedAt labels hint.labels
    let (used, hints) := storeHints (identities, checkouts, labels) rest
    (used, { hint with identity, checkout, labels := labelsAt } :: hints)

/-- `store`: the hints with only the table values they still use. -/
def storeIndex (directory : Text) (tables : Tables) (fresh : List (Hint σ)) : Index σ :=
  let ((identities, checkouts, labels), hints) := storeHints ([], [], []) fresh
  { version := indexVersion
    directory
    tables :=
      { identities := identities.filterMap fun place => tables.identities[place]?
        checkouts := checkouts.filterMap fun place => tables.checkouts[place]?
        labels := labels.filterMap fun place => tables.labels[place]? }
    hints }

/-- `read`: the records a selection's rows can be read from, in token order, and the index that is
stored where the hints moved. -/
def read (document : Text → σ → Except Text (Record ρ)) (isIdentity : Text → Bool)
    (directory : Text) (stored : Option (Index σ)) (sessions : Sessions σ) (selection : Selection) :
    Except Unread (List (Record ρ) × Option (Index σ)) :=
  if selection.isEmpty then do
    let records ← all document sessions
    .ok (records, none)
  else
    match sessions with
    | .missing => .ok ([], none)
    | .refused _ => do
      let records ← all document sessions
      .ok (records, none)
    | .listed entries => do
      let (tables, hints) := readIndex isIdentity directory stored
      let listed ← listTokens entries
      let remembered := (hints.map Hint.token).eraseDups.length
      let (held, changed) := splitKnown tables hints listed
      let (tables, loaded) ← loadChanged document entries tables changed
      let fresh := (held ++ loaded.map Prod.fst).mergeSort fun a b => decide (a.token ≤ b.token)
      let records ← readWanted document entries
        (loaded.map fun entry => (entry.2.token, entry.2)) (wanted selection tables fresh)
      let moved := !changed.isEmpty || held.length != remembered
      .ok (records, if moved then some (storeIndex directory tables fresh) else none)

/-- The records, the index that is stored, and every index that ever was. -/
structure World (σ : Type) where
  sessions : Sessions σ
  stored : Option (Index σ)
  written : List (Index σ)

/-- What happens: files are created, replaced and removed; a selection is read; the stored index is
lost, or is an earlier one again. -/
inductive Action (σ : Type)
  | files (sessions : Sessions σ)
  | read (selection : Selection)
  | index (stored : Option (Index σ))

/-- A directory lists no name twice. -/
def Sessions.distinct : Sessions σ → Bool
  | .listed entries => decide (entries.map Prod.fst).Nodup
  | _ => true

def World.step (document : Text → σ → Except Text (Record ρ)) (isIdentity : Text → Bool)
    (directory : Text) (w : World σ) : Action σ → Option (World σ)
  | .files sessions => if sessions.distinct then some { w with sessions } else none
  | .read selection =>
    match Recovery.read document isIdentity directory w.stored w.sessions selection with
    | .ok (_, some index) =>
      some { w with stored := some index, written := w.written ++ [index] }
    | _ => some w
  | .index stored =>
    -- an index that is not read may be any
    if stored.all fun index =>
        decide (index ∈ w.written) || !index.held isIdentity directory
    then some { w with stored } else none

/-- A host that starts with any records and no index. -/
def history (document : Text → σ → Except Text (Record ρ)) (isIdentity : Text → Bool)
    (directory : Text) : System (World σ) (Action σ) where
  Initial w := w.sessions.distinct ∧ w.stored = none ∧ w.written = []
  step := World.step document isIdentity directory

end Onevcs.Recovery
