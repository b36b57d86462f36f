import Onevcs.Export.ScanExact
import Onevcs.Foundations.Toml
import Onevcs.Store.Normalize

/-!
# Release declarations

`declaration.rs`: what one repository publishes, as its `release-targets.toml` declares it. `parse`
reads a declaration's text and `render` writes one back.

The TOML library and the template engine's parser are parameters. A document's value is what the
library reads of its text; a structure is read from it as its derived reader does. A path is the
bytes of a Unix path. Of a refusal, what it names is kept, and its wording is left out.
-/

namespace Onevcs.Declared

open Export (Bytes fromUtf8)
open Foundations (Text readUtf8 utf8)
open Foundations.Toml
open Store (isWhitespace splitOnce stripPrefix)

/-- `SCHEMA_VERSION`: the version this build writes. -/
def schemaVersion : ℤ := 3

/-- `INSTRUCTION_SCHEMA_VERSION`: the version at which a target may carry instructions. -/
def instructionSchemaVersion : ℤ := 3

/-- `OLDEST_SCHEMA_VERSION`: the oldest version this build reads. -/
def oldestSchemaVersion : ℤ := 1

def keysAreKnownAt (declared : ℤ) : Bool :=
  decide (oldestSchemaVersion ≤ declared) && decide (declared ≤ schemaVersion)

/-! ## The conversions -/

/-- What a conversion refuses a value over. -/
inductive Malformed
  | identifierTooLong (value : Text)
  | namesNoRegistry (value : Text)
  | nothingBeforeColon (value : Text)
  | notOneWord (value registry : Text)
  | notServed (value name : Text)
  | nameEmpty
  | nameTooLong (value : Text)
  | nameStart (value : Text)
  | nameAlphabet (value : Text)
  | proseBlank
  | proseTooLong
  | proseControl (value : Text)
  | templateEmpty
  | templateTooLong
  | notTemplate (failure : Text)
  | pathEmpty
  | pathAbsolute (path : Bytes)
  | pathDrive (path : Bytes)
  | pathLeaves (path : Bytes)
  deriving DecidableEq

/-- `len`: a text's bytes. -/
def byteLength (text : Text) : ℕ := (utf8.encodeAll text).length

/-- `is_plain_name`: a name with no scope on it. -/
def isPlainName (name : Text) : Bool :=
  name.head?.any Char.isAlphanum &&
    name.all fun c => c.isAlphanum || ['-', '_', '.', '@', '/'].contains c

/-- `is_name_segment`: one half of a scoped name. -/
def isNameSegment (segment : Text) : Bool :=
  segment.head?.any Char.isAlphanum &&
    segment.all fun c => c.isAlphanum || ['-', '_', '.'].contains c

/-- `is_served_name`: whether the name half of an identifier is one a registry serves. -/
def isServedName (name : Text) : Bool :=
  match stripPrefix ['@'] name with
  | some rest =>
    (splitOnce '/' rest).any fun halves => isNameSegment halves.1 && isNameSegment halves.2
  | none => isPlainName name

def maxIdentifier : ℕ := 128

/-- `RegistryId::try_from`. -/
def checkRegistryId (value : Text) : Except Malformed Unit :=
  if maxIdentifier < byteLength value then .error (.identifierTooLong value)
  else
    match splitOnce ':' value with
    | none => .error (.namesNoRegistry value)
    | some (registry, name) =>
      if registry.isEmpty then .error (.nothingBeforeColon value)
      else if !registry.all fun c => c.isLower || c.isDigit || c == '-' then
        .error (.notOneWord value registry)
      else if !isServedName name then .error (.notServed value name)
      else .ok ()

/-- `RegistryId`: `<registry>:<name>`, as it is spelled. -/
abbrev RegistryId := Checked checkRegistryId

def maxTargetName : ℕ := 64

/-- `TargetName::try_from`. -/
def checkTargetName (value : Text) : Except Malformed Unit :=
  if value.isEmpty then .error .nameEmpty
  else if maxTargetName < byteLength value then .error (.nameTooLong value)
  else if !value.head?.any Char.isAlphanum then .error (.nameStart value)
  else if !value.all fun c => c.isAlphanum || ['-', '_', '.'].contains c then
    .error (.nameAlphabet value)
  else .ok ()

abbrev TargetName := Checked checkTargetName

def isControl (c : Char) : Bool := c.toNat < 0x20 || (0x7F ≤ c.toNat && c.toNat ≤ 0x9F)

def maxProse : ℕ := 400

/-- `Prose::try_from`. -/
def checkProse (value : Text) : Except Malformed Unit :=
  if value.all isWhitespace then .error .proseBlank
  else if maxProse < byteLength value then .error .proseTooLong
  else if value.any isControl then .error (.proseControl value)
  else .ok ()

/-- `Prose`: one line of text. -/
abbrev Prose := Checked checkProse

def maxInstruction : ℕ := 4000

/-- `InstructionTemplate::try_from`, with the engine's parser. -/
def checkTemplate (minijinja : Text → Except Text Unit) (value : Text) : Except Malformed Unit :=
  if value.isEmpty then .error .templateEmpty
  else if maxInstruction < byteLength value then .error .templateTooLong
  else (minijinja value).mapError .notTemplate

abbrev InstructionTemplate (minijinja : Text → Except Text Unit) :=
  Checked (checkTemplate minijinja)

/-- `to_string_lossy`, with fuel for each byte: what is not UTF-8 is U+FFFD. -/
def lossyFrom : ℕ → Bytes → Text
  | 0, _ => []
  | fuel + 1, bytes =>
    if bytes.isEmpty then []
    else
      match readUtf8 bytes with
      | .char c width => c :: lossyFrom fuel (bytes.drop width)
      | .invalid length => '\uFFFD' :: lossyFrom fuel (bytes.drop length)
      | .truncated => ['\uFFFD']

/-- `to_string_lossy`. -/
def lossy (bytes : Bytes) : Text := lossyFrom bytes.length bytes

/-- `SEPARATORS`. -/
def isSeparator (c : Char) : Bool := c == '/' || c == '\\'

/-- `drive_qualified`: whether a path opens with a drive letter. -/
def driveQualified : Text → Bool
  | drive :: ':' :: _ => drive.isAlpha
  | _ => false

/-- `RepositoryPath::try_from`, on how the path is spelled. -/
def checkPath (value : Bytes) : Except Malformed Unit :=
  let spelling := lossy value
  if spelling.isEmpty then .error .pathEmpty
  else if spelling.head?.any isSeparator then .error (.pathAbsolute value)
  else if driveQualified spelling then .error (.pathDrive value)
  else if (spelling.splitOnP isSeparator).contains ['.', '.'] then .error (.pathLeaves value)
  else .ok ()

abbrev RepositoryPath := Checked checkPath

variable {minijinja : Text → Except Text Unit}

/-- `DeclaredTarget`: one consumable artifact. -/
structure DeclaredTarget (minijinja : Text → Except Text Unit) where
  id : RegistryId
  name : TargetName
  what : Prose
  publishedBy : Prose
  manifest : Option RepositoryPath
  covers : List RegistryId
  adoptionInstructions : Option (InstructionTemplate minijinja)

structure RetiredArtifact where
  id : RegistryId
  why : Prose

/-- `Declaration`: what one repository publishes. -/
structure Declaration (minijinja : Text → Except Text Unit) where
  schemaVersion : UInt32
  probe : Option RepositoryPath
  targets : List (DeclaredTarget minijinja)
  retired : List RetiredArtifact

/-- The version declared, as a document has it. -/
def Declaration.declared (declaration : Declaration minijinja) : ℤ :=
  declaration.schemaVersion.toNat

/-- What a declaration is refused over. An entry is named by its place and its identifier. -/
inductive Why
  | notToml (failure : Text)
  | noVersion
  | tooOld (declared : ℤ)
  | notTable
  | unknownKey (key : Text) (table : Option (Text × ℕ)) (declared : ℤ) (later : Bool)
  | shape (declared : ℤ) (failure : Misfit Malformed)
  | noTarget
  | nameTaken (target : ℕ) (id name : Text) (earlier : ℕ)
  | idDeclared (target : ℕ) (id : Text) (earlier : ℕ)
  | instructionsAt (target : ℕ) (id : Text) (declared : ℤ)
  | coversItself (target : ℕ) (id : Text)
  | coversTarget (target : ℕ) (id covered : Text) (other : ℕ)
  | coversTwice (target : ℕ) (id covered : Text) (earlier : ℕ)
  | retiresTarget (entry : ℕ) (id : Text) (target : ℕ)
  | retiredTwice (entry : ℕ) (id : Text) (earlier : ℕ)
  | notWritten (failure : Text)
  deriving DecidableEq

/-- A refusal names the document it is about. -/
structure Refused where
  origin : Text
  why : Why

/-- A refusal, about the document at `origin`. -/
def about {α : Type} (origin : Text) : Except Why α → Except Refused α :=
  Except.mapError fun why => ⟨origin, why⟩

/-- The targets, each with those before it: names and identifiers are taken once. -/
def validateTargets (earlier : List (DeclaredTarget minijinja)) :
    List (DeclaredTarget minijinja) → Except Why Unit
  | [] => .ok ()
  | target :: rest =>
    match earlier.findIdx? fun other => other.name = target.name with
    | some index =>
      .error (.nameTaken (earlier.length + 1) target.id.value target.name.value (index + 1))
    | none =>
      match earlier.findIdx? fun other => other.id = target.id with
      | some index =>
        .error (.idDeclared (earlier.length + 1) target.id.value (index + 1))
      | none => validateTargets (earlier ++ [target]) rest

/-- `instructed`: instructions are held to a version that declares them. -/
def instructed (declaration : Declaration minijinja) : Except Why Unit :=
  if instructionSchemaVersion ≤ declaration.declared then .ok ()
  else
    match declaration.targets.findIdx? fun target => target.adoptionInstructions.isSome with
    | none => .ok ()
    | some index =>
      .error (.instructionsAt (index + 1)
        (((declaration.targets[index]?).map fun target => target.id.value).getD [])
        declaration.declared)

/-- What one target covers, beside what those before it do. -/
def coveredBy (targets : List (DeclaredTarget minijinja)) (index : ℕ)
    (target : DeclaredTarget minijinja) (seen : List (RegistryId × ℕ)) :
    List RegistryId → Except Why (List (RegistryId × ℕ))
  | [] => .ok seen
  | id :: rest =>
    if id = target.id then .error (.coversItself (index + 1) target.id.value)
    else
      match targets.findIdx? fun other => other.id = id with
      | some other =>
        .error (.coversTarget (index + 1) target.id.value id.value (other + 1))
      | none =>
        match seen.find? fun entry => entry.1 = id with
        | some (_, earlier) =>
          .error (.coversTwice (index + 1) target.id.value id.value (earlier + 1))
        | none => coveredBy targets index target (seen ++ [(id, index)]) rest

/-- `covered`: what is covered is no target, and is covered once. -/
def covered (targets : List (DeclaredTarget minijinja)) (index : ℕ)
    (seen : List (RegistryId × ℕ)) : List (DeclaredTarget minijinja) → Except Why Unit
  | [] => .ok ()
  | target :: rest => do
    let seen ← coveredBy targets index target seen target.covers
    covered targets (index + 1) seen rest

/-- `retired`: what is retired is no target, and is retired once. -/
def retired (targets : List (DeclaredTarget minijinja))
    (earlier : List RetiredArtifact) : List RetiredArtifact → Except Why Unit
  | [] => .ok ()
  | entry :: rest =>
    match targets.findIdx? fun target => target.id = entry.id with
    | some target =>
      .error (.retiresTarget (earlier.length + 1) entry.id.value (target + 1))
    | none =>
      match earlier.findIdx? fun other => other.id = entry.id with
      | some index =>
        .error (.retiredTwice (earlier.length + 1) entry.id.value (index + 1))
      | none => retired targets (earlier ++ [entry]) rest

def validate (declaration : Declaration minijinja) : Except Why Unit :=
  if declaration.targets.isEmpty then .error .noTarget
  else do
    validateTargets [] declaration.targets
    instructed declaration
    covered declaration.targets 0 [] declaration.targets
    retired declaration.targets [] declaration.retired

/-! ## The keys -/

def keySchemaVersion : Text :=
  ['s', 'c', 'h', 'e', 'm', 'a', '_', 'v', 'e', 'r', 's', 'i', 'o', 'n']

def keyProbe : Text := ['p', 'r', 'o', 'b', 'e']

def keyTarget : Text := ['t', 'a', 'r', 'g', 'e', 't']

def keyRetired : Text := ['r', 'e', 't', 'i', 'r', 'e', 'd']

def keyId : Text := ['i', 'd']

def keyName : Text := ['n', 'a', 'm', 'e']

def keyWhat : Text := ['w', 'h', 'a', 't']

def keyPublishedBy : Text := ['p', 'u', 'b', 'l', 'i', 's', 'h', 'e', 'd', '_', 'b', 'y']

def keyManifest : Text := ['m', 'a', 'n', 'i', 'f', 'e', 's', 't']

def keyCovers : Text := ['c', 'o', 'v', 'e', 'r', 's']

def keyAdoptionInstructions : Text :=
  ['a', 'd', 'o', 'p', 't', 'i', 'o', 'n', '_', 'i', 'n', 's', 't', 'r', 'u', 'c', 't', 'i', 'o',
    'n', 's']

def keyWhy : Text := ['w', 'h', 'y']

def topLevelKeys : List Text := [keySchemaVersion, keyProbe, keyTarget, keyRetired]

def targetKeys : List Text := [keyId, keyName, keyWhat, keyPublishedBy, keyManifest, keyCovers]

/-- `TARGET_KEYS_AT_3`. -/
def targetKeysAt3 : List Text :=
  [keyId, keyName, keyWhat, keyPublishedBy, keyManifest, keyCovers, keyAdoptionInstructions]

def retiredKeys : List Text := [keyId, keyWhy]

/-- `target_keys_at`: the keys of a target at the version the document declared. -/
def targetKeysAt (declared : ℤ) : List Text :=
  if instructionSchemaVersion ≤ declared then targetKeysAt3 else targetKeys

def refuseKeys (declared : ℤ) (table : Option (Text × ℕ)) (keys newest : List Text)
    (entries : List (Text × Value)) : Except Why Unit :=
  match (entries.map Prod.fst).find? fun key => !keys.contains key with
  | some key => .error (.unknownKey key table declared (newest.contains key))
  | none => .ok ()

/-- The entries of an array of tables, numbered from `index`. What is no table has no keys. -/
def refuseEntries (declared : ℤ) (array : Text) (keys newest : List Text) :
    ℕ → List Value → Except Why Unit
  | _, [] => .ok ()
  | index, .table entries :: rest => do
    refuseKeys declared (some (array, index + 1)) keys newest entries
    refuseEntries declared array keys newest (index + 1) rest
  | index, _ :: rest => refuseEntries declared array keys newest (index + 1) rest

/-- The array of tables of a name, where there is one. -/
def refuseArray (declared : ℤ) (array : Text) (keys newest : List Text)
    (top : List (Text × Value)) : Except Why Unit :=
  match top.lookup array with
  | some (.array values) => refuseEntries declared array keys newest 0 values
  | _ => .ok ()

/-- `refuse_unknown_keys`: a key this schema does not declare. -/
def refuseUnknownKeys (document : Value) (declared : ℤ) : Except Why Unit :=
  match document with
  | .table top => do
    refuseKeys declared none topLevelKeys topLevelKeys top
    refuseArray declared keyTarget (targetKeysAt declared) targetKeysAt3 top
    refuseArray declared keyRetired retiredKeys retiredKeys top
  | _ => .error .notTable

/-! ## As a document -/

/-- A path is written as text, and only where it is one. -/
def writePath (path : RepositoryPath) : Except Text Value :=
  match fromUtf8 path.value with
  | .ok text => .ok (.string text)
  | .error _ => .error "path contains invalid UTF-8 characters".toList

def readPath (value : Value) : Except (Misfit Malformed) RepositoryPath := do
  let text ← value.text
  (Checked.tryFrom checkPath (utf8.encodeAll text)).mapError .malformed

/-- A path that may be left out. -/
def writeOptionalPath : Option RepositoryPath → Except Text (Option Value)
  | none => .ok none
  | some path => some <$> writePath path

/-- The fields of a target, as they are written. -/
def DeclaredTarget.written (target : DeclaredTarget minijinja) (manifest : Option Value) :
    List (Text × Option Value) :=
  [(keyAdoptionInstructions, target.adoptionInstructions.map fun template =>
      .string template.value),
    (keyCovers, unlessEmpty (target.covers.map fun id => .string id.value)),
    (keyId, some (.string target.id.value)),
    (keyManifest, manifest),
    (keyName, some (.string target.name.value)),
    (keyPublishedBy, some (.string target.publishedBy.value)),
    (keyWhat, some (.string target.what.value))]

def DeclaredTarget.serialize (target : DeclaredTarget minijinja) : Except Text Value := do
  let manifest ← writeOptionalPath target.manifest
  .ok (.table (present (target.written manifest)))

def DeclaredTarget.deserialize (minijinja : Text → Except Text Unit) (value : Value) :
    Except (Misfit Malformed) (DeclaredTarget minijinja) := do
  let field ← value.fields
  let id ← required keyId (Checked.read checkRegistryId) (field keyId 0)
  let name ← required keyName (Checked.read checkTargetName) (field keyName 1)
  let what ← required keyWhat (Checked.read checkProse) (field keyWhat 2)
  let publishedBy ← required keyPublishedBy (Checked.read checkProse) (field keyPublishedBy 3)
  let manifest ← omittable readPath (field keyManifest 4)
  let covers ← listed (Checked.read checkRegistryId) (field keyCovers 5)
  let adoptionInstructions ←
    omittable (Checked.read (checkTemplate minijinja)) (field keyAdoptionInstructions 6)
  .ok ⟨id, name, what, publishedBy, manifest, covers, adoptionInstructions⟩

/-- The fields of a retired artifact, as they are written. -/
def RetiredArtifact.written (entry : RetiredArtifact) : List (Text × Option Value) :=
  [(keyId, some (.string entry.id.value)), (keyWhy, some (.string entry.why.value))]

def RetiredArtifact.serialize (entry : RetiredArtifact) : Except Text Value :=
  .ok (.table (present entry.written))

def RetiredArtifact.deserialize (value : Value) :
    Except (Misfit Malformed) RetiredArtifact := do
  let field ← value.fields
  let id ← required keyId (Checked.read checkRegistryId) (field keyId 0)
  let why ← required keyWhy (Checked.read checkProse) (field keyWhy 1)
  .ok ⟨id, why⟩

/-- The fields of a declaration, as they are written. -/
def Declaration.written (declaration : Declaration minijinja) (probe : Option Value)
    (targets retired : List Value) : List (Text × Option Value) :=
  [(keyProbe, probe), (keyRetired, unlessEmpty retired),
    (keySchemaVersion, some (.integer declaration.declared)), (keyTarget, unlessEmpty targets)]

def Declaration.serialize (declaration : Declaration minijinja) : Except Text Value := do
  let probe ← writeOptionalPath declaration.probe
  let targets ← declaration.targets.mapM DeclaredTarget.serialize
  let retired ← declaration.retired.mapM RetiredArtifact.serialize
  .ok (.table (present (declaration.written probe targets retired)))

/-- A version that fits its 32 bits. -/
def readVersion : Value → Except (Misfit Malformed) UInt32
  | .integer value =>
    if 0 ≤ value ∧ value < 2 ^ 32 then .ok (.ofNat value.toNat) else .error .wrongType
  | _ => .error .wrongType

def Declaration.deserialize (minijinja : Text → Except Text Unit) (value : Value) :
    Except (Misfit Malformed) (Declaration minijinja) := do
  let field ← value.fields
  let schemaVersion ← required keySchemaVersion readVersion (field keySchemaVersion 0)
  let probe ← omittable readPath (field keyProbe 1)
  let targets ← listed (DeclaredTarget.deserialize minijinja) (field keyTarget 2)
  let retired ← listed RetiredArtifact.deserialize (field keyRetired 3)
  .ok ⟨schemaVersion, probe, targets, retired⟩

/-- The TOML library: a text's document, and a document's text. -/
structure TomlLibrary where
  fromStr : Text → Except Text Value
  toStringPretty : Value → Except Text Text

/-- `document.get("schema_version").and_then(as_integer)`. -/
def declaredVersion : Value → Option ℤ
  | .table entries =>
    match entries.lookup keySchemaVersion with
    | some (.integer declared) => some declared
    | _ => none
  | _ => none

def declarationOf (minijinja : Text → Except Text Unit) (document : Value) :
    Except Why (Declaration minijinja) :=
  match declaredVersion document with
  | none => .error .noVersion
  | some declared =>
    if declared < oldestSchemaVersion then .error (.tooOld declared)
    else do
      if keysAreKnownAt declared then refuseUnknownKeys document declared
      -- the shape is read of the text a second time
      match Declaration.deserialize minijinja document with
      | .error failure => .error (.shape declared failure)
      | .ok declaration =>
        validate declaration
        .ok declaration

/-- `parse`: validate a declaration's text, and answer what it declares. -/
def parse (toml : TomlLibrary) (minijinja : Text → Except Text Unit) (raw origin : Text) :
    Except Refused (Declaration minijinja) :=
  about origin (((toml.fromStr raw).mapError .notToml).bind (declarationOf minijinja))

/-- `the declaration handed to be rendered`. -/
def handed : Text := "the declaration handed to be rendered".toList

/-- `render`: a declaration back as the document it declares. -/
def render (toml : TomlLibrary) (declaration : Declaration minijinja) : Except Refused Text :=
  about handed do
    validate declaration
    (declaration.serialize.bind toml.toStringPretty).mapError .notWritten

end Onevcs.Declared
