import Onevcs.Boundary.Screen
import Onevcs.Foundations.Utf16

/-!
# Extracting text from exported files

`export/extract.rs`: the printable runs that `scan` hands to the matcher, and `inspect`, which opens
gzip and ZIP layers within a depth and a budget of bytes; and `content_at` of `export.rs`, which
locates a match in its layer.

The decoders are parameters: a gzip layer is a stream of reads, a ZIP layer the list of its members.
The budget is as it stands at the file's turn; no other file spends it meanwhile. A `while` loop over
bytes runs on as much fuel as there are bytes.
-/

namespace Onevcs.Export

open Foundations (Endian Text readUtf8 readUtf16)
open Boundary (Surface)

abbrev Bytes := List UInt8

inductive Encoding
  | utf8
  | utf16 (endian : Endian)

/-- `Location`: where a run starts in its layer. -/
structure Location where
  path : Text
  offset : ℕ
  encoding : Encoding

/-- What the matcher is handed. -/
structure Check where
  surface : Surface
  location : Location
  text : Text

/-! ## Text as bytes -/

/-- `str::from_utf8`'s error. -/
structure Utf8Error where
  validUpTo : ℕ
  errorLen : Option ℕ
  deriving DecidableEq

/-- `str::from_utf8`, with `position` bytes found valid. -/
def fromUtf8At : ℕ → ℕ → Bytes → Except Utf8Error Text
  | 0, _, _ => .ok []
  | fuel + 1, position, bytes =>
    if bytes.isEmpty then .ok []
    else
      match readUtf8 bytes with
      | .char c width => (fromUtf8At fuel (position + width) (bytes.drop width)).map (c :: ·)
      | .invalid length => .error ⟨position, some length⟩
      | .truncated => .error ⟨position, none⟩

/-- `str::from_utf8`. -/
def fromUtf8 (bytes : Bytes) : Except Utf8Error Text := fromUtf8At bytes.length 0 bytes

def isControl (c : Char) : Bool := c.toNat < 0x20 || (0x7F ≤ c.toNat && c.toNat ≤ 0x9F)

/-- `text[..stop]`. -/
def sliceTo : Text → ℕ → Text
  | [], _ => []
  | c :: rest, stop => if stop = 0 then [] else c :: sliceTo rest (stop - c.utf8Size)

/-- `encode_utf16().count()`. -/
def utf16Count (text : Text) : ℕ := (text.map fun c => if c.toNat < 0x10000 then 1 else 2).sum

def Encoding.suffix : Encoding → Option Text
  | .utf8 => none
  | .utf16 .little => some "utf16le".toList
  | .utf16 .big => some "utf16be".toList

/-- How a byte of a layer is located. -/
def locationText (path : Text) (encoding : Encoding) (offset : ℕ) : Text :=
  match encoding.suffix with
  | none => path ++ '@' :: Nat.toDigits 10 offset
  | some suffix => path ++ '@' :: Nat.toDigits 10 offset ++ ':' :: suffix

/-- How far into its run a match lies that starts at byte `start` of the run's text. -/
def displacement (encoding : Encoding) (text : Text) (start : ℕ) : ℕ :=
  match encoding with
  | .utf8 => start
  | .utf16 _ => utf16Count (sliceTo text start) * 2

def contentAt (location : Location) (text : Text) (start : ℕ) : Text :=
  locationText location.path location.encoding
    (location.offset + displacement location.encoding text start)

section Scan

variable (path : Text)

/-- A run that ends is handed on where it counts four characters. -/
def flush (offset count : ℕ) (encoding : Encoding) (run : Text) : List Check :=
  if 4 ≤ count then [⟨.content, ⟨path, offset, encoding⟩, run⟩] else []

/-- The loop of `utf8`: the run's start, its count, the byte it has come to, and the text from the
start to there. -/
def utf8Loop (base : ℕ) : ℕ → ℕ → ℕ → Text → Text → List Check
  | start, count, _, run, [] => flush path (base + start) count .utf8 run
  | start, count, offset, run, character :: rest =>
    if isControl character then
      flush path (base + start) count .utf8 run ++
        utf8Loop base (offset + character.utf8Size) 0 (offset + character.utf8Size) [] rest
    else utf8Loop base start (count + 1) (offset + character.utf8Size) (run ++ [character]) rest

/-- `utf8`. -/
def utf8 (text : Text) (base : ℕ) : List Check := utf8Loop path base 0 0 0 [] text

/-- The loop of `utf16`, on the bytes from `offset` on. -/
def utf16Loop (endian : Endian) : ℕ → ℕ → Bytes → ℕ → ℕ → Text → List Check
  | 0, _, _, start, count, run => flush path start count (.utf16 endian) run
  | fuel + 1, offset, rest, start, count, run =>
    if rest.length < 2 then flush path start count (.utf16 endian) run
    else
      let read := readUtf16 endian rest
      match read.1.filter fun character => !isControl character with
      | some character =>
        utf16Loop endian fuel (offset + read.2) (rest.drop read.2)
          (if count = 0 then offset else start) (count + 1) (run ++ [character])
      | none =>
        flush path start count (.utf16 endian) run ++
          utf16Loop endian fuel (offset + read.2) (rest.drop read.2) start 0 []

/-- `utf16`. -/
def utf16 (bytes : Bytes) (alignment : ℕ) (endian : Endian) : List Check :=
  utf16Loop path endian bytes.length alignment (bytes.drop alignment) alignment 0 []

/-- The loop of `scan` over the valid stretches of the bytes from `offset` on. -/
def stretches : ℕ → ℕ → Bytes → List Check
  | 0, _, _ => []
  | fuel + 1, offset, rest =>
    if rest.isEmpty then []
    else
      match fromUtf8 rest with
      | .ok text => utf8 path text offset
      | .error error =>
        let found :=
          match fromUtf8 (rest.take error.validUpTo) with
          | .ok text => utf8 path text offset
          | .error _ => []
        let step := error.validUpTo + error.errorLen.getD (rest.length - error.validUpTo)
        found ++ stretches fuel (offset + step) (rest.drop step)

/-- The bytes as one text, where they are UTF-8 without a NUL. -/
def whole (bytes : Bytes) : Option Text :=
  match fromUtf8 bytes with
  | .ok text => if bytes.contains 0 then none else some text
  | .error _ => none

def scan (bytes : Bytes) : List Check :=
  (match whole bytes with
    | some text => [⟨.content, ⟨path, 0, .utf8⟩, text⟩]
    | none => stretches path bytes.length 0 bytes) ++
  [Endian.little, Endian.big].flatMap fun endian =>
    [0, 1].flatMap fun alignment => utf16 path bytes alignment endian

end Scan

/-! ## Opening layers -/

def maxDepth : ℕ := 8

/-- `MAX_FILE_DECODED_BYTES`. -/
def maxFileBytes : ℕ := 256 * 1024 * 1024

/-- `MAX_EXPORT_DECODED_BYTES`. -/
def maxExportBytes : ℕ := 1024 * 1024 * 1024

/-- A decoder's stream: the bytes that each read answers, and whether it fails after them. -/
structure Stream where
  reads : List Bytes
  fails : Bool

inductive Method
  | stored
  | deflated
  | other
  deriving DecidableEq

/-- What an archive says of a member it can find: its name, its bytes as they lie there, and its
bytes decoded. -/
structure Found where
  name : Option Text
  encrypted : Bool
  compression : Method
  raw : Stream
  decoded : Option Stream

/-- A member of an archive, where `by_index_raw` finds it. -/
abbrev Member := Option Found

structure Decoders where
  gzip : Bytes → Stream
  /-- the members of an archive that can be read as one -/
  zip : Bytes → Option (List Member)

/-- `Reader`, with the shared budget, and what the matcher was handed. -/
structure Reader where
  bytes : ℕ
  total : ℕ
  stopped : Bool
  bounded : Bool
  checks : List Check

inductive Extraction
  | readable
  | isOpaque
  | boundExceeded
  deriving DecidableEq

namespace Reader

def hand (s : Reader) (checks : List Check) : Reader := { s with checks := s.checks ++ checks }

def account (s : Reader) (count : ℕ) : Bool × Reader :=
  let spent := { s with bytes := s.bytes + count, total := s.total + count }
  if maxExportBytes < spent.total then (false, { spent with stopped := true, bounded := true })
  else if maxFileBytes < spent.bytes then (false, { spent with bounded := true })
  else (true, spent)

/-- The loop of `decode`. -/
def decodeLoop (path : Text) (fails : Bool) : Reader → Bytes → List Bytes → Option Bytes × Reader
  | s, result, [] =>
    if fails then (none, s.hand (scan path result)) else (some result, s)
  | s, result, read :: rest =>
    let (within, s) := s.account read.length
    if within then decodeLoop path fails s (result ++ read) rest
    else (none, s.hand (scan path (result ++ read)))

def decode (s : Reader) (stream : Stream) (path : Text) : Option Bytes × Reader :=
  if s.stopped then (none, { s with bounded := true })
  else decodeLoop path stream.fails s [] stream.reads

end Reader

/-- The bytes a gzip layer starts with. -/
def gzipMagic : Bytes := [0x1F, 0x8B]

/-- The bytes a ZIP layer starts with. -/
def zipMagic : Bytes := [0x50, 0x4B, 0x03, 0x04]

section Layers

variable (decoders : Decoders) (locate : Text → Text)

/-- The path of a gzip layer within another. -/
def gzipPath (path : Text) : Text := path ++ "!gzip".toList

def memberPath (path name : Text) : Text := path ++ "!zip:".toList ++ locate name

/-- The body of the loop over an archive's members: whether the member was readable. -/
def openMember (layer : Reader → Bytes → Text → Bool × Reader) (s : Reader) (path : Text) :
    Member → Bool × Reader
  | none => (false, s)
  | some found =>
    match found.name with
    | none => (false, s)
    | some name =>
      let member := memberPath locate path name
      let s := s.hand [⟨.path, ⟨member, 0, .utf8⟩, name⟩]
      if found.encrypted || found.compression == .other then
        -- its own extent is scanned as it lies there
        match s.decode found.raw member with
        | (some bytes, s) => (false, s.hand (scan member bytes))
        | (none, s) => (false, s)
      else
        match found.decoded with
        | none => (false, s)
        | some stream =>
          match s.decode stream member with
          | (some decoded, s) => layer s decoded member
          | (none, s) => (false, s)

/-- The loop over an archive's members, which ends at a bound. -/
def openMembers (layer : Reader → Bytes → Text → Bool × Reader) (path : Text) :
    Reader → Bool → List Member → Bool × Reader
  | s, readable, [] => (readable, s)
  | s, readable, member :: rest =>
    let (read, s) := openMember locate layer s path member
    if s.bounded then (readable && read, s)
    else openMembers layer path s (readable && read) rest

/-- `layer`, with so many layers left to the greatest depth. -/
def layer : ℕ → Reader → Bytes → Text → Bool × Reader
  | left, s, bytes, path =>
    let s := s.hand (scan path bytes)
    if gzipMagic.isPrefixOf bytes then
      match left with
      | 0 => (false, { s with bounded := true })
      | left + 1 =>
        match s.decode (decoders.gzip bytes) (gzipPath path) with
        | (some decoded, s) => layer left s decoded (gzipPath path)
        | (none, s) => (false, s)
    else if zipMagic.isPrefixOf bytes then
      match left with
      | 0 => (false, { s with bounded := true })
      | left + 1 =>
        match decoders.zip bytes with
        | none => (false, s)
        | some members => openMembers locate (layer left) path s true members
    else (!bytes.contains 0 && (fromUtf8 bytes).isOk, s)

/-- The budget of decoded bytes that an export's files share. -/
structure Budget where
  bytes : ℕ
  stopped : Bool

/-- `inspect`: what it answers, and what is left of the reader. -/
def inspect (budget : Budget) (bytes : Bytes) (path : Text) : Extraction × Reader :=
  let (readable, s) :=
    layer decoders locate maxDepth ⟨0, budget.bytes, budget.stopped, false, []⟩ bytes (locate path)
  (if s.bounded then .boundExceeded else if readable then .readable else .isOpaque, s)

end Layers

end Onevcs.Export
