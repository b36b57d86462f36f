import Mathlib.Data.List.Basic
import Onevcs.Foundations.Delimited
import Onevcs.Foundations.Digits
import Onevcs.Foundations.Outcome
import Onevcs.Foundations.Transition
import Onevcs.Streams.Vocabulary

/-!
# The events of one operation

`OperationEvents` of `stream.rs`: a position in the file an operation writes its events to, which
only grows. A read takes the complete records from there on and moves behind them where every one
is an event of the operation; otherwise it moves nowhere. The position is handed out as a text, and
taken up again from it.

The `serde_json` reader of an envelope is a parameter, and what the file system and the manifest of
the operation answer are arguments of each call.
-/

namespace Onevcs.Streams

open Foundations

variable {ν δ : Type}

/-- `Envelope`, as far as the reader of an operation looks at one. -/
structure OperationEnvelope (ν δ : Type) where
  stream : String
  /-- `labels.extra` -/
  extra : List (String × Value ν)
  rest : δ
  deriving DecidableEq

abbrev Bytes := List UInt8

/-- `\n` -/
def newline : UInt8 := 10

/-- `OperationEvents` -/
structure OperationEvents where
  operation : String
  offset : ℕ
  identity : String
  deriving DecidableEq

namespace OperationEvents

/-- Why a reader is not opened, or a read fails. -/
inductive Refusal
  | noManifest (why : String)
  | unread (why : String)
  | notAnEnvelope (why : String)
  | foreignEvent
  | unstamped
  | invalidSignificance
  | foreignCursor
  | cursorTooLarge
  | notABoundary

/-- `OperationEvents::open`, of what the manifest of the operation gives for its repository. -/
def fromFirst (operation : String) (repository : Except String String) :
    Except Refusal OperationEvents :=
  match repository with
  | .error why => .error (.noManifest why)
  | .ok identity => .ok { operation, offset := 0, identity }

/-- `OperationEvents::resume`, of the cursor, what the manifest gives and what the file holds. A
`usize` has 64 bits. -/
def resume (operation : String) (repository : Except String String) (file : Except String Bytes)
    (cursor : Text) : Except Refusal OperationEvents :=
  match fromFirst operation repository with
  | .error refusal => .error refusal
  | .ok reader =>
    match (cursor.dropPrefix? (operation.toList ++ [':'])).bind (parseUnsigned 64) with
    | none => .error .foreignCursor
    | some offset =>
      match file with
      | .error why => .error (.unread why)
      | .ok bytes =>
        if 2 ^ 64 ≤ offset then .error .cursorTooLarge
        else if bytes.length < offset ∨ (offset ≠ 0 ∧ bytes[offset - 1]? ≠ some newline) then
          .error .notABoundary
        else .ok { reader with offset }

/-- `OperationEvents::cursor` -/
def cursor (reader : OperationEvents) : Text :=
  reader.operation.toList ++ ':' :: Nat.toDigits 10 reader.offset

variable (parse : Bytes → Except String (OperationEnvelope ν δ))

/-- What the loop of `read` asks of one record. -/
def judge (reader : OperationEvents) (record : Bytes) :
    Except Refusal (OperationEnvelope ν δ) :=
  match parse record with
  | .error why => .error (.notAnEnvelope why)
  | .ok envelope =>
    if (envelope.extra.lookup "identity").bind Value.asStr ≠ some reader.identity ∨
        envelope.stream ≠ reader.operation ∨
        (envelope.extra.lookup "operation_id").bind Value.asStr ≠ some reader.operation then
      .error .foreignEvent
    else
      match envelope.extra.lookup "significance" with
      | none => .error .unstamped
      | some stamp =>
        match Significance.fromValue stamp with
        | none => .error .invalidSignificance
        | some _ => .ok envelope

/-- The loop of `read`, over the pieces of what is left of the file: the events, and how many bytes
they were read from. -/
def batch (reader : OperationEvents) :
    List Bytes → Except Refusal (List (OperationEnvelope ν δ) × ℕ)
  | [] => .ok ([], 0)
  | record :: rest =>
    if record.getLast? ≠ some newline then .ok ([], 0)
    else do
      let envelope ← reader.judge parse record
      let after ← reader.batch rest
      .ok (envelope :: after.1, record.length + after.2)

/-- `OperationEvents::read`, of what the file holds, or why it is not read. -/
def read (reader : OperationEvents) (file : Except String Bytes) :
    Except Refusal (List (OperationEnvelope ν δ)) × OperationEvents :=
  match file with
  | .error why => (.error (.unread why), reader)
  | .ok bytes =>
    match reader.batch parse (splitInclusive newline (bytes.drop reader.offset)) with
    | .error refusal => (.error refusal, reader)
    | .ok (events, consumed) => (.ok events, { reader with offset := reader.offset + consumed })

variable {parse} {reader after : OperationEvents} {file : Bytes} {operation identity : String}

theorem parse_of_judge {record : Bytes} {envelope : OperationEnvelope ν δ}
    (h : reader.judge parse record = .ok envelope) : parse record = .ok envelope := by
  unfold judge at h
  cases hparse : parse record with
  | error why =>
    rw [hparse] at h
    cases h
  | ok found =>
    rw [hparse] at h
    dsimp only at h
    split at h
    · cases h
    · split at h
      · cases h
      · split at h
        · cases h
        · exact congrArg Except.ok (Except.ok.inj h)

theorem batch_ok {records : List Bytes} {answer : List (OperationEnvelope ν δ) × ℕ}
    (h : reader.batch parse records = .ok answer) :
    (records.takeWhile fun record => record.getLast? = some newline).map parse =
        answer.1.map .ok ∧
      (records.takeWhile fun record => record.getLast? = some newline).flatten.length =
        answer.2 := by
  induction records generalizing answer with
  | nil =>
    obtain rfl := Except.ok.inj h
    exact ⟨rfl, rfl⟩
  | cons record rest ih =>
    unfold batch at h
    by_cases hlast : record.getLast? = some newline
    · rw [if_neg (not_not_intro hlast)] at h
      obtain ⟨envelope, hjudge, h⟩ := bind_eq_ok.mp h
      obtain ⟨more, hbatch, h⟩ := bind_eq_ok.mp h
      obtain rfl := Except.ok.inj h
      obtain ⟨hparsed, hconsumed⟩ := ih hbatch
      simp only [List.takeWhile_cons, hlast, decide_true, if_true]
      constructor
      · rw [List.map_cons, List.map_cons, hparsed, parse_of_judge hjudge]
      · rw [List.flatten_cons, List.length_append, hconsumed]
    · rw [if_pos hlast] at h
      obtain rfl := Except.ok.inj h
      simp only [List.takeWhile_cons, hlast, decide_false, Bool.false_eq_true, if_false]
      exact ⟨rfl, rfl⟩

theorem read_ok {events : List (OperationEnvelope ν δ)}
    (h : reader.read parse (.ok file) = (.ok events, after)) :
    (completeParts newline (file.drop reader.offset)).map parse = events.map .ok ∧
      after = { reader with offset := reach newline file reader.offset } := by
  unfold read at h
  dsimp only at h
  cases hbatch : reader.batch parse (splitInclusive newline (file.drop reader.offset)) with
  | error refusal =>
    rw [hbatch] at h
    cases (Prod.mk.inj h).1
  | ok answer =>
    rw [hbatch] at h
    obtain ⟨hevents, rfl⟩ := Prod.mk.inj h
    obtain ⟨hparsed, hconsumed⟩ := batch_ok hbatch
    obtain rfl := Except.ok.inj hevents
    refine ⟨hparsed, ?_⟩
    rw [← hconsumed]
    rfl

theorem read_error {contents : Except String Bytes} {refusal : Refusal}
    (h : reader.read parse contents = (.error refusal, after)) : after = reader := by
  unfold read at h
  cases contents with
  | error why => exact (Prod.mk.inj h).2.symm
  | ok bytes =>
    dsimp only at h
    split at h
    · exact (Prod.mk.inj h).2.symm
    · cases (Prod.mk.inj h).1

theorem resume_ok {repository : Except String String} {contents : Except String Bytes}
    {cursor : Text} (h : resume operation repository contents cursor = .ok reader) :
    reader.operation = operation ∧
      ∃ file, contents = .ok file ∧ AtBoundary newline file reader.offset := by
  unfold resume at h
  cases repository with
  | error why => cases h
  | ok identity =>
    dsimp only [fromFirst] at h
    split at h
    · cases h
    · split at h
      · cases h
      · next file =>
        split at h
        · cases h
        · split at h
          · cases h
          · next hboundary =>
            obtain rfl := Except.ok.inj h
            rw [not_or, Nat.not_lt, not_and_or, not_not, not_not] at hboundary
            exact ⟨rfl, file, rfl, atBoundary_iff.mpr hboundary⟩

theorem resume_cursor (hfits : file.length < 2 ^ 64)
    (hboundary : AtBoundary newline file reader.offset) :
    resume reader.operation (.ok identity) (.ok file) reader.cursor =
      .ok { reader with identity } := by
  obtain ⟨hwithin, hlast⟩ := atBoundary_iff.mp hboundary
  have hoffset : reader.offset < 2 ^ 64 := hwithin.trans_lt hfits
  have hdrop : reader.cursor.dropPrefix? (reader.operation.toList ++ [':']) =
      some (Nat.toDigits 10 reader.offset) := by
    rw [cursor, List.append_cons]
    exact List.dropPrefix?_append_of_beq _ (beq_self_eq_true _)
  unfold resume
  dsimp only [fromFirst]
  rw [hdrop, Option.bind_some, parseUnsigned_toDigits hoffset]
  dsimp only
  rw [if_neg (Nat.not_le.mpr hoffset), if_neg]
  rw [not_or, Nat.not_lt, not_and_or, not_not, not_not]
  exact ⟨hwithin, hlast⟩

/-! ## Runs -/

/-- A reader with what was returned before it stands where it does, from the place its line of reads
and resumes began at. -/
structure Lineage (ν δ : Type) where
  start : ℕ
  reader : OperationEvents
  returned : List (OperationEnvelope ν δ)
  deriving DecidableEq

/-- The file, the readers, and the cursors handed out with the lineages they were handed out by. -/
structure World (ν δ : Type) where
  file : Bytes
  lineages : List (Lineage ν δ)
  handed : List (Text × Lineage ν δ)
  deriving DecidableEq

/-- What happens to an operation's events and their readers. -/
inductive Act
  | grow (bytes : Bytes)
  | fromFirst (repository : Except String String)
  | read (lineage : ℕ) (unread : Option String)
  | persist (lineage : ℕ)
  | resume (cursor : Text) (repository : Except String String) (unread : Option String)

variable (parse) in
/-- A lineage after one read: what a read returned is behind what was returned before. -/
def Lineage.read (lineage : Lineage ν δ) (file : Except String Bytes) : Lineage ν δ :=
  match lineage.reader.read parse file with
  | (.error _, reader) => { lineage with reader }
  | (.ok events, reader) => { lineage with reader, returned := lineage.returned ++ events }

/-- The lineage a resumed reader continues: that of the cursor, where it was handed out. -/
def Lineage.continued (handed : List (Text × Lineage ν δ)) (cursor : Text)
    (reader : OperationEvents) : Lineage ν δ :=
  match handed.lookup cursor with
  | some earlier => { earlier with reader }
  | none => { start := reader.offset, reader, returned := [] }

/-- What the file system answers for the file. -/
def World.contents (world : World ν δ) (unread : Option String) : Except String Bytes :=
  unread.elim (.ok world.file) .error

variable (parse) (operation) in
/-- One act. The length of a file has 64 bits. -/
def World.act (world : World ν δ) : Act → Option (World ν δ)
  | .grow bytes =>
    if (world.file ++ bytes).length < 2 ^ 64 then some { world with file := world.file ++ bytes }
    else none
  | .fromFirst repository =>
    match OperationEvents.fromFirst operation repository with
    | .error _ => some world
    | .ok reader =>
      some { world with lineages := world.lineages ++ [{ start := 0, reader, returned := [] }] }
  | .read lineage unread =>
    match world.lineages[lineage]? with
    | none => none
    | some found =>
      let after := found.read parse (world.contents unread)
      some { world with lineages := world.lineages.set lineage after }
  | .persist lineage =>
    match world.lineages[lineage]? with
    | none => none
    | some found => some { world with handed := world.handed ++ [(found.reader.cursor, found)] }
  | .resume cursor repository unread =>
    match OperationEvents.resume operation repository (world.contents unread) cursor with
    | .error _ => some world
    | .ok reader =>
      some { world with
        lineages := world.lineages ++ [Lineage.continued world.handed cursor reader] }

variable (parse) (operation) in
/-- An operation whose file was created, and what may happen to it from there. -/
def system : System (World ν δ) Act where
  Initial world := world = { file := [], lineages := [], handed := [] }
  step := World.act parse operation

variable (parse) in
/-- A lineage has returned each complete record up to where its reader stands once, in order. -/
structure Lineage.Exact (file : Bytes) (lineage : Lineage ν δ) : Prop where
  started : AtBoundary newline file lineage.start
  stands : AtBoundary newline file lineage.reader.offset
  ahead : lineage.start ≤ lineage.reader.offset
  returned :
    (completeParts newline ((file.take lineage.reader.offset).drop lineage.start)).map parse =
      lineage.returned.map .ok

namespace Lineage

variable {lineage earlier : Lineage ν δ}

theorem reader_continued (handed : List (Text × Lineage ν δ)) (cursor : Text)
    (reader : OperationEvents) : (continued handed cursor reader).reader = reader := by
  unfold continued
  cases handed.lookup cursor with
  | none => rfl
  | some earlier => rfl

theorem operation_read (lineage : Lineage ν δ) (contents : Except String Bytes) :
    (lineage.read parse contents).reader.operation = lineage.reader.operation := by
  unfold Lineage.read
  cases hread : lineage.reader.read parse contents with
  | mk answer after =>
    cases answer with
    | error refusal => rw [read_error hread]
    | ok events =>
      cases contents with
      | error why => cases (Prod.mk.inj hread).1
      | ok file => rw [(read_ok hread).2]

theorem Exact.grow (h : lineage.Exact parse file) (bytes : Bytes) :
    lineage.Exact parse (file ++ bytes) where
  started := h.started.append bytes
  stands := h.stands.append bytes
  ahead := h.ahead
  returned := by
    rw [List.take_append_of_le_length h.stands.1]
    exact h.returned

theorem exact_begun (h : AtBoundary newline file reader.offset) :
    (⟨reader.offset, reader, []⟩ : Lineage ν δ).Exact parse file where
  started := h
  stands := h
  ahead := le_rfl
  returned := by
    rw [List.drop_of_length_le (List.length_take_le _ _)]
    rfl

theorem Exact.returned_all (h : lineage.Exact parse file) {events : List (OperationEnvelope ν δ)}
    (hread : lineage.reader.read parse (.ok file) = (.ok events, after)) :
    (completeParts newline (file.drop lineage.start)).map parse =
      (lineage.returned ++ events).map .ok := by
  rw [completeParts_drop h.stands h.ahead, List.map_append, List.map_append, h.returned,
    (read_ok hread).1]

theorem Exact.read (h : lineage.Exact parse file) (unread : Option String) :
    (lineage.read parse (unread.elim (.ok file) .error)).Exact parse file := by
  unfold Lineage.read
  cases hread : lineage.reader.read parse (unread.elim (.ok file) .error) with
  | mk answer after =>
    cases answer with
    | error refusal =>
      obtain rfl := read_error hread
      exact h
    | ok events =>
      cases unread with
      | some why => cases (Prod.mk.inj hread).1
      | none =>
        have hall := h.returned_all hread
        obtain ⟨-, rfl⟩ := read_ok hread
        refine ⟨h.started, h.stands.reach, h.ahead.trans (Nat.le_add_right _ _), ?_⟩
        dsimp only
        rw [completeParts_take_reach h.stands h.ahead, hall]

theorem Exact.resumed (h : earlier.Exact parse file)
    (hoffset : reader.offset = earlier.reader.offset) :
    (⟨earlier.start, reader, earlier.returned⟩ : Lineage ν δ).Exact parse file where
  started := h.started
  stands := hoffset ▸ h.stands
  ahead := hoffset ▸ h.ahead
  returned := by
    rw [hoffset]
    exact h.returned

end Lineage

variable (parse) (operation) in
/-- What every run keeps. -/
structure World.Kept (world : World ν δ) : Prop where
  fits : world.file.length < 2 ^ 64
  lineages : ∀ lineage ∈ world.lineages,
    lineage.reader.operation = operation ∧ lineage.Exact parse world.file
  handed : ∀ pair ∈ world.handed, pair.1 = pair.2.reader.cursor ∧
    pair.2.reader.operation = operation ∧ pair.2.Exact parse world.file

namespace World

variable {world next : World ν δ}

theorem Kept.continued (h : world.Kept parse operation) {cursor : Text}
    {repository : Except String String}
    (hresume : OperationEvents.resume operation repository (.ok world.file) cursor = .ok reader) :
    (Lineage.continued world.handed cursor reader).Exact parse world.file := by
  unfold Lineage.continued
  cases hlookup : world.handed.lookup cursor with
  | none =>
    obtain ⟨-, file, hfile, hboundary⟩ := resume_ok hresume
    obtain rfl := Except.ok.inj hfile
    exact Lineage.exact_begun hboundary
  | some earlier =>
    obtain ⟨before, behind, hsplit, -⟩ := List.lookup_eq_some_iff.mp hlookup
    have hmem : (cursor, earlier) ∈ world.handed := by
      rw [hsplit]
      exact List.mem_append_right _ List.mem_cons_self
    obtain ⟨hcursor, rfl, hearlier⟩ := h.handed _ hmem
    dsimp only at hcursor hearlier hresume
    subst hcursor
    cases repository with
    | error why => cases hresume
    | ok identity =>
      rw [resume_cursor h.fits hearlier.stands] at hresume
      obtain rfl := Except.ok.inj hresume
      exact hearlier.resumed rfl

theorem kept_act {a : Act} (h : world.Kept parse operation)
    (hact : world.act parse operation a = some next) : next.Kept parse operation := by
  cases a with
  | grow bytes =>
    obtain ⟨hfits, hnext⟩ := Option.ite_none_right_eq_some.mp hact
    obtain rfl := Option.some.inj hnext
    exact ⟨hfits, fun lineage hlineage => (h.lineages lineage hlineage).imp_right (·.grow bytes),
      fun pair hpair => (h.handed pair hpair).imp_right (·.imp_right (·.grow bytes))⟩
  | fromFirst repository =>
    cases repository with
    | error why =>
      obtain rfl := Option.some.inj hact
      exact h
    | ok identity =>
      obtain rfl := Option.some.inj hact
      refine ⟨h.fits, fun lineage hlineage => ?_, h.handed⟩
      rcases List.mem_append.mp hlineage with hlineage | hlineage
      · exact h.lineages lineage hlineage
      · obtain rfl := List.mem_singleton.mp hlineage
        have hbegun : AtBoundary newline world.file
            (⟨operation, 0, identity⟩ : OperationEvents).offset := atBoundary_zero
        exact ⟨rfl, Lineage.exact_begun hbegun⟩
  | read index unread =>
    unfold act at hact
    dsimp only at hact
    cases hfound : world.lineages[index]? with
    | none =>
      rw [hfound] at hact
      cases hact
    | some found =>
      rw [hfound] at hact
      obtain rfl := Option.some.inj hact
      obtain ⟨hoperation, hexact⟩ := h.lineages found (List.mem_of_getElem? hfound)
      refine ⟨h.fits, fun lineage hlineage => ?_, h.handed⟩
      rcases List.mem_or_eq_of_mem_set hlineage with hlineage | rfl
      · exact h.lineages lineage hlineage
      · exact ⟨(found.operation_read _).trans hoperation, hexact.read unread⟩
  | persist index =>
    unfold act at hact
    dsimp only at hact
    cases hfound : world.lineages[index]? with
    | none =>
      rw [hfound] at hact
      cases hact
    | some found =>
      rw [hfound] at hact
      obtain rfl := Option.some.inj hact
      refine ⟨h.fits, h.lineages, fun pair hpair => ?_⟩
      rcases List.mem_append.mp hpair with hpair | hpair
      · exact h.handed pair hpair
      · obtain rfl := List.mem_singleton.mp hpair
        exact ⟨rfl, h.lineages found (List.mem_of_getElem? hfound)⟩
  | resume cursor repository unread =>
    unfold act at hact
    dsimp only at hact
    cases hresume : OperationEvents.resume operation repository (world.contents unread)
      cursor with
    | error refusal =>
      rw [hresume] at hact
      obtain rfl := Option.some.inj hact
      exact h
    | ok reader =>
      rw [hresume] at hact
      obtain rfl := Option.some.inj hact
      obtain ⟨hoperation, file, hfile, -⟩ := resume_ok hresume
      cases unread with
      | some why => cases hfile
      | none =>
        refine ⟨h.fits, fun lineage hlineage => ?_, h.handed⟩
        rcases List.mem_append.mp hlineage with hlineage | hlineage
        · exact h.lineages lineage hlineage
        · obtain rfl := List.mem_singleton.mp hlineage
          exact ⟨by rw [Lineage.reader_continued, hoperation], h.continued hresume⟩

theorem kept (h : (system parse operation).Reachable world) : world.Kept parse operation :=
  h.invariant (fun _ hinit => by
      subst hinit
      exact ⟨Nat.two_pow_pos 64, fun _ hlineage => (nomatch hlineage),
        fun _ hpair => (nomatch hpair)⟩)
    fun _ _ _ hkept _ hact => kept_act hkept hact

end World

/-- Over any growth of the file, with its last record written or not, and any reads and resumes, a
lineage has returned each complete record up to where its reader stands once, in order, and a read
that succeeds returns what is left of them; every cursor that was handed out stands at a boundary
and is taken up again; and a read that fails leaves the reader where it was. -/
theorem records_returned_once {world : World ν δ} (h : (system parse operation).Reachable world) :
    (∀ lineage ∈ world.lineages, lineage.Exact parse world.file ∧
      (∀ events after, lineage.reader.read parse (.ok world.file) = (.ok events, after) →
        (completeParts newline (world.file.drop lineage.start)).map parse =
          (lineage.returned ++ events).map .ok) ∧
      ∀ contents refusal after, lineage.reader.read parse contents = (.error refusal, after) →
        after = lineage.reader ∧ after.cursor = lineage.reader.cursor) ∧
    ∀ pair ∈ world.handed, pair.1 = pair.2.reader.cursor ∧
      AtBoundary newline world.file pair.2.reader.offset ∧ pair.2.Exact parse world.file ∧
      ∀ identity, resume operation (.ok identity) (.ok world.file) pair.1 =
        .ok { pair.2.reader with identity } := by
  have hkept := World.kept h
  constructor
  · intro lineage hlineage
    obtain ⟨-, hexact⟩ := hkept.lineages lineage hlineage
    refine ⟨hexact, fun events after hread => hexact.returned_all hread,
      fun contents refusal after hread => ?_⟩
    obtain rfl := read_error hread
    exact ⟨rfl, rfl⟩
  · intro pair hpair
    obtain ⟨hcursor, rfl, hexact⟩ := hkept.handed pair hpair
    refine ⟨hcursor, hexact.stands, hexact, fun identity => ?_⟩
    rw [hcursor, resume_cursor hkept.fits hexact.stands]

/-! A record that is written in two halves. -/

/-- The bytes of a text of ASCII characters. -/
def asciiBytes (text : String) : Bytes := text.toList.map fun c => UInt8.ofNat c.toNat

def startedRecord : Bytes :=
  asciiBytes "\x7b\"v\":1,\"ts\":\"2026-01-01T00:00:00.000Z\",\"stream\":\"o-1\",\"seq\":1," ++
    asciiBytes "\"source\":\"vcs\",\"kind\":\"future-kind\",\"phase\":\"integrate\",\"labels\":"

def endedRecord : Bytes :=
  asciiBytes "\x7b\"identity\":\"r\",\"operation_id\":\"o-1\",\"significance\":\"milestone\"\x7d," ++
    asciiBytes "\"payload\":\x7b\x7d,\"artifacts\":[]\x7d\n"

def startedEnvelope : OperationEnvelope Unit Unit where
  stream := "o-1"
  extra :=
    [("identity", .string "r"), ("operation_id", .string "o-1"),
      ("significance", .string "milestone")]
  rest := ()

def parseStarted (record : Bytes) : Except String (OperationEnvelope Unit Unit) :=
  if record = startedRecord ++ endedRecord then .ok startedEnvelope else .error "not an envelope"

/-- A lineage that began at the first record and read it. -/
def pastRecord : Lineage Unit Unit :=
  ⟨0, ⟨"o-1", 221, "r"⟩, [startedEnvelope]⟩

def halvesWorld : World Unit Unit where
  file := startedRecord ++ endedRecord
  lineages := [pastRecord, pastRecord]
  handed := [("o-1:0".toList, ⟨0, ⟨"o-1", 0, "r"⟩, []⟩), ("o-1:221".toList, pastRecord)]

theorem halves_run : (system parseStarted "o-1").run { file := [], lineages := [], handed := [] }
    [.grow startedRecord, .fromFirst (.ok "r"), .read 0 none, .persist 0, .grow endedRecord,
      .read 0 none, .persist 0, .resume "o-1:221".toList (.ok "r") none, .read 1 none] =
    some halvesWorld := by
  decide +kernel

/-- The record is returned when its second half is written, and a reader that is resumed behind it
has it returned already. -/
theorem records_returned_once_halves : pastRecord.Exact parseStarted (startedRecord ++ endedRecord) :=
  ((records_returned_once (System.reachable_of_run rfl halves_run)).1 _ List.mem_cons_self).1

end OperationEvents

end Onevcs.Streams
