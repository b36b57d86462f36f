import Onevcs.Foundations.Dict
import Onevcs.Foundations.Lines
import Onevcs.Foundations.Outcome
import Onevcs.Release.Status
import Onevcs.Store.Normalize

/-!
# The release record of an identity

`read_at`, `usable`, `update`, `observe`, `write_baseline`, `establish` and
`write_acknowledgement` of `release.rs`, over the document on disk. What the document carries
beyond this build's shape is a value that every write puts back.

`semver` is the parser of semantic versions. The lock of the record and the replacement of its
document may be refused.
-/

namespace Onevcs.Release.Records

open Foundations (Text Dict bind_eq_ok)

variable {υ α : Type}

/-! ## The document -/

structure SupersededRelease where
  version : Text
  recordedAt : Text
  actor : Text

structure StoredAcknowledgement where
  version : Text
  recordedAt : Text
  actor : Text
  superseded : List SupersededRelease

/-- What is recorded by target, and then by landing. -/
abbrev Landings (V : Type) := Dict Text (Dict Text V)

namespace Landings

variable {V : Type}

/-- What is recorded of a target at a landing. -/
def find (target commit : Text) (landings : Landings V) : Option V :=
  (Dict.get target landings).bind (Dict.get commit)

/-- Record a value of a target at a landing. -/
def record (target commit : Text) (v : V) (landings : Landings V) : Landings V :=
  Dict.insert target (Dict.insert commit v ((Dict.get target landings).getD [])) landings

variable {target commit : Text} {v : V} {landings : Landings V}

theorem find_record_self : find target commit (record target commit v landings) = some v := by
  simp [find, record, Dict.get_insert_self]

theorem find_record_of_ne {target' commit' : Text} (h : (target', commit') ≠ (target, commit)) :
    find target' commit' (record target commit v landings) = find target' commit' landings := by
  unfold find record
  by_cases htarget : target' = target
  · subst htarget
    have hcommit : commit' ≠ commit := fun heq => h (by rw [heq])
    rw [Dict.get_insert_self, Option.bind_some, Dict.get_insert_of_ne hcommit]
    cases Dict.get target' landings with
    | none => rfl
    | some inner => rfl
  · rw [Dict.get_insert_of_ne htarget]

end Landings

structure Record (υ : Type) where
  version : ℕ
  identity : Text
  baselines : Landings BaselineRecord
  acknowledgements : Landings StoredAcknowledgement
  observed : Landings Text
  carried : υ

/-- The file of the record: not there, not one that can be read into this shape, or what it
reads into. -/
inductive Document (υ : Type)
  | missing
  | unreadable
  | held (record : Record υ)

def recordVersion : ℕ := 1

def Record.empty [Inhabited υ] (identity : Text) : Record υ where
  version := recordVersion
  identity := identity
  baselines := []
  acknowledgements := []
  observed := []
  carried := default

/-! ## Reading it -/

/-- What of a stored record cannot be used. -/
inductive Unusable
  | acknowledgedVersion (target commit version : Text)
  | recordedAt (target commit recordedAt : Text)
  | actor (target commit actor : Text)
  | baselineVersion (target commit version : Text)
  | reason (target commit reason : Text)
  | attemptedAt (target commit attemptedAt : Text)

/-- Why a call is refused. -/
inductive Error
  | unreadable
  | older (version : ℕ)
  | about (other : Text)
  | unusable (what : Unusable)
  | acknowledged (target commit recorded version reference : Text)
  | lock
  | replace

def isTimestamp (value : Text) : Bool :=
  let shape := "0000-00-00T00:00:00.000Z".toList
  (value.map Char.utf8Size).sum == shape.length &&
    (value.zip shape).all fun (had, want) => if want = '0' then had.isDigit else had == want

def isControl (c : Char) : Bool := c.toNat < 0x20 || (0x7F ≤ c.toNat && c.toNat ≤ 0x9F)

def maxActor : ℕ := 128

def usableActor (value : Text) : Bool :=
  !value.isEmpty && value.length ≤ maxActor && !value.any isControl

def oneLine (value : Text) : Bool := !value.any isControl

/-- The value says something, on one line. -/
def saysOneLine (value : Text) : Bool := !(Store.trim value).isEmpty && oneLine value

/-- A check that refuses what it is about. -/
def require (holds : Bool) (what : Unusable) : Except Error Unit :=
  if holds then .ok () else .error (.unusable what)

/-- A stored acknowledgement's releases: the current one, and those it superseded. -/
def StoredAcknowledgement.releases (stored : StoredAcknowledgement) : List SupersededRelease :=
  ⟨stored.version, stored.recordedAt, stored.actor⟩ :: stored.superseded

section Reading

variable (semver : Text → Bool)

/-- One release of an acknowledgement is usable. -/
def usableRelease (target commit : Text) (release : SupersededRelease) : Except Error Unit := do
  require (semver release.version) (.acknowledgedVersion target commit release.version)
  require (isTimestamp release.recordedAt) (.recordedAt target commit release.recordedAt)
  require (usableActor release.actor) (.actor target commit release.actor)

def usableBaseline (target commit : Text) : BaselineRecord → Except Error Unit
  | .established (.at version) =>
    require (saysOneLine version.toList) (.baselineVersion target commit version.toList)
  | .established .noRelease => .ok ()
  | .unestablished reason attemptedAt => do
    require (saysOneLine reason.toList) (.reason target commit reason.toList)
    require (isTimestamp attemptedAt.toList) (.attemptedAt target commit attemptedAt.toList)

def usable (record : Record υ) : Except Error Unit := do
  record.acknowledgements.forM fun (target, landings) =>
    landings.forM fun (commit, stored) =>
      stored.releases.forM (usableRelease semver target commit)
  record.baselines.forM fun (target, landings) =>
    landings.forM fun (commit, baseline) => usableBaseline target commit baseline

def readAt [Inhabited υ] (identity : Text) : Document υ → Except Error (Record υ)
  | .missing => .ok (Record.empty identity)
  | .unreadable => .error .unreadable
  | .held record =>
    if record.version < recordVersion then .error (.older record.version)
    else if record.identity ≠ identity then .error (.about record.identity)
    else do
      usable semver record
      return record

/-! ## Changing it -/

/-- `update`: a change made under the record's lock, over what is read inside it. -/
def update [Inhabited υ] (locks replaces : Bool) (identity : Text)
    (change : Record υ → Except Error (α × Record υ)) (document : Document υ) :
    Except Error α × Document υ :=
  if locks then
    match readAt semver identity document with
    | .error error => (.error error, document)
    | .ok record =>
      match change record with
      | .error error => (.error error, document)
      | .ok (outcome, changed) =>
        if replaces then (.ok outcome, .held changed) else (.error .replace, document)
  else (.error .lock, document)

end Reading

namespace Record

variable (target commit : Text) (record : Record υ)

/-- The change of `observe`, and whether it inserted the landing. -/
def observe (version : Text) : Bool × Record υ :=
  match record.observed.find target commit with
  | some _ => (false, record)
  | none => (true, { record with observed := record.observed.record target commit version })

/-- The change of `write_baseline`. -/
def writeBaseline (baseline : BaselineRecord) : Record υ :=
  match record.baselines.find target commit with
  | some _ => record
  | none => { record with baselines := record.baselines.record target commit baseline }

/-- The change of `establish`. -/
def establish (baseline : Baseline) : Record υ :=
  { record with baselines := record.baselines.record target commit (.established baseline) }

def acknowledgement : Option StoredAcknowledgement := record.acknowledgements.find target commit

end Record

structure Acknowledgement where
  identity : Text
  target : Text
  landingCommit : Text
  version : Text
  recordedAt : Text
  actor : Text
  superseded : List SupersededRelease

structure Written where
  replaced : Option Text
  wasACorrection : Bool

structure Recorded where
  acknowledgement : Acknowledgement
  written : Option Written

def reconstitute (identity target commit : Text) (stored : StoredAcknowledgement) :
    Acknowledgement where
  identity := identity
  target := target
  landingCommit := commit
  version := stored.version
  recordedAt := stored.recordedAt
  actor := stored.actor
  superseded := stored.superseded

/-- `Recording`, with the moment it is made at. -/
structure Recording where
  identity : Text
  target : Text
  commit : Text
  version : Text
  actor : Text
  supersede : Bool
  reference : Text
  now : Text

namespace Recording

variable (asked : Recording)

/-- The release a call records where it is accepted. -/
def release : SupersededRelease := ⟨asked.version, asked.now, asked.actor⟩

/-- What is stored of it over what it supersedes. -/
def stored (superseded : List SupersededRelease) : StoredAcknowledgement :=
  ⟨asked.version, asked.now, asked.actor, superseded⟩

/-- What the call answers about the acknowledgement that is stored by then. -/
def recorded (stored : StoredAcknowledgement) (written : Option Written) : Recorded :=
  ⟨reconstitute asked.identity asked.target asked.commit stored, written⟩

def storeIn (record : Record υ) (stored : StoredAcknowledgement) : Record υ :=
  { record with
    acknowledgements := record.acknowledgements.record asked.target asked.commit stored }

end Recording

/-- The change of `write_acknowledgement`. -/
def Record.writeAcknowledgement (asked : Recording) (record : Record υ) :
    Except Error (Recorded × Record υ) :=
  match record.acknowledgement asked.target asked.commit with
  | some existing =>
    if existing.version = asked.version then .ok (asked.recorded existing none, record)
    else if asked.supersede then
      let stored := asked.stored (existing.superseded ++
        [⟨existing.version, existing.recordedAt, existing.actor⟩])
      .ok (asked.recorded stored (some ⟨some existing.version, true⟩),
        asked.storeIn record stored)
    else
      .error (.acknowledged asked.target asked.commit existing.version asked.version
        asked.reference)
  | none =>
    let stored := asked.stored []
    .ok (asked.recorded stored (some ⟨none, false⟩), asked.storeIn record stored)

section Calls

variable [Inhabited υ] (semver : Text → Bool)

/-- A call for a target at a landing, and what the outside refuses of it. -/
structure Attempt where
  version : Text
  actor : Text
  supersede : Bool
  reference : Text
  now : Text
  locks : Bool
  replaces : Bool

def Attempt.asked (identity target commit : Text) (attempt : Attempt) : Recording where
  identity := identity
  target := target
  commit := commit
  version := attempt.version
  actor := attempt.actor
  supersede := attempt.supersede
  reference := attempt.reference
  now := attempt.now

def writeAcknowledgement (locks replaces : Bool) (asked : Recording) (document : Document υ) :
    Except Error Recorded × Document υ :=
  update semver locks replaces asked.identity (Record.writeAcknowledgement asked) document

end Calls

section Updates

variable [Inhabited υ] {semver : Text → Bool} {locks replaces : Bool} {identity : Text}
variable {change : Record υ → Except Error (α × Record υ)} {document : Document υ}
variable {record : Record υ}

theorem readAt_held (h : readAt semver identity document = .ok record) :
    document = .held record ∨ (document = .missing ∧ record = Record.empty identity) := by
  cases document with
  | missing =>
    obtain rfl := Except.ok.inj h
    exact .inr ⟨rfl, rfl⟩
  | unreadable => cases h
  | held held =>
    rw [readAt] at h
    split at h
    · cases h
    · split at h
      · cases h
      · obtain ⟨_, -, h⟩ := bind_eq_ok.mp h
        obtain rfl := Except.ok.inj h
        exact .inl rfl

theorem update_cases :
    (∃ error,
        update semver locks replaces identity change document = (.error error, document)) ∨
      ∃ record outcome changed, readAt semver identity document = .ok record ∧
        change record = .ok (outcome, changed) ∧
        update semver locks replaces identity change document =
          (.ok outcome, .held changed) := by
  unfold update
  cases locks with
  | false => exact .inl ⟨_, rfl⟩
  | true =>
    cases hread : readAt semver identity document with
    | error error => exact .inl ⟨error, rfl⟩
    | ok record =>
      cases hchange : change record with
      | error error => exact .inl ⟨error, by simp [hchange]⟩
      | ok answer =>
        obtain ⟨outcome, changed⟩ := answer
        cases replaces with
        | false => exact .inl ⟨.replace, by simp [hchange]⟩
        | true => exact .inr ⟨record, outcome, changed, rfl, hchange, by simp [hchange]⟩

end Updates

/-! ## The acknowledgements of a target at a landing -/

/-- What a file says was acknowledged of a target at a landing. -/
def Document.acknowledgement (target commit : Text) :
    Document υ → Option StoredAcknowledgement
  | .missing | .unreadable => none
  | .held record => record.acknowledgement target commit

/-- The releases an acknowledgement was made of, oldest first: those that were superseded, and
then the current one. -/
def StoredAcknowledgement.history (stored : StoredAcknowledgement) : List SupersededRelease :=
  stored.superseded ++ [⟨stored.version, stored.recordedAt, stored.actor⟩]

/-- The releases that were acknowledged of a target at a landing, oldest first. -/
def Document.history (target commit : Text) (document : Document υ) : List SupersededRelease :=
  ((document.acknowledgement target commit).map StoredAcknowledgement.history).getD []

/-- The release a call has recorded: none where it was refused, or wrote nothing. -/
def acceptedBy (asked : Recording) : Except Error Recorded → List SupersededRelease
  | .error _ => []
  | .ok recorded => if recorded.written.isSome then [asked.release] else []

section Acknowledging

variable [Inhabited υ] (semver : Text → Bool) (identity target commit : Text)

/-- The file after calls for one target at one landing, and the releases they recorded. -/
def acknowledging : List Attempt → Document υ → List SupersededRelease × Document υ
  | [], document => ([], document)
  | attempt :: rest, document =>
    let asked := attempt.asked identity target commit
    let made := writeAcknowledgement semver attempt.locks attempt.replaces asked document
    let later := acknowledging rest made.2
    (acceptedBy asked made.1 ++ later.1, later.2)

variable {semver identity target commit} {locks replaces : Bool} {asked : Recording}
variable {document : Document υ} {record changed : Record υ} {recorded : Recorded}
variable {existing : StoredAcknowledgement}

theorem acknowledgement_of_readAt (h : readAt semver identity document = .ok record) :
    document.acknowledgement target commit = record.acknowledgement target commit := by
  rcases readAt_held h with rfl | ⟨rfl, rfl⟩
  · rfl
  · rfl

omit [Inhabited υ] in
theorem acknowledgement_storeIn {stored : StoredAcknowledgement} :
    (asked.storeIn record stored).acknowledgement asked.target asked.commit = some stored :=
  Landings.find_record_self

theorem history_of_change (hread : readAt semver identity document = .ok record)
    (hchange : Record.writeAcknowledgement asked record = .ok (recorded, changed)) :
    (Document.held changed).history asked.target asked.commit =
      document.history asked.target asked.commit ++ acceptedBy asked (.ok recorded) := by
  unfold Document.history
  rw [acknowledgement_of_readAt hread]
  unfold Record.writeAcknowledgement at hchange
  cases hexisting : record.acknowledgement asked.target asked.commit with
  | none =>
    simp only [hexisting] at hchange
    obtain ⟨rfl, rfl⟩ := Prod.mk.inj (Except.ok.inj hchange)
    simp only [Document.acknowledgement, acknowledgement_storeIn]
    rfl
  | some existing =>
    simp only [hexisting] at hchange
    split at hchange
    · -- the version is the current one, and nothing is recorded
      obtain ⟨rfl, rfl⟩ := Prod.mk.inj (Except.ok.inj hchange)
      simp only [Document.acknowledgement, hexisting]
      exact (List.append_nil _).symm
    · split at hchange
      · obtain ⟨rfl, rfl⟩ := Prod.mk.inj (Except.ok.inj hchange)
        simp only [Document.acknowledgement, acknowledgement_storeIn]
        rfl
      · cases hchange

theorem writeAcknowledgement_cases (semver : Text → Bool) (locks replaces : Bool)
    (asked : Recording) (document : Document υ) :
    (∃ error, writeAcknowledgement semver locks replaces asked document =
        (.error error, document)) ∨
      ∃ record recorded changed, readAt semver asked.identity document = .ok record ∧
        Record.writeAcknowledgement asked record = .ok (recorded, changed) ∧
        writeAcknowledgement semver locks replaces asked document =
          (.ok recorded, .held changed) :=
  update_cases

theorem history_writeAcknowledgement :
    (writeAcknowledgement semver locks replaces asked document).2.history asked.target
        asked.commit =
      document.history asked.target asked.commit ++
        acceptedBy asked (writeAcknowledgement semver locks replaces asked document).1 := by
  rcases writeAcknowledgement_cases semver locks replaces asked document with
    ⟨error, hrefused⟩ | ⟨record, recorded, changed, hread, hchange, hmade⟩
  · rw [hrefused]
    exact (List.append_nil _).symm
  · rw [hmade]
    exact history_of_change hread hchange

theorem history_acknowledging (attempts : List Attempt) :
    (acknowledging semver identity target commit attempts document).2.history target commit =
      document.history target commit ++
        (acknowledging semver identity target commit attempts document).1 := by
  induction attempts generalizing document with
  | nil => exact (List.append_nil _).symm
  | cons attempt rest ih =>
    have hone : (writeAcknowledgement semver attempt.locks attempt.replaces
          (attempt.asked identity target commit) document).2.history target commit =
        document.history target commit ++ _ :=
      history_writeAcknowledgement
    rw [acknowledging, ih, hone, List.append_assoc]

theorem document_of_current (hcurrent : document.acknowledgement asked.target asked.commit =
      some existing) (hversion : existing.version = asked.version) :
    (writeAcknowledgement semver locks replaces asked document).2 = document := by
  rcases writeAcknowledgement_cases semver locks replaces asked document with
    ⟨error, hrefused⟩ | ⟨record, recorded, changed, hread, hchange, hmade⟩
  · rw [hrefused]
  · rw [hmade]
    rw [acknowledgement_of_readAt hread] at hcurrent
    have hkept : Record.writeAcknowledgement asked record =
        .ok (asked.recorded existing none, record) := by
      unfold Record.writeAcknowledgement
      simp only [hcurrent, if_pos hversion]
    obtain ⟨-, rfl⟩ := Prod.mk.inj (Except.ok.inj (hchange.symm.trans hkept))
    rcases readAt_held hread with rfl | ⟨rfl, rfl⟩
    · rfl
    · cases hcurrent

theorem refused_of_other (hcurrent : document.acknowledgement asked.target asked.commit =
      some existing) (hversion : existing.version ≠ asked.version)
    (hsupersede : asked.supersede = false) :
    ∃ error, writeAcknowledgement semver locks replaces asked document =
      (.error error, document) := by
  rcases writeAcknowledgement_cases semver locks replaces asked document with
    hrefused | ⟨record, recorded, changed, hread, hchange, hmade⟩
  · exact hrefused
  · rw [acknowledgement_of_readAt hread] at hcurrent
    unfold Record.writeAcknowledgement at hchange
    simp only [hcurrent, if_neg hversion, hsupersede] at hchange
    cases hchange

/-- For every file and every calls for one target at one landing: a call that names the current
version changes nothing; one that names another and does not say to supersede it is refused and
changes nothing; and what is recorded after the calls is, with what it superseded before it, what
was recorded before them and then the releases that were accepted, oldest first. -/
theorem acknowledgements_kept (semver : Text → Bool) (identity target commit : Text)
    (document : Document υ) (attempts : List Attempt) :
    let ran := acknowledging semver identity target commit attempts document
    ran.2.history target commit = document.history target commit ++ ran.1 ∧
      ∀ existing, ran.2.acknowledgement target commit = some existing →
        existing.history = document.history target commit ++ ran.1 ∧
        ∀ attempt : Attempt,
          let made := writeAcknowledgement semver attempt.locks attempt.replaces
            (attempt.asked identity target commit) ran.2
          (attempt.version = existing.version → made.2 = ran.2) ∧
            (attempt.version ≠ existing.version → attempt.supersede = false →
              ∃ error, made = (.error error, ran.2)) := by
  intro ran
  have hhistory : ran.2.history target commit = _ := history_acknowledging attempts
  refine ⟨hhistory, fun existing hexisting => ⟨?_, fun attempt => ⟨fun hversion => ?_, ?_⟩⟩⟩
  · rw [← hhistory, Document.history, hexisting]
    rfl
  · exact document_of_current hexisting hversion.symm
  · intro hversion hsupersede
    exact refused_of_other hexisting (Ne.symm hversion) hsupersede

end Acknowledging

end Onevcs.Release.Records
