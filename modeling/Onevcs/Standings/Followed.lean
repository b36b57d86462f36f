import Onevcs.Foundations.Memo
import Onevcs.Publish.Checks
import Onevcs.Streams.EventStream

/-!
# The checks of a followed change, recorded

`record_followed` and `latest_checks` of `standings.rs`: a read of the checks of a change is
appended to the stream of the session that opened it, as a `change-check` for every check that
moved since the newest one of its name on the stream.

The stream is its whole lines as the bus reads them. A payload is written as the bus bounds and
redacts its texts, `kept` of each. Which stream opened the change is looked up among the records of
changes that were opened, which no `change-check` is, so that one answer stands for the calls of one
read.
-/

namespace Onevcs.Standings

open Foundations (Text Memo)
open Publish (Check CheckState)
open Streams (EventKind Significance Entry Line Refusal)

/-! ## Readings -/

/-- A field of a payload, as far as a reader of checks tells its values apart. -/
inductive Field
  | null
  | text (value : Text)
  | other

/-- The fields of the payload of a `change-check` that are read back, and the status it moved
from. -/
structure CheckPayload where
  name : Option Field
  status : Option Field
  conclusion : Option Field
  startedAt : Option Field
  fromStatus : Option Text

structure CheckReading where
  status : Text
  conclusion : Option Text
  startedAt : Option Text
  deriving DecidableEq

def reading (check : Check) : CheckReading := ⟨check.status, check.conclusion, check.startedAt⟩

/-- Why the checks a stream holds are not read. -/
inductive Unread
  | line (refusal : Refusal)
  | significance
  | notText (field : Text)
  | missing (field : Text)

/-- A field that is text, where it is there. -/
def textField (name : Text) : Option Field → Except Unread (Option Text)
  | none | some .null => .ok none
  | some (.text value) => .ok (some value)
  | some .other => .error (.notText name)

def requiredField (name : Text) (field : Option Field) : Except Unread Text := do
  match ← textField name field with
  | some value => .ok value
  | none => .error (.missing name)

/-- What the payload of a `change-check` says it recorded. -/
def CheckPayload.recorded (payload : CheckPayload) : Except Unread (Text × CheckReading) := do
  let name ← requiredField "name".toList payload.name
  let status ← requiredField "status".toList payload.status
  let conclusion ← textField "conclusion".toList payload.conclusion
  let startedAt ← textField "started_at".toList payload.startedAt
  .ok (name, ⟨status, conclusion, startedAt⟩)

section Stream

variable {ν : Type}

/-- A stream's records: its whole lines, as they are read. -/
abbrev Records (ν : Type) := List (Entry ν CheckPayload)

/-- What a line of the stream adds to the newest readings. -/
def recordedCheck (token : String) (entry : Entry ν CheckPayload) (number : ℕ) :
    Except Unread (Option (Text × CheckReading)) :=
  match Streams.attributedRecord entry number token with
  | .error refusal => .error (.line refusal)
  | .ok (.unknown _ _) => .ok none
  | .ok (.known kind envelope) =>
    if kind ≠ .changeCheck then .ok none
    else if envelope.significance.any fun stamp => (Significance.fromValue stamp).isNone then
      .error .significance
    else envelope.rest.recorded.map some

/-- The newest readings, of the lines from a number on. -/
def latestFrom (token : String) (number : ℕ) (latest : Memo Text CheckReading) :
    Records ν → Except Unread (Memo Text CheckReading)
  | [] => .ok latest
  | entry :: rest =>
    match recordedCheck token entry number with
    | .error failure => .error failure
    | .ok none => latestFrom token (number + 1) latest rest
    | .ok (some (name, found)) => latestFrom token (number + 1) (latest.insert name found) rest

/-- `latest_checks`, of the stream's file where there is one. -/
def latestChecks (token : String) (file : Option (Records ν)) :
    Except Unread (Memo Text CheckReading) :=
  match file with
  | none => .ok Memo.empty
  | some records => latestFrom token 1 Memo.empty records

/-! ## What is recorded -/

/-- `significance`, of one check reading. -/
def significance (required : Bool) (state : CheckState) : Significance :=
  if state = .failed ∨ state = .noVerdict then if required then .blocker else .attention
  else .progress

/-- The word that a significance is written as. -/
def word : Significance → String
  | .milestone => "milestone"
  | .blocker => "blocker"
  | .progress => "progress"
  | .attention => "attention"

variable (kept : Text → Text) (number : Records ν → ℕ)

/-- The payload that is written of a check: `change_check_payload`, its texts kept. -/
def changeCheckPayload (check : Check) (fromStatus : Option Text) : CheckPayload where
  name := some (.text (kept check.name))
  status := some (.text (kept check.status))
  conclusion := some (check.conclusion.elim .null fun text => .text (kept text))
  startedAt := some (check.startedAt.elim .null fun text => .text (kept text))
  fromStatus := fromStatus.map kept

/-- The `change-check` of a check, with the number the bus gives it. -/
def changeCheck (token : String) (seq : ℕ) (check : Check) (fromStatus : Option Text) :
    Entry ν CheckPayload :=
  .ok {
    stream := token
    seq
    kind := EventKind.wire .changeCheck
    phase := some .review
    significance := some (.string (word (significance check.required check.state)))
    landingCommit := none
    rest := changeCheckPayload kept check fromStatus }

/-- `FollowedChange`, as far as it is recorded. -/
structure Followed where
  checks : List Check
  superseded : Bool

abbrev Files (ν : Type) := String → Option (Records ν)

/-- Where a read is recorded: the stream of the session that opened the change, where that is found,
and whether it can be opened for writing. -/
structure Sink where
  opened : Except Text (Option String)
  writable : Bool

/-- The records of the checks that moved, behind those of the stream, and how many landed. -/
def record (token : String) (latest : Memo Text CheckReading) (lands : ℕ → Bool) (attempt : ℕ)
    (records : Records ν) : List Check → ℕ × Records ν
  | [] => (0, records)
  | check :: rest =>
    if latest check.name = some (reading check) then
      record token latest lands attempt records rest
    else if lands attempt then
      let entry := changeCheck kept token (number records) check
        ((latest check.name).map CheckReading.status)
      let (recorded, records) :=
        record token latest lands (attempt + 1) (records ++ [entry]) rest
      (recorded + 1, records)
    else record token latest lands (attempt + 1) records rest

/-- `record_followed`: how many records are appended, and the files behind it. -/
def recordFollowed (sink : Sink) (lands : ℕ → Bool) (files : Files ν) (followed : Followed) :
    ℕ × Files ν :=
  if followed.superseded || followed.checks.isEmpty then (0, files)
  else
    match sink.opened with
    | .error _ => (0, files)
    | .ok none => (0, files)
    | .ok (some token) =>
      match latestChecks token (files token) with
      | .error _ => (0, files)
      | .ok latest =>
        if !sink.writable then (0, files)
        else
          match record kept number token latest lands 0 ((files token).getD [])
            followed.checks with
          | (0, _) => (0, files)
          | (recorded, records) => (recorded, Function.update files token (some records))

/-- A read, recorded with every write of it landing, is not recorded again. -/
def RecordedOnce (sink : Sink) (files : Files ν) (followed : Followed) : Prop :=
  let after := (recordFollowed kept number sink (fun _ => true) files followed).2
  recordFollowed kept number sink (fun _ => true) after followed = (0, after)

/-- What is read back of a check that is written. -/
def written (check : Check) : Text × CheckReading :=
  (kept check.name, ⟨kept check.status, check.conclusion.map kept, check.startedAt.map kept⟩)

/-- No two checks of one name report differently, and what is written of a check that moved is read
back unaltered. -/
structure Settles (latest : Memo Text CheckReading) (checks : List Check) : Prop where
  unambiguous : ∀ check ∈ checks, ∀ other ∈ checks, check.name = other.name →
    reading check = reading other
  unaltered : ∀ check ∈ checks, latest check.name ≠ some (reading check) →
    written kept check = (check.name, reading check)

/-- A read is recorded on a stream, behind the readings it holds. -/
structure RecordedOn (sink : Sink) (files : Files ν) (followed : Followed) (token : String)
    (latest : Memo Text CheckReading) : Prop where
  current : followed.superseded = false
  opened : sink.opened = .ok (some token)
  writable : sink.writable = true
  read : latestChecks token (files token) = .ok latest

/-- The read settles, where it is recorded at all. -/
def SettlesOn (sink : Sink) (files : Files ν) (followed : Followed) : Prop :=
  ∀ token latest, RecordedOn sink files followed token latest → Settles kept latest followed.checks

/-! ## What is read back -/

variable {kept : Text → Text} {number : Records ν → ℕ} {token : String}
  {latest : Memo Text CheckReading} {records : Records ν} {checks : List Check} {check : Check}

theorem fromValue_word (stamp : Significance) :
    Significance.fromValue (ν := ν) (.string (word stamp)) = some stamp := by
  cases stamp <;> rfl

theorem textField_text (name : Text) (text : Option Text) :
    textField name (some (text.elim .null fun text => .text (kept text))) =
      .ok (text.map kept) := by
  cases text <;> rfl

theorem recordedCheck_changeCheck (seq line : ℕ) (fromStatus : Option Text) :
    recordedCheck (ν := ν) token (changeCheck kept token seq check fromStatus) line =
      .ok (some (written kept check)) := by
  have hread : Streams.attributedRecord
      (changeCheck (ν := ν) kept token seq check fromStatus) line token =
        .ok (.known .changeCheck {
          stream := token
          seq
          kind := EventKind.wire .changeCheck
          phase := some .review
          significance := some (.string (word (significance check.required check.state)))
          landingCommit := none
          rest := changeCheckPayload kept check fromStatus }) := by
    rw [Streams.attributedRecord, changeCheck, Except.map, Line.of, EventKind.named_wire,
      Streams.attributeLine]
    exact if_neg (fun hne => hne rfl)
  have hstamp : Significance.fromValue (ν := ν)
      (.string (word (significance check.required check.state))) =
        some (significance check.required check.state) := fromValue_word _
  have hrecorded : (changeCheckPayload kept check fromStatus).recorded =
      .ok (written kept check) := by
    simp only [CheckPayload.recorded, changeCheckPayload, textField_text, requiredField]
    rfl
  rw [recordedCheck, hread]
  simp only [hrecorded, hstamp, Option.any_some, Option.isNone_some]
  rfl

theorem latestFrom_append (start : ℕ) (others : Records ν) :
    latestFrom token start latest (records ++ others) =
      (latestFrom token start latest records).bind fun latest =>
        latestFrom token (start + records.length) latest others := by
  induction records generalizing start latest with
  | nil => rfl
  | cons entry rest ih =>
    rw [List.cons_append, latestFrom, latestFrom]
    have hlength : start + (entry :: rest).length = start + 1 + rest.length := by
      rw [List.length_cons]
      omega
    cases hentry : recordedCheck token entry start with
    | error failure => rfl
    | ok found =>
      rw [hlength]
      cases found with
      | none => exact ih (start + 1)
      | some found => exact ih (start + 1)

/-- Records of checks, each written with some number and behind some reading. -/
def Written (kept : Text → Text) (token : String) : List Check → Records ν → Prop :=
  List.Forall₂ fun check entry => ∃ seq fromStatus, entry = changeCheck kept token seq check fromStatus

theorem latestFrom_written {others : Records ν} (h : Written kept token checks others)
    (start : ℕ) :
    latestFrom token start latest others = .ok (latest.insertAll (checks.map (written kept))) := by
  induction h generalizing start latest with
  | nil => rfl
  | cons hentry _ ih =>
    obtain ⟨seq, fromStatus, rfl⟩ := hentry
    rw [latestFrom, recordedCheck_changeCheck]
    exact ih (start + 1)

theorem latestChecks_append {file : Option (Records ν)} {others : Records ν}
    (hlatest : latestChecks token file = .ok latest) (h : Written kept token checks others) :
    latestChecks token (some (file.getD [] ++ others)) =
      .ok (latest.insertAll (checks.map (written kept))) := by
  have hfile : latestFrom token 1 Memo.empty (file.getD []) = .ok latest := by
    cases file with
    | none => exact hlatest
    | some records => exact hlatest
  rw [latestChecks, latestFrom_append, hfile]
  exact latestFrom_written h _

/-- The checks that moved since the newest readings. -/
def moved (latest : Memo Text CheckReading) (checks : List Check) : List Check :=
  checks.filter fun check => latest check.name ≠ some (reading check)

theorem mem_moved_iff :
    check ∈ moved latest checks ↔ check ∈ checks ∧ latest check.name ≠ some (reading check) := by
  rw [moved, List.mem_filter, decide_eq_true_iff]

variable (kept number token latest) in
/-- Where every write lands, the checks that moved are written, in their order. -/
theorem exists_record (attempt : ℕ) (records : Records ν) (checks : List Check) :
    ∃ others, Written kept token (moved latest checks) others ∧
      record kept number token latest (fun _ => true) attempt records checks =
        ((moved latest checks).length, records ++ others) := by
  induction checks generalizing attempt records with
  | nil => exact ⟨[], .nil, by rw [List.append_nil]; rfl⟩
  | cons check rest ih =>
    by_cases hsame : latest check.name = some (reading check)
    · have hmoved : moved latest (check :: rest) = moved latest rest :=
        List.filter_cons_of_neg (by simpa using hsame)
      obtain ⟨others, hwritten, hrecord⟩ := ih attempt records
      exact ⟨others, hmoved ▸ hwritten, by rw [record, if_pos hsame, hrecord, hmoved]⟩
    · have hmoved : moved latest (check :: rest) = check :: moved latest rest :=
        List.filter_cons_of_pos (by simpa using hsame)
      obtain ⟨entry, hentry⟩ : ∃ entry, entry = changeCheck kept token (number records) check
          ((latest check.name).map CheckReading.status) := ⟨_, rfl⟩
      obtain ⟨others, hwritten, hrecord⟩ := ih (attempt + 1) (records ++ [entry])
      refine ⟨entry :: others, ?_, ?_⟩
      · rw [hmoved]
        exact List.Forall₂.cons ⟨_, _, hentry⟩ hwritten
      · rw [record, if_neg hsame, if_pos rfl, ← hentry]
        dsimp only
        rw [hrecord, hmoved, List.append_assoc]
        rfl

theorem moved_eq_nil_iff :
    moved latest checks = [] ↔ ∀ check ∈ checks, latest check.name = some (reading check) := by
  simp [moved, List.filter_eq_nil_iff]

theorem Settles.moved_eq_nil (h : Settles kept latest checks) :
    moved (latest.insertAll ((moved latest checks).map (written kept))) checks = [] := by
  rw [moved_eq_nil_iff]
  intro check hcheck
  -- what is written under the check's name is its own reading
  have hagree : ∀ entry ∈ (moved latest checks).map (written kept), entry.1 = check.name →
      entry.2 = reading check := by
    intro entry hentry hname
    obtain ⟨other, hother, rfl⟩ := List.mem_map.mp hentry
    obtain ⟨hother, hmoved⟩ := mem_moved_iff.mp hother
    rw [h.unaltered other hother hmoved] at hname ⊢
    exact h.unambiguous other hother check hcheck hname
  by_cases hsame : latest check.name = some (reading check)
  · by_cases hkey : ∃ entry ∈ (moved latest checks).map (written kept), entry.1 = check.name
    · exact Memo.insertAll_of_agree hkey hagree
    · rw [Memo.insertAll_of_forall_ne fun entry hentry hname => hkey ⟨entry, hentry, hname⟩]
      exact hsame
  · refine Memo.insertAll_of_agree ⟨written kept check, ?_, ?_⟩ hagree
    · exact List.mem_map_of_mem (mem_moved_iff.mpr ⟨hcheck, hsame⟩)
    · rw [h.unaltered check hcheck hsame]

theorem written_of_written (hkept : ∀ text, kept (kept text) = kept text) {other : Check}
    (h : written kept other = (check.name, reading check)) :
    written kept check = (check.name, reading check) := by
  simp only [written, reading, Prod.mk.injEq, CheckReading.mk.injEq] at h ⊢
  obtain ⟨hname, hstatus, hconclusion, hstarted⟩ := h
  have hmap : ∀ text : Option Text, (text.map kept).map kept = text.map kept := by
    intro text
    rw [Option.map_map]
    congr 1
    funext text
    exact hkept text
  refine ⟨?_, ?_, ?_, ?_⟩
  · rw [← hname, hkept]
  · rw [← hstatus, hkept]
  · rw [← hconclusion, hmap]
  · rw [← hstarted, hmap]

/-- Where nothing is left that moved, the read settles: a text that was kept is kept as it is. -/
theorem settles_of_moved_eq_nil (hkept : ∀ text, kept (kept text) = kept text)
    (h : moved (latest.insertAll ((moved latest checks).map (written kept))) checks = []) :
    Settles kept latest checks := by
  rw [moved_eq_nil_iff] at h
  have hunambiguous : ∀ check ∈ checks, ∀ other ∈ checks, check.name = other.name →
      reading check = reading other := by
    intro check hcheck other hother hname
    have hboth := (h check hcheck).symm.trans (hname ▸ h other hother)
    exact Option.some.inj hboth
  refine ⟨hunambiguous, fun check hcheck hmoved => ?_⟩
  by_cases hkey : ∃ entry ∈ (moved latest checks).map (written kept), entry.1 = check.name
  · -- the newest record under the name is the check's own reading, and what is kept stays so
    obtain ⟨value, hvalue, hheld⟩ := Memo.exists_insertAll latest hkey
    obtain rfl := Option.some.inj ((h check hcheck).symm.trans hheld)
    obtain ⟨other, -, hother⟩ := List.mem_map.mp hvalue
    exact written_of_written hkept hother
  · have hheld := h check hcheck
    rw [Memo.insertAll_of_forall_ne fun entry hentry hname => hkey ⟨entry, hentry, hname⟩] at hheld
    exact absurd hheld hmoved

variable {sink : Sink} {files : Files ν} {followed : Followed}

theorem recordFollowed_of_not (lands : ℕ → Bool)
    (h : ∀ token latest, ¬ RecordedOn sink files followed token latest) :
    recordFollowed kept number sink lands files followed = (0, files) := by
  unfold recordFollowed
  split
  · rfl
  · next hcurrent =>
    rw [Bool.or_eq_true, not_or, Bool.not_eq_true] at hcurrent
    split
    · rfl
    · rfl
    · next token hopened =>
      split
      · rfl
      · next latest hread =>
        split
        · rfl
        · next hwritable =>
          rw [Bool.not_eq_true, Bool.not_eq_false'] at hwritable
          exact absurd ⟨hcurrent.1, hopened, hwritable, hread⟩ (h token latest)

variable (kept number) in
theorem exists_recordFollowed (h : RecordedOn sink files followed token latest) :
    ∃ others, Written kept token (moved latest followed.checks) others ∧
      recordFollowed kept number sink (fun _ => true) files followed =
        ((moved latest followed.checks).length,
          if moved latest followed.checks = [] then files
          else Function.update files token (some ((files token).getD [] ++ others))) := by
  obtain ⟨others, hwritten, hrecord⟩ := exists_record kept number token latest 0
    ((files token).getD []) followed.checks
  refine ⟨others, hwritten, ?_⟩
  unfold recordFollowed
  by_cases hnone : followed.checks = []
  · have hmoved : moved latest followed.checks = [] := by
      rw [hnone]
      rfl
    rw [if_pos (by simp [hnone]), hmoved, if_pos rfl]
    rfl
  · have hchecked : (followed.superseded || followed.checks.isEmpty) = false := by
      rw [h.current, Bool.false_or, List.isEmpty_eq_false_iff]
      exact hnone
    rw [hchecked, if_neg Bool.false_ne_true, h.opened]
    dsimp only
    rw [h.read]
    dsimp only
    rw [h.writable, Bool.not_true, if_neg Bool.false_ne_true, hrecord]
    cases hmoved : moved latest followed.checks with
    | nil => rfl
    | cons first rest => rfl

theorem recordedOnce_iff (h : RecordedOn sink files followed token latest) :
    RecordedOnce kept number sink files followed ↔
      moved (latest.insertAll ((moved latest followed.checks).map (written kept)))
        followed.checks = [] := by
  obtain ⟨others, hwritten, hfirst⟩ := exists_recordFollowed kept number h
  rw [RecordedOnce, hfirst]
  by_cases hmoved : moved latest followed.checks = []
  · rw [hmoved, if_pos rfl] at hfirst ⊢
    exact iff_of_true hfirst hmoved
  · rw [if_neg hmoved]
    -- the second call reads back what the first one wrote
    have hagain : RecordedOn sink
        (Function.update files token (some ((files token).getD [] ++ others))) followed token
        (latest.insertAll ((moved latest followed.checks).map (written kept))) := by
      refine ⟨h.current, h.opened, h.writable, ?_⟩
      rw [Function.update_self]
      exact latestChecks_append h.read hwritten
    obtain ⟨_, -, hsecond⟩ := exists_recordFollowed kept number hagain
    dsimp only
    rw [hsecond]
    constructor
    · intro heq
      exact List.length_eq_zero_iff.mp (Prod.mk.inj heq).1
    · intro hnil
      rw [hnil, if_pos rfl]
      rfl

/-- A read is recorded once where it settles; and only there, where what was kept of a text is kept
as it is. -/
theorem recorded_once_iff (kept : Text → Text) (number : Records ν → ℕ) (sink : Sink)
    (files : Files ν) (followed : Followed) :
    (SettlesOn kept sink files followed → RecordedOnce kept number sink files followed) ∧
      ((∀ text, kept (kept text) = kept text) →
        RecordedOnce kept number sink files followed → SettlesOn kept sink files followed) := by
  constructor
  · intro hsettles
    by_cases hrecorded : ∃ token latest, RecordedOn sink files followed token latest
    · obtain ⟨token, latest, h⟩ := hrecorded
      exact (recordedOnce_iff h).mpr (hsettles token latest h).moved_eq_nil
    · simp only [not_exists] at hrecorded
      simp only [RecordedOnce, recordFollowed_of_not _ hrecorded]
  · intro hkept honce token latest h
    exact settles_of_moved_eq_nil hkept ((recordedOnce_iff h).mp honce)

end Stream

/-- The check of a build, at a status. -/
def build (status : Text) : Check := ⟨"build".toList, status, none, true, none, none⟩

/-- A stream whose session opened the change, with nothing on it yet. -/
def newlyOpened : Sink := ⟨.ok (some "session"), true⟩

/-- The texts of short payloads are kept as they are, and the records numbered as they come. -/
def numbered (records : Records Unit) : ℕ := records.length + 1

/-- One check of a name is recorded once. -/
theorem build_recorded_once :
    RecordedOnce id numbered newlyOpened (fun _ => none) ⟨[build "queued".toList], false⟩ :=
  (recorded_once_iff id numbered newlyOpened (fun _ => none) ⟨[build "queued".toList], false⟩).1
    fun _ _ _ => {
      unambiguous := by simp
      unaltered := by simp [written, reading, build] }

/-- A build that is queued again is answered as two checks of one name, and each read of them is
recorded. -/
theorem rerun_recorded_again :
    ¬ RecordedOnce id numbered newlyOpened (fun _ => none)
      ⟨[build "queued".toList, build "completed".toList], false⟩ := by
  intro h
  exact absurd (congrArg Prod.fst h) (by decide +kernel)

end Onevcs.Standings
