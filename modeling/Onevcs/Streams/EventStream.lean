import Mathlib.Data.List.Lemmas
import Onevcs.Foundations.Outcome
import Onevcs.Streams.Vocabulary

/-!
# Reading a session's events

`Reader::records`, `EventStream::read` and `Correlated::fresh` of `stream.rs`.

A stream file is the list of its whole records, each the envelope the bus reader found in
it or why it found none; a line no newline has ended is not among them. The reader's byte
position is the end of the last whole record it handed back, so both it and the count of
records are one number here. The bus's filter is a predicate on envelopes. What a read
meets outside the two files, the landing of the session among it, is an argument.
-/

namespace Onevcs.Streams

open Foundations (bind_eq_ok)

variable {ν δ : Type}

/-- One whole line of a stream, as the bus reader finds it. -/
abbrev Entry (ν δ : Type) := Except String (Envelope ν δ)

/-- Why a read is refused, with what the refusal names. -/
inductive Refusal
  | unread (why : String)
  | notAnEnvelope (line : Nat) (why : String)
  | ofStream (line : Nat) (stream : String)
  | invalidSignificance
  | releasesUnread (identity why : String)
  | releaseNotAnEnvelope (line : Nat) (identity why : String)
  | releaseOfStream (line : Nat) (identity : String)
  | releaseUnknown (line : Nat) (identity kind : String)
  | noLandingCommit (line : Nat) (identity : String)
  deriving DecidableEq

/-! ## The records of the session -/

/-- `attribute`: a line that is not an envelope, and one of another stream, are refused. -/
def attributeLine (read : Except String (Line ν δ)) (session : String) (number : Nat) :
    Except Refusal (Line ν δ) :=
  match read with
  | .error why => .error (.notAnEnvelope number why)
  | .ok line => if line.stream ≠ session then .error (.ofStream number line.stream) else .ok line

/-- `attributed_record`, of the entry and the number of a record. -/
def attributedRecord (entry : Entry ν δ) (number : Nat) (session : String) :
    Except Refusal (Line ν δ) :=
  attributeLine (entry.map Line.of) session number

/-- The part of `EventStream` the events of the session are judged by. -/
structure Reading (ν δ : Type) where
  session : String
  filter : Envelope ν δ → Bool
  phases : List Phase

namespace Reading

variable (reading : Reading ν δ)

/-- The envelope a filter is asked about: one without a stamp is taken for progress. -/
def matching (envelope : Envelope ν δ) : Except Refusal (Envelope ν δ) :=
  match envelope.significance with
  | none => .ok { envelope with significance := some (.string "progress") }
  | some stamp =>
    match Significance.fromValue stamp with
    | none => .error .invalidSignificance
    | some _ => .ok envelope

/-- One turn of the loop of `EventStream::read`: the record is refused, handed on or
passed over. -/
def judge (entry : Entry ν δ) (number : Nat) : Except Refusal (Option (Envelope ν δ)) :=
  match attributedRecord entry number reading.session with
  | .error refusal => .error refusal
  | .ok (.unknown ..) => .ok none
  | .ok (.known _ envelope) =>
    match matching envelope with
    | .error refusal => .error refusal
    | .ok matched =>
      if reading.filter matched && envelope.phase.any (· ∈ reading.phases)
      then .ok (some envelope) else .ok none

/-- The loop of `EventStream::read`, over the records of one batch with their numbers. -/
def judgeAll : List (Entry ν δ × Nat) → Except Refusal (List (Envelope ν δ))
  | [] => .ok []
  | (entry, number) :: rest => do
    let answer ← reading.judge entry number
    let events ← judgeAll rest
    pure (answer.toList ++ events)

/-- A record the loop goes past, whichever line it is. -/
def passes (entry : Entry ν δ) : Bool := (reading.judge entry 0).isOk

/-- The event a record is handed on as, whichever line it is. -/
def admits (entry : Entry ν δ) : Option (Envelope ν δ) := (reading.judge entry 0).toOption.join

variable {reading}

theorem judge_eq_ok_iff (entry : Entry ν δ) (number : Nat) (answer : Option (Envelope ν δ)) :
    reading.judge entry number = .ok answer ↔ reading.judge entry 0 = .ok answer := by
  cases entry with
  | error why => simp [judge, attributedRecord, attributeLine, Except.map]
  | ok envelope =>
    simp only [judge, attributedRecord, attributeLine, Except.map, Line.stream_of]
    by_cases hstream : envelope.stream = reading.session
    · simp only [hstream, ne_eq, not_true, if_false]
    · simp [hstream]

theorem passes_iff {entry : Entry ν δ} (number : Nat) :
    reading.passes entry = true ↔ ∃ answer, reading.judge entry number = .ok answer := by
  simp only [judge_eq_ok_iff entry number]
  unfold passes
  cases reading.judge entry 0 with
  | error refusal => simp [Except.isOk, Except.toBool]
  | ok answer => simp [Except.isOk, Except.toBool]

theorem admits_of_judge {entry : Entry ν δ} {number : Nat} {answer : Option (Envelope ν δ)}
    (h : reading.judge entry number = .ok answer) : reading.admits entry = answer := by
  rw [admits, (judge_eq_ok_iff entry number answer).mp h]
  rfl

theorem judgeAll_ok {entries : List (Entry ν δ)} {first : Nat} {events : List (Envelope ν δ)}
    (h : reading.judgeAll (entries.zipIdx first) = .ok events) :
    events = entries.filterMap reading.admits := by
  induction entries generalizing first events with
  | nil => exact (Except.ok.inj h).symm
  | cons entry entries ih =>
    rw [List.zipIdx_cons] at h
    obtain ⟨answer, hjudge, h⟩ := bind_eq_ok.mp h
    obtain ⟨rest, hrest, h⟩ := bind_eq_ok.mp h
    obtain rfl := Except.ok.inj h
    rw [ih hrest, List.filterMap_cons, admits_of_judge hjudge]
    cases answer <;> rfl

theorem judgeAll_isOk_iff {entries : List (Entry ν δ)} (first : Nat) :
    (∃ events, reading.judgeAll (entries.zipIdx first) = .ok events) ↔
      entries.all reading.passes = true := by
  induction entries generalizing first with
  | nil => simp [judgeAll]
  | cons entry entries ih =>
    rw [List.zipIdx_cons, List.all_cons, Bool.and_eq_true, passes_iff first,
      ← ih (first + 1)]
    constructor
    · rintro ⟨events, h⟩
      obtain ⟨answer, hjudge, h⟩ := bind_eq_ok.mp h
      obtain ⟨rest, hrest, h⟩ := bind_eq_ok.mp h
      exact ⟨⟨answer, hjudge⟩, ⟨rest, hrest⟩⟩
    · rintro ⟨⟨answer, hjudge⟩, ⟨rest, hrest⟩⟩
      exact ⟨answer.toList ++ rest,
        bind_eq_ok.mpr ⟨answer, hjudge, bind_eq_ok.mpr ⟨rest, hrest, rfl⟩⟩⟩

end Reading

/-! ## The releases of the identity -/

/-- How the release record opens. -/
inductive Opening
  | opened
  | notFound
  | failed (why : String)
  deriving DecidableEq

structure Correlated where
  identity : String
  token : String
  landing : Option ObjectId
  handed : List Nat

/-- The commit a release names: `landing_commit`, where it is a complete object id. -/
def Envelope.names (envelope : Envelope ν δ) : Option ObjectId :=
  (envelope.landingCommit.bind Value.asStr).bind ObjectId.parse

/-- A kind that says a release carried a landing; a probe is not one. -/
def EventKind.isRelease : EventKind → Bool
  | .releaseObserved | .releaseAcknowledged => true
  | _ => false

namespace Correlated

def attributed (correlated : Correlated) (entry : Entry ν δ) (number : Nat) :
    Except Refusal (EventKind × Envelope ν δ) :=
  match entry with
  | .error why => .error (.releaseNotAnEnvelope number correlated.identity why)
  | .ok envelope =>
    if envelope.stream ≠ correlated.token then
      .error (.releaseOfStream number correlated.identity)
    else
      match Line.of envelope with
      | .known kind envelope => .ok (kind, envelope)
      | .unknown _ kind => .error (.releaseUnknown number correlated.identity kind)

/-- The first loop of `Correlated::fresh`: every line is attributed, and the releases not
accounted for yet are gathered with their lines. -/
def candidates (correlated : Correlated) :
    List (Entry ν δ × Nat) → Except Refusal (List (Envelope ν δ × Nat))
  | [] => .ok []
  | (entry, number) :: rest => do
    let known ← correlated.attributed entry number
    let gathered ← candidates correlated rest
    if known.1.isRelease && known.2.seq ∉ correlated.handed
    then pure ((known.2, number) :: gathered) else pure gathered

/-- The second loop of `Correlated::fresh`: the releases of the landing are accounted for
one by one, and handed back where the filter matches them. -/
def hand (filter : Envelope ν δ → Bool) (landing : ObjectId) :
    List (Envelope ν δ × Nat) → Correlated → Except Refusal (List (Envelope ν δ)) × Correlated
  | [], correlated => (.ok [], correlated)
  | (envelope, number) :: rest, correlated =>
    match envelope.names with
    | none => (.error (.noLandingCommit number correlated.identity), correlated)
    | some named =>
      if named ≠ landing then hand filter landing rest correlated
      else
        let (answer, after) := hand filter landing rest
          { correlated with handed := envelope.seq :: correlated.handed }
        (answer.map fun fresh => if filter envelope then envelope :: fresh else fresh, after)

/-- `Correlated::fresh`, over the lines of the release record, with what `landed_at`
answers where it is asked. -/
def fresh (correlated : Correlated) (filter : Envelope ν δ → Bool) (opening : Opening)
    (lines : List (Entry ν δ)) (landedAt : Option ObjectId) :
    Except Refusal (List (Envelope ν δ)) × Correlated :=
  match opening with
  | .notFound => (.ok [], correlated)
  | .failed why => (.error (.releasesUnread correlated.identity why), correlated)
  | .opened =>
    match correlated.candidates (lines.zipIdx 1) with
    | .error refusal => (.error refusal, correlated)
    | .ok [] => (.ok [], correlated)
    | .ok (first :: rest) =>
      match correlated.landing.or landedAt with
      | none => (.ok [], correlated)
      | some landing =>
        hand filter landing (first :: rest) { correlated with landing := some landing }

/-- The release a line of the record of `token` holds. -/
def release (token : String) : Entry ν δ → Option (Envelope ν δ)
  | .error _ => none
  | .ok envelope =>
    if envelope.stream ≠ token then none
    else
      match Line.of envelope with
      | .known kind envelope => if kind.isRelease then some envelope else none
      | .unknown .. => none

/-- A line of the record of `token` the first loop goes past. -/
def attributable (token : String) : Entry ν δ → Bool
  | .error _ => false
  | .ok envelope => envelope.stream = token && (EventKind.named envelope.kind).isSome

/-- The releases the record of `token` holds. -/
def releases (token : String) (lines : List (Entry ν δ)) : List (Envelope ν δ) :=
  lines.filterMap (release token)

/-- The releases of the record that are not accounted for. -/
def pending (correlated : Correlated) (lines : List (Entry ν δ)) : List (Envelope ν δ) :=
  (releases correlated.token lines).filter fun e => e.seq ∉ correlated.handed

/-- No release of the landing comes before the first that names no commit. -/
def handsNone (landing : ObjectId) : List (Envelope ν δ) → Bool
  | [] => true
  | envelope :: rest =>
    match envelope.names with
    | none => true
    | some named => named ≠ landing && handsNone landing rest

variable {correlated after : Correlated} {filter : Envelope ν δ → Bool} {landing : ObjectId}
  {lines : List (Entry ν δ)} {number : Nat} {entry : Entry ν δ}

theorem attributed_ok {known : EventKind × Envelope ν δ}
    (h : correlated.attributed entry number = .ok known) :
    attributable correlated.token entry = true ∧
      release correlated.token entry = if known.1.isRelease then some known.2 else none := by
  cases entry with
  | error why => cases h
  | ok envelope =>
    by_cases hstream : envelope.stream = correlated.token
    · simp only [attributed, release, attributable, Line.of, hstream, ne_eq, not_true,
        if_false, decide_true, Bool.true_and] at h ⊢
      cases hkind : EventKind.named envelope.kind with
      | none => simp [hkind] at h
      | some kind =>
        simp only [hkind] at h ⊢
        obtain rfl := Except.ok.inj h
        exact ⟨rfl, rfl⟩
    · simp [attributed, hstream] at h

theorem attributable_iff (number : Nat) :
    attributable correlated.token entry = true ↔
      ∃ known, correlated.attributed entry number = .ok known := by
  constructor
  · intro h
    cases entry with
    | error why => cases h
    | ok envelope =>
      obtain ⟨hstream, hkind⟩ := Bool.and_eq_true_iff.mp h
      obtain ⟨kind, hkind⟩ := Option.isSome_iff_exists.mp hkind
      have hstream := of_decide_eq_true hstream
      simp [attributed, hstream, Line.of, hkind]
  · rintro ⟨known, h⟩
    exact (attributed_ok h).1

theorem candidates_ok {first : Nat} {gathered : List (Envelope ν δ × Nat)}
    (h : correlated.candidates (lines.zipIdx first) = .ok gathered) :
    gathered.map Prod.fst = correlated.pending lines := by
  induction lines generalizing first gathered with
  | nil =>
    obtain rfl := Except.ok.inj h
    rfl
  | cons entry lines ih =>
    rw [List.zipIdx_cons] at h
    obtain ⟨known, hknown, h⟩ := bind_eq_ok.mp h
    obtain ⟨rest, hrest, h⟩ := bind_eq_ok.mp h
    have hline := (attributed_ok hknown).2
    have ih := ih hrest
    simp only [pending, releases, List.filterMap_cons, hline] at ih ⊢
    by_cases hkind : known.1.isRelease = true
    · by_cases hseq : known.2.seq ∈ correlated.handed
      · simp only [hkind, hseq, not_true, decide_false, Bool.and_false, Bool.false_eq_true,
          if_false] at h
        obtain rfl := Except.ok.inj h
        simp [hkind, hseq, ih]
      · simp only [hkind, hseq, not_false_iff, decide_true, Bool.and_true, if_true] at h
        obtain rfl := Except.ok.inj h
        simp [hkind, hseq, ih]
    · simp only [hkind, Bool.false_and, Bool.false_eq_true, if_false] at h
      obtain rfl := Except.ok.inj h
      simp [hkind, ih]

theorem candidates_isOk_iff (first : Nat) :
    (∃ gathered, correlated.candidates (lines.zipIdx first) = .ok gathered) ↔
      lines.all (attributable correlated.token) = true := by
  induction lines generalizing first with
  | nil => simp [candidates]
  | cons entry lines ih =>
    rw [List.zipIdx_cons, List.all_cons, Bool.and_eq_true, attributable_iff first,
      ← ih (first + 1)]
    constructor
    · rintro ⟨gathered, h⟩
      obtain ⟨known, hknown, h⟩ := bind_eq_ok.mp h
      obtain ⟨rest, hrest, h⟩ := bind_eq_ok.mp h
      exact ⟨⟨known, hknown⟩, ⟨rest, hrest⟩⟩
    · rintro ⟨⟨known, hknown⟩, ⟨rest, hrest⟩⟩
      refine ⟨if known.1.isRelease && known.2.seq ∉ correlated.handed
        then (known.2, first) :: rest else rest,
        bind_eq_ok.mpr ⟨known, hknown, bind_eq_ok.mpr ⟨rest, hrest, ?_⟩⟩⟩
      split <;> rfl

/-- A correlation that succeeds hands back the releases of the landing that the filter
matches, and has accounted for every release of the landing and nothing else. -/
theorem hand_ok {gathered : List (Envelope ν δ × Nat)} {events : List (Envelope ν δ)}
    (h : hand filter landing gathered correlated = (.ok events, after)) :
    events = (gathered.map Prod.fst).filter (fun e => e.names = some landing && filter e) ∧
      after.identity = correlated.identity ∧ after.token = correlated.token ∧
      after.landing = correlated.landing ∧
      ∀ n, n ∈ after.handed ↔ n ∈ correlated.handed ∨
        ∃ e ∈ gathered.map Prod.fst, e.names = some landing ∧ e.seq = n := by
  induction gathered generalizing correlated events with
  | nil =>
    obtain ⟨heq, rfl⟩ := Prod.mk.inj h
    obtain rfl := Except.ok.inj heq
    simp
  | cons candidate gathered ih =>
    obtain ⟨envelope, number⟩ := candidate
    unfold hand at h
    cases hnames : envelope.names with
    | none =>
      simp only [hnames] at h
      cases (Prod.mk.inj h).1
    | some named =>
      simp only [hnames] at h
      by_cases hsame : named = landing
      · subst hsame
        simp only [ne_eq, not_true, if_false] at h
        cases hrest : hand filter named gathered
            { correlated with handed := envelope.seq :: correlated.handed } with
        | mk answer after' =>
          rw [hrest] at h
          obtain ⟨hanswer, rfl⟩ := Prod.mk.inj h
          cases answer with
          | error refusal => cases hanswer
          | ok fresh =>
            obtain ⟨rfl, hidentity, htoken, hlanding, hhanded⟩ := ih hrest
            refine ⟨?_, hidentity, htoken, hlanding, fun n => ?_⟩
            · rw [← Except.ok.inj hanswer]
              by_cases hfilter : filter envelope = true <;> simp [hnames, hfilter]
            · rw [hhanded]
              simp [hnames]
              constructor <;> rintro (h | h) <;> grind
      · simp only [ne_eq, hsame, not_false_iff, if_true] at h
        obtain ⟨rfl, hidentity, htoken, hlanding, hhanded⟩ := ih h
        refine ⟨?_, hidentity, htoken, hlanding, fun n => ?_⟩
        · simp [hnames, hsame]
        · rw [hhanded]
          simp [hnames, hsame]

/-- A correlation that fails has accounted for nothing where no release of the landing
comes before the one it fails on. -/
theorem hand_of_handsNone {gathered : List (Envelope ν δ × Nat)} {refusal : Refusal}
    (hnone : handsNone landing (gathered.map Prod.fst) = true)
    (h : hand filter landing gathered correlated = (.error refusal, after)) :
    after = correlated := by
  induction gathered with
  | nil => cases (Prod.mk.inj h).1
  | cons candidate gathered ih =>
    obtain ⟨envelope, number⟩ := candidate
    unfold hand at h
    cases hnames : envelope.names with
    | none =>
      simp only [hnames] at h
      exact (Prod.mk.inj h).2.symm
    | some named =>
      simp only [List.map_cons, handsNone, hnames, Bool.and_eq_true,
        decide_eq_true_eq] at hnone
      simp only [hnames, if_pos hnone.1] at h
      exact ih hnone.2 h

theorem hand_isOk (correlated : Correlated) {gathered : List (Envelope ν δ × Nat)}
    (h : (gathered.map Prod.fst).all (fun e => e.names.isSome) = true) :
    ∃ events after, hand filter landing gathered correlated = (.ok events, after) := by
  induction gathered generalizing correlated with
  | nil => exact ⟨[], correlated, rfl⟩
  | cons candidate gathered ih =>
    obtain ⟨envelope, number⟩ := candidate
    rw [List.map_cons, List.all_cons, Bool.and_eq_true] at h
    obtain ⟨named, hnames⟩ := Option.isSome_iff_exists.mp h.1
    unfold hand
    simp only [hnames]
    split
    · exact ih correlated h.2
    · obtain ⟨events, after, hrest⟩ :=
        ih { correlated with handed := envelope.seq :: correlated.handed } h.2
      rw [hrest]
      exact ⟨_, after, rfl⟩

/-- What a read that succeeds makes of the release record: it was not asked, or nothing is
pending, or the landing is not known; or the pending releases of the landing are handed
back and accounted for. -/
theorem fresh_ok {opening : Opening} {landedAt : Option ObjectId} {events : List (Envelope ν δ)}
    (h : correlated.fresh filter opening lines landedAt = (.ok events, after)) :
    (after = correlated ∧ events = [] ∧
        (opening = .opened → correlated.landing.isSome → correlated.pending lines = [])) ∨
      ∃ landing, correlated.landing.or landedAt = some landing ∧
        after.token = correlated.token ∧ after.landing = some landing ∧
        events = (correlated.pending lines).filter
          (fun e => e.names = some landing && filter e) ∧
        ∀ n, n ∈ after.handed ↔ n ∈ correlated.handed ∨
          ∃ e ∈ correlated.pending lines, e.names = some landing ∧ e.seq = n := by
  unfold fresh at h
  split at h
  · obtain ⟨hevents, hafter⟩ := Prod.mk.inj h
    exact Or.inl ⟨hafter.symm, (Except.ok.inj hevents).symm, by rintro ⟨⟩⟩
  · cases (Prod.mk.inj h).1
  · split at h
    · cases (Prod.mk.inj h).1
    · next hnone =>
      obtain ⟨hevents, hafter⟩ := Prod.mk.inj h
      exact Or.inl ⟨hafter.symm, (Except.ok.inj hevents).symm,
        fun _ _ => (candidates_ok hnone).symm⟩
    · next first rest hsome =>
      split at h
      · next hlanding =>
        obtain ⟨hevents, hafter⟩ := Prod.mk.inj h
        refine Or.inl ⟨hafter.symm, (Except.ok.inj hevents).symm, fun _ hknown => ?_⟩
        obtain ⟨known, hknown⟩ := Option.isSome_iff_exists.mp hknown
        simp [hknown] at hlanding
      · next landing hlanding =>
        obtain ⟨hevents, -, htoken, hafter, hhanded⟩ := hand_ok h
        rw [candidates_ok hsome] at hevents hhanded
        exact Or.inr ⟨landing, hlanding, htoken, hafter, hevents, hhanded⟩

/-- The correlation of a read goes through. -/
def correlates (correlated : Correlated) (opening : Opening) (lines : List (Entry ν δ))
    (landedAt : Option ObjectId) : Bool :=
  match opening with
  | .notFound => true
  | .failed _ => false
  | .opened =>
    lines.all (attributable correlated.token) &&
      ((correlated.landing.or landedAt).isNone ||
        (correlated.pending lines).all fun e => e.names.isSome)

/-- A correlation that fails has accounted for nothing by then. -/
def spares (correlated : Correlated) (opening : Opening) (lines : List (Entry ν δ))
    (landedAt : Option ObjectId) : Bool :=
  match opening with
  | .notFound | .failed _ => true
  | .opened =>
    !lines.all (attributable correlated.token) ||
      (correlated.landing.or landedAt).all fun landing =>
        handsNone landing (correlated.pending lines)

theorem fresh_isOk (filter : Envelope ν δ → Bool) {opening : Opening} {landedAt : Option ObjectId}
    (h : correlated.correlates opening lines landedAt = true) :
    ∃ events after, correlated.fresh filter opening lines landedAt = (.ok events, after) := by
  unfold fresh
  cases opening with
  | notFound => exact ⟨[], correlated, rfl⟩
  | failed why => cases h
  | opened =>
    obtain ⟨hlines, hnames⟩ := Bool.and_eq_true_iff.mp h
    obtain ⟨gathered, hgathered⟩ := (candidates_isOk_iff 1).mpr hlines
    have hpending := candidates_ok hgathered
    simp only [hgathered]
    cases gathered with
    | nil => exact ⟨[], correlated, rfl⟩
    | cons first rest =>
      cases hlanding : correlated.landing.or landedAt with
      | none => exact ⟨[], correlated, rfl⟩
      | some landing =>
        rw [hlanding, Option.isNone_some, Bool.false_or, ← hpending] at hnames
        exact hand_isOk _ hnames

/-- A correlation that fails leaves what is accounted for where it spares it; it may have
learned the landing. -/
theorem fresh_error {opening : Opening} {landedAt : Option ObjectId} {refusal : Refusal}
    (hspares : correlated.spares opening lines landedAt = true)
    (h : correlated.fresh filter opening lines landedAt = (.error refusal, after)) :
    after = correlated ∨ ∃ landing, correlated.landing.or landedAt = some landing ∧
      after = { correlated with landing := some landing } := by
  unfold fresh at h
  split at h
  · cases (Prod.mk.inj h).1
  · exact Or.inl (Prod.mk.inj h).2.symm
  · split at h
    · exact Or.inl (Prod.mk.inj h).2.symm
    · cases (Prod.mk.inj h).1
    · next first rest hsome =>
      split at h
      · cases (Prod.mk.inj h).1
      · next landing hlanding =>
        have hlines := (candidates_isOk_iff 1).mp ⟨_, hsome⟩
        simp only [spares, hlines, Bool.not_true, Bool.false_or, hlanding,
          Option.all_some, ← candidates_ok hsome] at hspares
        exact Or.inr ⟨landing, hlanding, hand_of_handsNone hspares h⟩

end Correlated

structure EventStream (ν δ : Type) extends Reading ν δ where
  position : Nat
  releases : Option Correlated

/-- What a read meets beside the records: whether each file can be read, and what
`landed_at` answers. -/
structure Sight where
  own : Option String
  releases : Opening
  landed : Option ObjectId

namespace EventStream

/-- The records a read finds new. -/
def batch (stream : EventStream ν δ) (own : List (Entry ν δ)) : List (Entry ν δ) :=
  own.drop stream.position

/-- `EventStream::read`, over the whole records of the two files. -/
def read (stream : EventStream ν δ) (own releases : List (Entry ν δ)) (sight : Sight) :
    Except Refusal (List (Envelope ν δ)) × EventStream ν δ :=
  match sight.own with
  | some why => (.error (.unread why), stream)
  | none =>
    -- `Reader::records` has moved past the batch before any of it is judged.
    let past := { stream with position := stream.position + (stream.batch own).length }
    match stream.judgeAll ((stream.batch own).zipIdx (stream.position + 1)) with
    | .error refusal => (.error refusal, past)
    | .ok events =>
      match stream.releases with
      | none => (.ok events, past)
      | some correlated =>
        let (answer, after) :=
          correlated.fresh stream.filter sight.releases releases sight.landed
        (answer.map fun fresh => events ++ fresh, { past with releases := some after })

/-- A read that fails once it has moved past a record, or accounted for a release. -/
def loses (stream : EventStream ν δ) (own releases : List (Entry ν δ)) (sight : Sight) : Bool :=
  sight.own.isNone &&
    !((stream.batch own).all stream.passes &&
        stream.releases.all (·.correlates sight.releases releases sight.landed)) &&
    !((stream.batch own).isEmpty &&
        stream.releases.all (·.spares sight.releases releases sight.landed))

variable {stream after : EventStream ν δ} {own releases : List (Entry ν δ)} {sight : Sight}

/-- A read that succeeds hands back what is admitted of its batch, and what the
correlation makes of the release record. -/
theorem read_ok {events : List (Envelope ν δ)}
    (h : stream.read own releases sight = (.ok events, after)) :
    after.toReading = stream.toReading ∧
      after.position = stream.position + (stream.batch own).length ∧
      ∃ fresh, events = (stream.batch own).filterMap stream.admits ++ fresh ∧
        ((stream.releases = none ∧ after.releases = none ∧ fresh = []) ∨
          ∃ correlated correlated', stream.releases = some correlated ∧
            after.releases = some correlated' ∧
            correlated.fresh stream.filter sight.releases releases sight.landed =
              (.ok fresh, correlated')) := by
  unfold read at h
  split at h
  · cases (Prod.mk.inj h).1
  · split at h
    · cases (Prod.mk.inj h).1
    · next judged hjudged =>
      obtain rfl := Reading.judgeAll_ok hjudged
      cases hreleases : stream.releases with
      | none =>
        simp only [hreleases] at h
        obtain ⟨hevents, rfl⟩ := Prod.mk.inj h
        exact ⟨rfl, rfl, [], by rw [List.append_nil, Except.ok.inj hevents],
          Or.inl ⟨rfl, rfl, rfl⟩⟩
      | some correlated =>
        simp only [hreleases] at h
        cases hfresh : correlated.fresh stream.filter sight.releases releases sight.landed with
        | mk answer correlated' =>
          rw [hfresh] at h
          obtain ⟨hevents, rfl⟩ := Prod.mk.inj h
          cases answer with
          | error refusal => cases hevents
          | ok fresh =>
            exact ⟨rfl, rfl, fresh, (Except.ok.inj hevents).symm,
              Or.inr ⟨correlated, correlated', rfl, rfl, hfresh⟩⟩

/-- A read that fails and loses nothing leaves the reader where it was; it may have learned
the landing. -/
theorem read_error {refusal : Refusal} (hloses : stream.loses own releases sight = false)
    (h : stream.read own releases sight = (.error refusal, after)) :
    after = stream ∨ ∃ correlated landing, stream.releases = some correlated ∧
      correlated.landing.or sight.landed = some landing ∧
      after = { stream with releases := some { correlated with landing := some landing } } := by
  unfold read at h
  cases hown : sight.own with
  | some why =>
    simp only [hown] at h
    exact Or.inl (Prod.mk.inj h).2.symm
  | none =>
    simp only [hown] at h
    simp only [loses, hown, Option.isNone_none, Bool.true_and, Bool.and_eq_false_iff,
      Bool.not_eq_false', Bool.and_eq_true] at hloses
    have hstill : (stream.batch own).isEmpty = true →
        stream.position + (stream.batch own).length = stream.position := by
      intro hnil
      rw [List.isEmpty_iff.mp hnil, List.length_nil, Nat.add_zero]
    cases hjudged : stream.judgeAll ((stream.batch own).zipIdx (stream.position + 1)) with
    | error refused =>
      -- An empty batch has no record to be refused.
      have hnot : ¬ (stream.batch own).all stream.passes = true := by
        rw [← Reading.judgeAll_isOk_iff (stream.position + 1), hjudged]
        rintro ⟨events, hevents⟩
        cases hevents
      rcases hloses with ⟨hall, -⟩ | ⟨hnil, -⟩
      · exact absurd hall hnot
      · rw [List.isEmpty_iff.mp hnil] at hnot
        exact absurd List.all_nil hnot
    | ok events =>
      simp only [hjudged] at h
      cases hreleases : stream.releases with
      | none =>
        simp only [hreleases] at h
        cases (Prod.mk.inj h).1
      | some correlated =>
        simp only [hreleases, Option.all_some] at h hloses
        cases hfresh :
            correlated.fresh stream.filter sight.releases releases sight.landed with
        | mk answer correlated' =>
          rw [hfresh] at h
          obtain ⟨hanswer, rfl⟩ := Prod.mk.inj h
          cases answer with
          | ok fresh => cases hanswer
          | error refused =>
            rcases hloses with ⟨-, hcorrelates⟩ | ⟨hnil, hspares⟩
            · obtain ⟨fresh, found, hok⟩ :=
                Correlated.fresh_isOk stream.filter hcorrelates
              rw [hok] at hfresh
              cases (Prod.mk.inj hfresh).1
            · simp only [hstill hnil]
              rcases Correlated.fresh_error hspares hfresh with
                rfl | ⟨landing, hlanding, rfl⟩
              · left
                rw [← hreleases]
              · exact Or.inr ⟨correlated, landing, rfl, hlanding, rfl⟩

end EventStream

end Onevcs.Streams
