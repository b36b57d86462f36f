import Mathlib
import Onevcs.Foundations.Transition

/-!
# Release status of a landing

`automated_status`, `capture_in`, `write_baseline`, `establish` and `observe` of
`release.rs`, for one automated target and one landing commit, as any number of processes
run them beside the target's own history of versions that are published and yanked.

A read of the release record takes no lock. Every write of it is an update: a re-read
under the record's lock, a change, and an atomic replacement, which is one step here. A
probe answers what is out at the moment it is asked, or fails; between it and the update
it leads to anything may happen. Reads and updates may fail.

A version is a string; `parse` is the semantic-version parser, and its values are ordered.
-/

namespace Onevcs.Release

open Foundations (System)

inductive Baseline
  | at (version : String)
  | noRelease
  deriving DecidableEq

inductive BaselineRecord
  | established (baseline : Baseline)
  | unestablished (reason attemptedAt : String)
  deriving DecidableEq

inductive ReleaseAnswer
  | released (version : String)
  | noRelease
  | notAnswered (reason : String)
  deriving DecidableEq

inductive ReleaseSource
  | probed
  | acknowledged
  deriving DecidableEq

/-- Which side of a comparison is not a version. -/
inductive Side
  | landing
  | current
  deriving DecidableEq

/-- Why a status is not answered: what stopped the probe, that no comparison would be
sound, or that a side of it is not a version. -/
inductive Reason
  | probe (reason : String)
  | unsound (version : Option String) (record : Option BaselineRecord)
  | unparseable (which : Side) (value : String)
  deriving DecidableEq

/-- `ReleaseStatus`, as an automated target has it. -/
inductive ReleaseStatus
  | released (version : String) (source : ReleaseSource)
  | notReleased (atLanding : Baseline) (now : String)
  | notAnswered (reason : Reason)
  deriving DecidableEq

inductive Comparison
  | greater
  | notGreater
  | unparseable (which : Side) (value : String)

section Answers

variable {V : Type} [LinearOrder V] (parse : String → Option V)

def carries (atLanding now : String) : Comparison :=
  match parse atLanding with
  | none => .unparseable .landing atLanding
  | some landing =>
    match parse now with
    | none => .unparseable .current now
    | some current => if landing < current then .greater else .notGreater

/-- What an answer leads to: a status, a release to be observed first, or a baseline to be
established first. -/
inductive Next
  | answer (status : ReleaseStatus)
  | release (version : String)
  | establish

/-- The end of `automated_status`, where there is a baseline. -/
def conclude (established : Baseline) : ReleaseAnswer → Next
  | .notAnswered reason => .answer (.notAnswered (.probe reason))
  | .noRelease => .answer (.notReleased established "")
  | .released now =>
    match established with
    | .noRelease => .release now
    | .at version =>
      match carries parse version now with
      | .unparseable which value => .answer (.notAnswered (.unparseable which value))
      | .greater => .release now
      | .notGreater => .answer (.notReleased established now)

/-- `automated_status`, from the baseline it read and the answer of its probe. -/
def decide (baseline : Option BaselineRecord) (answer : ReleaseAnswer) : Next :=
  match baseline with
  | some (.established established) => conclude parse established answer
  | other =>
    match answer with
    | .noRelease => .establish
    | .released version => .answer (.notAnswered (.unsound (some version) other))
    | .notAnswered _ => .answer (.notAnswered (.unsound none other))

/-- The record `capture_in` makes of an answer. -/
def recordOf (answer : ReleaseAnswer) (now : String) : BaselineRecord :=
  match answer with
  | .released version => .established (.at version)
  | .noRelease => .established .noRelease
  | .notAnswered reason => .unestablished reason now

/-- A release at this version carries what landed over this baseline. -/
def Passes (established : Baseline) (now : String) : Prop :=
  match established with
  | .noRelease => True
  | .at version => ∃ landing current, parse version = some landing ∧
      parse now = some current ∧ landing < current

variable {parse}

theorem carries_greater {atLanding now : String} (h : carries parse atLanding now = .greater) :
    ∃ landing current, parse atLanding = some landing ∧ parse now = some current ∧
      landing < current := by
  unfold carries at h
  cases hlanding : parse atLanding with
  | none => simp [hlanding] at h
  | some landing =>
    cases hcurrent : parse now with
    | none => simp [hlanding, hcurrent] at h
    | some current =>
      refine ⟨landing, current, rfl, rfl, ?_⟩
      by_contra hnot
      simp [hlanding, hcurrent, hnot] at h

theorem conclude_release {established : Baseline} {answer : ReleaseAnswer} {version : String}
    (h : conclude parse established answer = .release version) :
    answer = .released version ∧ Passes parse established version := by
  cases answer with
  | notAnswered reason => cases h
  | noRelease => cases h
  | released now =>
    cases established with
    | noRelease =>
      obtain rfl := Next.release.inj h
      exact ⟨rfl, trivial⟩
    | «at» atLanding =>
      simp only [conclude] at h
      cases hcarries : carries parse atLanding now with
      | unparseable which value => simp [hcarries] at h
      | notGreater => simp [hcarries] at h
      | greater =>
        simp only [hcarries] at h
        obtain rfl := Next.release.inj h
        exact ⟨rfl, carries_greater hcarries⟩

theorem decide_release {baseline : Option BaselineRecord} {answer : ReleaseAnswer}
    {version : String} (h : decide parse baseline answer = .release version) :
    ∃ established, baseline = some (.established established) ∧
      answer = .released version ∧ Passes parse established version := by
  unfold decide at h
  split at h
  · exact ⟨_, rfl, conclude_release h⟩
  · split at h <;> cases h

theorem decide_not_released (baseline : Option BaselineRecord) (answer : ReleaseAnswer)
    (version : String) : decide parse baseline answer ≠ .answer (.released version .probed) := by
  intro h
  unfold decide conclude at h
  split at h
  · split at h
    · cases h
    · cases h
    · split at h
      · cases h
      · split at h <;> cases h
  · split at h <;> cases h

theorem decide_notAnswered (baseline : Option BaselineRecord) (reason : String) :
    ∃ why, decide parse baseline (.notAnswered reason) = .answer (.notAnswered why) := by
  unfold decide
  split
  · exact ⟨_, rfl⟩
  · exact ⟨_, rfl⟩

end Answers

/-! ## The processes and the target's history -/

/-- What the record holds of the target at the landing. -/
structure Record where
  baseline : Option BaselineRecord
  acknowledged : Option String
  observed : Option String

/-- What a process was started for; a capture may have been told why no reading taken now
can stand for one at the landing. -/
inductive Call
  | status
  | capture (withheld : Option String)

/-- Where a process stands. -/
inductive Phase
  | idle
  -- a status: the baseline it read, and the probe about to be asked
  | asking (baseline : Option BaselineRecord)
  | establishing
  | observing (version : String)
  -- a capture: no baseline was recorded, and the probe is about to be asked
  | capturing
  | keeping (record : BaselineRecord)
  | done
  deriving DecidableEq

/-- The target when the change landed: the versions that were out, and those that had been
published by then. -/
structure Landing where
  out : List String
  published : List String

/-- The record, the versions that are out, and what each status that was answered said
beside what its probe had. -/
structure World (π : Type) where
  record : Record
  out : List String
  landing : Landing
  phase : π → Phase
  said : List (Option ReleaseAnswer × ReleaseStatus)

/-- What a process does next. -/
inductive Act
  | read (fails : Bool) (now : String)
  | ask (answer : ReleaseAnswer) (now : String)
  | update (fails : Bool)

/-- A process acts, a version is published or yanked, or somebody acknowledges a release. -/
inductive Label (π : Type)
  | act (p : π) (act : Act)
  | publish (version : String)
  | yank (version : String)
  | acknowledge (version : String)

/-- A probe that answers, answers what is out. -/
def Truthful (out : List String) : ReleaseAnswer → Bool
  | .released version => version ∈ out
  | .noRelease => out = []
  | .notAnswered _ => true

section Steps

variable {π V : Type} [DecidableEq π] [LinearOrder V] (parse : String → Option V) (call : π → Call)

namespace World

variable (s : World π)

/-- The process stands elsewhere. -/
def goto (p : π) (phase : Phase) : World π := { s with phase := Function.update s.phase p phase }

def say (p : π) (answer : Option ReleaseAnswer) (status : ReleaseStatus) : World π :=
  { s.goto p .done with said := s.said ++ [(answer, status)] }

/-- `establish`: whatever baseline is there by now, that nothing was released replaces it. -/
def establish (p : π) : World π :=
  { s.say p (some .noRelease) (.notReleased .noRelease "") with
    record := { s.record with baseline := some (.established .noRelease) } }

/-- The release that was found is observed, and reported. -/
def observe (p : π) (version : String) : World π :=
  { s.say p (some (.released version)) (.released version .probed) with
    record := { s.record with observed := s.record.observed.or (some version) } }

/-- `write_baseline`: a baseline that is there by now is left alone. -/
def writeBaseline (p : π) (record : BaselineRecord) : World π :=
  { s.goto p .done with
    record := { s.record with baseline := s.record.baseline.or (some record) } }

def act (p : π) (act : Act) : Option (World π) :=
  match s.phase p, act with
  | .idle, .read fails now =>
    if fails then some (s.goto p .done)
    else
      match call p with
      | .status =>
        match s.record.acknowledged with
        | some version => some (s.say p none (.released version .acknowledged))
        | none => some (s.goto p (.asking s.record.baseline))
      | .capture withheld =>
        if s.record.baseline.isSome then some (s.goto p .done)
        else
          match withheld with
          | some reason => some (s.goto p (.keeping (.unestablished reason now)))
          | none => some (s.goto p .capturing)
  | .asking baseline, .ask answer _ =>
    if Truthful s.out answer then
      match decide parse baseline answer with
      | .answer status => some (s.say p (some answer) status)
      | .release version => some (s.goto p (.observing version))
      | .establish => some (s.goto p .establishing)
    else none
  | .establishing, .update fails =>
    if fails then some (s.goto p .done) else some (s.establish p)
  | .observing version, .update fails =>
    if fails then some (s.goto p .done) else some (s.observe p version)
  | .capturing, .ask answer now =>
    if Truthful s.out answer then some (s.goto p (.keeping (recordOf answer now))) else none
  | .keeping record, .update fails =>
    if fails then some (s.goto p .done) else some (s.writeBaseline p record)
  | _, _ => none

def step : Label π → Option (World π)
  | .act p act => s.act parse call p act
  | .publish version => some { s with out := version :: s.out }
  | .yank version => some { s with out := s.out.filter fun other => other ≠ version }
  | .acknowledge version =>
    some { s with record := { s.record with acknowledged := some version } }

/-- What a step of a process comes to, and what it took. -/
inductive Acts (p : π) : Act → World π → Prop
  | done {act : Act} : Acts p act (s.goto p .done)
  | acknowledged {act : Act} (version : String) : s.record.acknowledged = some version →
      Acts p act (s.say p none (.released version .acknowledged))
  | asks {act : Act} : Acts p act (s.goto p (.asking s.record.baseline))
  | captures {act : Act} : Acts p act (s.goto p .capturing)
  | answers {baseline : Option BaselineRecord} {answer : ReleaseAnswer} {now : String}
      {status : ReleaseStatus} : s.phase p = .asking baseline →
      decide parse baseline answer = .answer status →
      Acts p (.ask answer now) (s.say p (some answer) status)
  | finds {baseline : Option BaselineRecord} {answer : ReleaseAnswer} {now version : String} :
      s.phase p = .asking baseline → decide parse baseline answer = .release version →
      Acts p (.ask answer now) (s.goto p (.observing version))
  | findsNone {act : Act} : Acts p act (s.goto p .establishing)
  | establishes : s.phase p = .establishing → Acts p (.update false) (s.establish p)
  | observes {version : String} : s.phase p = .observing version →
      Acts p (.update false) (s.observe p version)
  | reads {act : Act} (record : BaselineRecord) : Acts p act (s.goto p (.keeping record))
  | keeps {record : BaselineRecord} : s.phase p = .keeping record →
      Acts p (.update false) (s.writeBaseline p record)

variable {parse call s}

theorem acts_of_act {p : π} {act : Act} {s' : World π} (hs : s.act parse call p act = some s') :
    s.Acts parse p act s' := by
  unfold World.act at hs
  split at hs
  · -- a process starts
    split at hs
    · obtain rfl := Option.some.inj hs
      exact .done
    · split at hs
      · split at hs
        · obtain rfl := Option.some.inj hs
          rename_i hacknowledged
          exact .acknowledged _ hacknowledged
        · obtain rfl := Option.some.inj hs
          exact .asks
      · split at hs
        · obtain rfl := Option.some.inj hs
          exact .done
        · split at hs
          · obtain rfl := Option.some.inj hs
            exact .reads _
          · obtain rfl := Option.some.inj hs
            exact .captures
  · -- a status's probe has answered
    rename_i baseline answer now hphase
    split at hs
    · split at hs
      · rename_i hdecide
        obtain rfl := Option.some.inj hs
        exact .answers hphase hdecide
      · rename_i hdecide
        obtain rfl := Option.some.inj hs
        exact .finds hphase hdecide
      · obtain rfl := Option.some.inj hs
        exact .findsNone
    · cases hs
  · rename_i fails hphase
    cases fails with
    | true =>
      obtain rfl := Option.some.inj hs
      exact .done
    | false =>
      obtain rfl := Option.some.inj hs
      exact .establishes hphase
  · rename_i version fails hphase
    cases fails with
    | true =>
      obtain rfl := Option.some.inj hs
      exact .done
    | false =>
      obtain rfl := Option.some.inj hs
      exact .observes hphase
  · -- a capture's probe has answered
    split at hs
    · obtain rfl := Option.some.inj hs
      exact .reads _
    · cases hs
  · rename_i record fails hphase
    cases fails with
    | true =>
      obtain rfl := Option.some.inj hs
      exact .done
    | false =>
      obtain rfl := Option.some.inj hs
      exact .keeps hphase
  · cases hs

end World

/-- The target from the landing on. -/
def releasing : System (World π) (Label π) where
  Initial s := s.record = ⟨none, none, none⟩ ∧ s.out = s.landing.out ∧
    (∀ p, s.phase p = .idle) ∧ s.said = []
  step s := s.step parse call

end Steps

end Onevcs.Release
