import Mathlib.Logic.Function.Basic
import Onevcs.Store.Normalize
import Onevcs.Foundations.Transition

/-!
# Which writes are screened

`boundary/visibility.rs`: the visibility a rule declares or the registry records of a
repository, the refreshes that record it, and the three ways a write asks whether it
must be screened. Registering repositories, editing rules and answering for a host are
steps beside them, so that a run is any history of these.

The world also holds what each host last answered, which no function of the source
reads: `hostSaid` is history the results are stated with.
-/

namespace Onevcs.Boundary

open Rules (RulesFile DeclaredVisibility)

/-- Whether a repository is public. -/
inductive Visibility
  | isPublic
  | isPrivate
  | unknown
  deriving DecidableEq

/-- What a visibility is treated as. -/
def Visibility.effective : Visibility → Visibility
  | .isPublic => .isPublic
  | .isPrivate | .unknown => .isPrivate

/-- A declared visibility, as a visibility. -/
def Visibility.ofDeclared : DeclaredVisibility → Visibility
  | .declaredPublic => .isPublic
  | .declaredPrivate => .isPrivate

/-- Where a recorded visibility came from. -/
inductive Observation
  | host
  | override
  | unknown
  deriving DecidableEq

structure Identity where
  visibility : Visibility
  observation : Observation
  observedAt : Option String

/-- `Identity::new`: an identity nobody has observed the visibility of yet. -/
def Identity.unobserved : Identity := ⟨.unknown, .unknown, none⟩

structure Checkout where
  path : String
  identity : String

/-- The registry: identities by key, checkouts in the order of their aliases, and where
the rules file lives if not at its own place. -/
structure Registry where
  identities : String → Option Identity
  checkouts : List Checkout
  rules : Option String

/-- What a path holds of a rules file. -/
inductive Document
  | absent
  | unreadable
  | file (rules : RulesFile)

/-- What one host holds, and what the hosts of its repositories last said. -/
structure World where
  registry : Registry
  documents : String → Document
  defaultPath : String
  home : Option String
  canonicalize : String → Option String
  hostSaid : String → Option Visibility

/-! ## The rules in force -/

/-- Why the rules cannot be loaded. -/
inductive LoadError
  | unreadable (path : String)
  | refused (path : String) (refusal : Rules.Refusal)
  deriving DecidableEq

def builtInDefault : Rules.Policy where
  publication := .changeOpen
  approvals := .required

/-- `policy::load`. -/
def World.loadRules (w : World) : Except LoadError RulesFile :=
  let path :=
    match w.registry.rules with
    | some reference => Rules.expandTilde w.home reference
    | none => w.defaultPath
  match w.documents path with
  | .absent =>
    if w.registry.rules.isNone then .ok ⟨4, none, [], builtInDefault⟩
    else .error (.unreadable path)
  | .unreadable => .error (.unreadable path)
  | .file rules =>
    match Rules.validate rules with
    | .error refusal => .error (.refused path refusal)
    | .ok () => .ok rules

/-- `checkout_of`: the checkout a rule's `path` is matched against. -/
def checkoutOf (registry : Registry) (key : String) : Option String :=
  (registry.checkouts.find? fun checkout => checkout.identity = key).map Checkout.path

/-- `declared`, by the rules as they are on disk. -/
def World.declared (w : World) (key : String) : Except LoadError (Option Visibility) :=
  match w.loadRules with
  | .error e => .error e
  | .ok file =>
    let normalized := Store.normalize w.canonicalize key
    let checkout := (checkoutOf w.registry key).getD ""
    .ok ((Rules.resolve w.home file normalized checkout).visibility.map .ofDeclared)

/-- Whether a key names a repository some host serves. -/
def World.hosted (w : World) (key : String) : Bool :=
  (Store.normalize w.canonicalize key).hosted.isSome

/-- What a host does when it is asked for a repository's visibility. -/
inductive Reply
  | said (visibility : Visibility)
  | refused
  | unanswered (said : String)

/-- What refreshing one identity's visibility came to. -/
inductive Refreshed
  | answered (visibility : Visibility)
  | unconfirmed (visibility : Visibility)
  | unanswered (said : String)

/-- `record`: an identity that was never registered has nowhere to be recorded. -/
def World.record (w : World) (key : String) (visibility : Visibility) (observation : Observation)
    (now : String) : World :=
  match w.registry.identities key with
  | none => w
  | some _ =>
    let observedAt :=
      match observation with
      | .unknown => none
      | .host | .override => some now
    { w with
      registry.identities :=
        Function.update w.registry.identities key (some ⟨visibility, observation, observedAt⟩) }

/-- The host's answer, kept as history. -/
def World.answerFrom (w : World) (key : String) (visibility : Visibility) : World :=
  { w with hostSaid := Function.update w.hostSaid key (some visibility) }

/-- `refreshed`, where the host would reply as `reply`. -/
def World.refreshed (w : World) (key : String) (reply : Reply) (now : String) :
    Except LoadError Refreshed × World :=
  match w.declared key with
  | .error e => (.error e, w)
  | .ok (some declared) => (.ok (.answered declared), w.record key declared .override now)
  | .ok none =>
    if (Store.slug key).isNone then
      let recorded := ((w.registry.identities key).map Identity.visibility).getD .unknown
      (.ok (.unconfirmed recorded), w)
    else
      match reply with
      | .unanswered said => (.ok (.unanswered said), w)
      | .said .isPublic =>
        (.ok (.answered .isPublic), (w.record key .isPublic .host now).answerFrom key .isPublic)
      | .said .isPrivate =>
        (.ok (.answered .isPrivate),
          (w.record key .isPrivate .host now).answerFrom key .isPrivate)
      | .said .unknown | .refused =>
        let unchanged := (w.registry.identities key).any fun identity =>
          identity.visibility == .unknown && identity.observation == .unknown
        (.ok (.unconfirmed .unknown),
          if unchanged then w else w.record key .unknown .unknown now)

/-! ## Asking whether a write is screened -/

/-- What a write to one destination is owed before it goes ahead. -/
inductive Screening
  | screened
  | unscreened
  | unanswered (said : String)
  deriving DecidableEq

def World.screening (w : World) (key : String) (reply : Reply) (now : String) :
    Except LoadError Screening × World :=
  match w.refreshed key reply now with
  | (.error e, after) => (.error e, after)
  | (.ok (.unanswered said), after) => (.ok (.unanswered said), after)
  | (.ok (.answered visibility), after) =>
    (.ok (if visibility.effective = .isPublic then .screened else .unscreened), after)
  | (.ok (.unconfirmed visibility), after) =>
    (.ok (if visibility.effective ≠ .isPublic ∧ ¬ w.hosted key then .unscreened else .screened),
      after)

def World.screensWritesAsRecorded (w : World) (key : String) : Except LoadError (Option Bool) :=
  match w.declared key with
  | .error e => .error e
  | .ok (some declared) => .ok (some (declared.effective = .isPublic))
  | .ok none =>
    match w.registry.identities key with
    | some identity =>
      if identity.observation ≠ .unknown ∧ identity.visibility ≠ .unknown then
        .ok (some (identity.visibility.effective = .isPublic))
      else .ok none
    | none => .ok none

/-- What an answer to whether a write is screened comes to. -/
def Screening.ofBool (screened : Bool) : Screening :=
  if screened then .screened else .unscreened

def World.screensWritesUnasked (w : World) (key : String) : Except LoadError Bool :=
  match w.screensWritesAsRecorded key with
  | .error e => .error e
  | .ok recorded => .ok (recorded.getD (w.hosted key))

def World.screeningUnlessRecorded (w : World) (key : String) (reply : Reply) (now : String) :
    Except LoadError Screening × World :=
  match w.screensWritesAsRecorded key with
  | .error e => (.error e, w)
  | .ok (some screened) => (.ok (.ofBool screened), w)
  | .ok none => w.screening key reply now

/-- How a write asks whether its destination is public. -/
inductive Asked
  | fresh
  | unasked
  | unlessRecorded
  deriving DecidableEq

/-- A write to a destination, with what the host would reply to it. -/
structure Write where
  asked : Asked
  key : String
  reply : Reply
  now : String

/-- What a write is owed, and the world after it was asked. -/
def World.write (w : World) (write : Write) : Except LoadError Screening × World :=
  match write.asked with
  | .fresh => w.screening write.key write.reply write.now
  | .unasked => ((w.screensWritesUnasked write.key).map .ofBool, w)
  | .unlessRecorded => w.screeningUnlessRecorded write.key write.reply write.now

/-- What may happen on a host. -/
inductive Step
  | register (key : String)
  | checkouts (checkouts : List Checkout)
  | referTo (rules : Option String)
  | editRules (path : String) (document : Document)
  | relink (canonicalize : String → Option String)
  | refresh (key : String) (reply : Reply) (now : String)
  | write (write : Write)

def World.after (w : World) : Step → World
  | .register key =>
    { w with
      registry.identities :=
        Function.update w.registry.identities key
          ((w.registry.identities key).getD .unobserved) }
  | .checkouts checkouts => { w with registry.checkouts := checkouts }
  | .referTo rules => { w with registry.rules := rules }
  | .editRules path document =>
    { w with documents := Function.update w.documents path document }
  | .relink canonicalize => { w with canonicalize := canonicalize }
  | .refresh key reply now => (w.refreshed key reply now).2
  | .write write => (w.write write).2

/-- Every history of one host, from one that has registered nothing. -/
def histories : Foundations.System World Step where
  Initial w := w.registry.identities = (fun _ => none) ∧ w.hostSaid = fun _ => none
  step w step := some (w.after step)

end Onevcs.Boundary
