import Onevcs.Boundary.Visibility
import Onevcs.Foundations.Outcome

/-!
# The registry document

`migrate`, `legacy`, `coherent`, `without_inference` and `serialize` of `store.rs`, over
the document they read: its records by key, each with the keys this build knows and those
it does not. A key of the wrong type is one a record misses, as it is to the source, and
the keys a version did not have yet are not among those of its documents.

What a document carries beyond the shape this build reads is handed back where a write
still has the record it hung off.
-/

namespace Onevcs.Store

open Boundary (Visibility Observation)

/-- Keys this build has no opinion on, with the values they carry. -/
abbrev Unknown (υ : Type) := List (String × υ)

structure Identity where
  origin : String
  gate : String
  visibility : Visibility
  observation : Observation
  observedAt : Option String
  deriving DecidableEq

def Identity.new (origin gate : String) : Identity := ⟨origin, gate, .unknown, .unknown, none⟩

structure Checkout where
  path : String
  identity : String
  deriving DecidableEq

structure Registry where
  version : Nat
  identities : List (String × Identity)
  checkouts : List (String × Checkout)
  rules : Option String
  deriving DecidableEq

/-- An identity's record, as a document spells it. -/
structure RawIdentity (υ : Type) where
  origin : Option String
  gate : Option String
  visibility : Visibility
  observation : Observation
  observedAt : Option String
  beyond : Unknown υ
  deriving DecidableEq

/-- A checkout's record, as a document spells it. -/
structure RawCheckout (υ : Type) where
  path : Option String
  identity : Option String
  beyond : Unknown υ
  deriving DecidableEq

structure Document (υ : Type) where
  version : Option Nat
  identities : Option (List (String × RawIdentity υ))
  checkouts : Option (List (String × RawCheckout υ))
  rules : Option String
  beyond : Unknown υ
  deriving DecidableEq

/-- What is at the registry's path. -/
inductive File (υ : Type)
  | missing
  | notJson
  | notObject
  | document (document : Document υ)
  deriving DecidableEq

inductive Refused
  | notJson
  | notObject
  | noVersion
  | version (other : Nat)
  | shape
  | noIdentities (version : Nat)
  | noCheckouts (version : Nat)
  | missingField (name : String)
  | unknownIdentity (checkout identity : String)
  | relativePath (checkout path : String)

/-- `Remainder`: what a document carries beyond this build's shape, by record. -/
structure Remainder (υ : Type) where
  identities : List (String × Unknown υ)
  checkouts : List (String × Unknown υ)
  beyond : Unknown υ
  deriving DecidableEq

structure Read (υ : Type) where
  registry : Registry
  migrated : Bool
  carried : Remainder υ
  deriving DecidableEq

def version : Nat := 7

def shapeSince : Nat := 6

def oldestVersion : Nat := 2

def noopGate : String := "<no-op>"

def inferredKeys : List String := ["workflow", "repo_type"]

def empty : Registry := ⟨version, [], [], none⟩

section Reading

variable {υ : Type}

def field (name : String) : Option String → Except Refused String
  | some value => .ok value
  | none => .error (.missingField name)

/-- An identity of this build's shape, as serde reads it. -/
def readIdentity (raw : RawIdentity υ) : Except Refused Identity :=
  match raw.origin, raw.gate with
  | some origin, some gate =>
    .ok ⟨origin, gate, raw.visibility, raw.observation, raw.observedAt⟩
  | _, _ => .error .shape

/-- A checkout of this build's shape, as serde reads it. -/
def readCheckout (raw : RawCheckout υ) : Except Refused Checkout :=
  match raw.path, raw.identity with
  | some path, some identity => .ok ⟨path, identity⟩
  | _, _ => .error .shape

def readAll {α β : Type} (read : α → Except Refused β) :
    List (String × α) → Except Refused (List (String × β))
  | [] => .ok []
  | (key, raw) :: rest => do
    let value ← read raw
    return (key, value) :: (← readAll read rest)

/-- `serde_json::from_value`, of a registry. -/
def fromValue (document : Document υ) : Except Refused Registry :=
  match document.version, document.identities, document.checkouts with
  | some declared, some identities, some checkouts =>
    if declared < 2 ^ 32 then do
      let identities ← readAll readIdentity identities
      let checkouts ← readAll readCheckout checkouts
      return ⟨declared, identities, checkouts, document.rules⟩
    else .error .shape
  | _, _, _ => .error .shape

/-- An identity of a version before 5. -/
def legacyIdentity (declared : Nat) (raw : RawIdentity υ) : Except Refused Identity := do
  let origin ← field "origin" raw.origin
  let gate ← if declared ≥ 4 then field "gate" raw.gate else .ok noopGate
  return Identity.new origin gate

/-- The checkouts of a version before 5, of the identities it holds. -/
def legacyCheckouts (identities : List (String × Identity)) :
    List (String × RawCheckout υ) → Except Refused (List (String × Checkout))
  | [] => .ok []
  | (name, raw) :: rest => do
    let identity ← field "identity" raw.identity
    if (identities.lookup identity).isNone then throw (.unknownIdentity name identity)
    let path ← field "path" raw.path
    return (name, ⟨path, identity⟩) :: (← legacyCheckouts identities rest)

def legacy (document : Document υ) (declared : Nat) : Except Refused Registry :=
  match document.identities with
  | none => .error (.noIdentities declared)
  | some identities => do
    let identities ← readAll (legacyIdentity declared) identities
    match document.checkouts with
    | none => throw (.noCheckouts declared)
    | some checkouts =>
      let checkouts ← legacyCheckouts identities checkouts
      return ⟨version, identities, checkouts, none⟩

def coherent (identities : List (String × Identity)) :
    List (String × Checkout) → Except Refused Unit
  | [] => .ok ()
  | (name, checkout) :: rest =>
    if (identities.lookup checkout.identity).isNone then
      .error (.unknownIdentity name checkout.identity)
    else if ¬ checkout.path.startsWith "/" then .error (.relativePath name checkout.path)
    else coherent identities rest

def withoutInference (document : Document υ) : Document υ :=
  { document with
    identities := document.identities.map fun identities => identities.map fun entry =>
      (entry.1, { entry.2 with
        beyond := entry.2.beyond.filter fun unknown => unknown.1 ∉ inferredKeys }) }

/-- `Remainder::between` a document and what was understood of it. -/
def Remainder.between (document : Document υ) : Remainder υ where
  identities := (document.identities.getD []).map fun entry => (entry.1, entry.2.beyond)
  checkouts := (document.checkouts.getD []).map fun entry => (entry.1, entry.2.beyond)
  beyond := document.beyond

def migrate (document : Document υ) : Except Refused (Read υ) :=
  match document.version with
  | none => .error .noVersion
  | some declared =>
    if declared ≥ shapeSince then do
      let registry ← fromValue document
      coherent registry.identities registry.checkouts
      return ⟨registry, false, Remainder.between document⟩
    else if declared ≥ oldestVersion then do
      let registry ← if declared = 5 then fromValue document else legacy document declared
      coherent registry.identities registry.checkouts
      return ⟨{ registry with version := version }, true,
        Remainder.between (withoutInference document)⟩
    else .error (.version declared)

/-- `serialize`: this build's shape, with what was carried beyond it put back. -/
def serialize (registry : Registry) (carried : Remainder υ) : Document υ where
  version := some registry.version
  identities := some (registry.identities.map fun entry =>
    (entry.1, ⟨some entry.2.origin, some entry.2.gate, entry.2.visibility, entry.2.observation,
      entry.2.observedAt, (carried.identities.lookup entry.1).getD []⟩))
  checkouts := some (registry.checkouts.map fun entry =>
    (entry.1, ⟨some entry.2.path, some entry.2.identity,
      (carried.checkouts.lookup entry.1).getD []⟩))
  rules := registry.rules
  beyond := carried.beyond

/-- Reading a file that could be read. -/
def readFile : File υ → Except Refused (Read υ)
  | .missing => .ok ⟨empty, false, ⟨[], [], []⟩⟩
  | .notJson => .error .notJson
  | .notObject => .error .notObject
  | .document document => migrate document

theorem readAll_map {α β : Type} (read : α → Except Refused β) (write : String × β → α)
    {entries : List (String × β)} (h : ∀ entry ∈ entries, read (write entry) = .ok entry.2) :
    readAll read (entries.map fun entry => (entry.1, write entry)) = .ok entries := by
  induction entries with
  | nil => rfl
  | cons entry rest ih =>
    rw [List.forall_mem_cons] at h
    rw [List.map_cons, readAll, h.1, ih h.2]
    rfl

/-- What was written is read back by every build of this shape, and nothing is migrated. -/
theorem migrate_serialize {registry : Registry} {carried : Remainder υ}
    (hversion : registry.version < 2 ^ 32) (hshape : shapeSince ≤ registry.version)
    (hcoherent : coherent registry.identities registry.checkouts = .ok ()) :
    ∃ kept, migrate (serialize registry carried) = .ok ⟨registry, false, kept⟩ := by
  refine ⟨Remainder.between (serialize registry carried), ?_⟩
  have hread : fromValue (serialize registry carried) = .ok registry := by
    simp only [fromValue, serialize, if_pos hversion]
    rw [readAll_map readIdentity (fun entry => ⟨some entry.2.origin, some entry.2.gate,
        entry.2.visibility, entry.2.observation, entry.2.observedAt,
        (carried.identities.lookup entry.1).getD []⟩) fun _ _ => rfl,
      readAll_map readCheckout (fun entry => ⟨some entry.2.path, some entry.2.identity,
        (carried.checkouts.lookup entry.1).getD []⟩) fun _ _ => rfl]
    rfl
  have hdeclared : (serialize registry carried).version = some registry.version := rfl
  unfold migrate
  rw [hdeclared]
  simp only [ge_iff_le, if_pos hshape]
  rw [hread]
  simp only [bind, Except.bind, hcoherent]
  rfl

/-- A document of an older version is understood at this one, and its records are coherent. -/
theorem migrate_older {document : Document υ} {read : Read υ} (h : migrate document = .ok read)
    (hmigrated : read.migrated = true) : read.registry.version = version ∧
      coherent read.registry.identities read.registry.checkouts = .ok () := by
  unfold migrate at h
  split at h
  next => cases h
  next declared _ =>
    split at h
    next =>
      obtain ⟨registry, -, h⟩ := Foundations.bind_eq_ok.mp h
      obtain ⟨-, -, h⟩ := Foundations.bind_eq_ok.mp h
      obtain rfl := Except.ok.inj h
      cases hmigrated
    next =>
      split at h
      next =>
        dsimp only at h
        split at h
        all_goals
          obtain ⟨registry, -, h⟩ := Foundations.bind_eq_ok.mp h
          obtain ⟨_, hcoherent, h⟩ := Foundations.bind_eq_ok.mp h
          obtain rfl := Except.ok.inj h
          exact ⟨rfl, hcoherent⟩
      next => cases h

end Reading

end Onevcs.Store
