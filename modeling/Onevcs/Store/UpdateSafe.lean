import Onevcs.Foundations.Outcome
import Onevcs.Store.Registry

/-!
# What an update leaves of a registry it could not read

`update` of `store.rs`, alone and over whatever is at the registry's path: nothing, a document
of any version, text that is none, bytes that are no text, and any of these where the host
does not let it be read. Its read takes every error of `read_to_string` for no document, so
what cannot be read is written over as if it were not there.

A record is kept where its keys that this build has no opinion on are there, less the two that
the migration spends, and, where the change left the record as it was given it, every field of
it that its version has.
-/

namespace Onevcs.Store

open Foundations (bind_eq_ok)

/-- What is at the registry's path, whoever may read it. -/
inductive Stored (υ : Type)
  | notUtf8
  | file (file : File υ)
  deriving DecidableEq

/-- Why the host does not let a path be read. -/
inductive Withheld
  | permission
  | device

/-- The registry's path. -/
structure Disk (υ : Type) where
  stored : Stored υ
  withheld : Option Withheld

/-- The kind of an error of `read_to_string`. -/
inductive ErrorKind
  | notFound
  | invalidData
  | withheld (why : Withheld)

/-- What goes well besides the read: the lock is had, and the replacement is written. -/
structure Host where
  locks : Bool
  writes : Bool
  deriving DecidableEq

inductive Failed (ε : Type)
  | lock
  | read (refused : Refused)
  | change (error : ε)
  | write

section Updates

variable {υ ε τ : Type}

/-- `std::fs::read_to_string`, of the registry's path. -/
def readToString (disk : Disk υ) : Except ErrorKind (File υ) :=
  match disk.withheld, disk.stored with
  | some why, _ => .error (.withheld why)
  | none, .notUtf8 => .error .invalidData
  | none, .file .missing => .error .notFound
  | none, .file file => .ok file

/-- What `update` reads: an error of any kind is no document. -/
def updateRead (disk : Disk υ) : Except Refused (Read υ) :=
  match readToString disk with
  | .ok file => readFile file
  | .error _ => .ok ⟨empty, false, ⟨[], [], []⟩⟩

/-- What `update` writes of a registry that was changed. -/
def replacement (read : Read υ) (changed : Registry) : Document υ :=
  serialize { changed with version := max changed.version version } read.carried

def update (disk : Disk υ) (change : Registry → Except ε (τ × Registry)) (host : Host) :
    Except (Failed ε) τ × Disk υ :=
  if host.locks then
    match updateRead disk with
    | .error refused => (.error (.read refused), disk)
    | .ok read =>
      match change read.registry with
      | .error error => (.error (.change error), disk)
      | .ok (outcome, changed) =>
        if host.writes then
          (.ok outcome, ⟨.file (.document (replacement read changed)), none⟩)
        else (.error .write, disk)
  else (.error .lock, disk)

end Updates

section Keeping

variable {υ : Type}

/-- The version a document is held to. -/
def Document.declared (document : Document υ) : Nat := document.version.getD Store.version

/-- The unknown keys of an identity that no migration spends. -/
def unspent (declared : Nat) (unknown : Unknown υ) : Unknown υ :=
  if shapeSince ≤ declared then unknown
  else unknown.filter fun entry => entry.1 ∉ inferredKeys

/-- The same identity, by the fields a version has. -/
structure SameIdentity (declared : Nat) (raw kept : RawIdentity υ) : Prop where
  origin : kept.origin = raw.origin
  gate : 4 ≤ declared → kept.gate = raw.gate
  visibility : 5 ≤ declared → kept.visibility = raw.visibility
  observation : 5 ≤ declared → kept.observation = raw.observation
  observedAt : 5 ≤ declared → kept.observedAt = raw.observedAt

structure SameCheckout (raw kept : RawCheckout υ) : Prop where
  path : kept.path = raw.path
  identity : kept.identity = raw.identity

/-- Every record is there, other than those that were given and not returned; and a record
that was returned as it was given is the same. -/
def Keeps {α ρ : Type} (unknown : ρ → Unknown υ) (beyond : ρ → Unknown υ) (same : ρ → ρ → Prop)
    (before : List (String × ρ)) (given returned : List (String × α))
    (after : List (String × ρ)) : Prop :=
  ∀ key raw, before.lookup key = some raw →
    ((given.lookup key).isSome ∧ returned.lookup key = none) ∨
      ∃ kept, after.lookup key = some kept ∧ unknown raw ⊆ beyond kept ∧
        (returned.lookup key = given.lookup key → same raw kept)

/-- What a document held is held by another, but for what a change took out of what it was
given. -/
structure Retains (before : Document υ) (given returned : Registry) (after : Document υ) :
    Prop where
  identities : Keeps (fun raw => unspent before.declared raw.beyond) RawIdentity.beyond
    (SameIdentity before.declared) (before.identities.getD []) given.identities
    returned.identities (after.identities.getD [])
  checkouts : Keeps RawCheckout.beyond RawCheckout.beyond SameCheckout
    (before.checkouts.getD []) given.checkouts returned.checkouts (after.checkouts.getD [])
  rules : 5 ≤ before.declared → returned.rules = given.rules → after.rules = before.rules
  beyond : before.beyond ⊆ after.beyond

/-- What was at the path is held by what is there now. Of what is no document, no record can
be. -/
inductive RetainedBy (given returned : Registry) : Stored υ → Stored υ → Prop
  | missing (after : Stored υ) : RetainedBy given returned (.file .missing) after
  | document {before after : Document υ} : Retains before given returned after →
      RetainedBy given returned (.file (.document before)) (.file (.document after))

/-- The update fails and leaves what was there, or succeeds and keeps every record that was
there but for what the change took out. -/
inductive Safe {ε τ : Type} (disk : Disk υ) (change : Registry → Except ε (τ × Registry))
    (host : Host) : Prop
  | fails (failed : Failed ε) : update disk change host = (.error failed, disk) →
      Safe disk change host
  | keeps (outcome : τ) (read : Read υ) (returned : Registry) (after : Disk υ) :
      updateRead disk = .ok read → change read.registry = .ok (outcome, returned) →
      update disk change host = (.ok outcome, after) →
      RetainedBy read.registry returned disk.stored after.stored → Safe disk change host

/-- What a change makes of no registry has every record of a document, none of which carries
a key of its own. -/
structure Remade (before : Document υ) (returned : Registry) : Prop where
  identities : ∀ key raw, (before.identities.getD []).lookup key = some raw →
    (returned.identities.lookup key).isSome ∧ unspent before.declared raw.beyond = []
  checkouts : ∀ key raw, (before.checkouts.getD []).lookup key = some raw →
    (returned.checkouts.lookup key).isSome ∧ raw.beyond = []
  rules : 5 ≤ before.declared → returned.rules = none → before.rules = none
  beyond : before.beyond = []

end Keeping

section Reading

variable {υ : Type}

theorem lookup_map {α β : Type} (f : String → α → β) (entries : List (String × α))
    (key : String) :
    (entries.map fun entry => (entry.1, f entry.1 entry.2)).lookup key =
      (entries.lookup key).map (f key) := by
  induction entries with
  | nil => rfl
  | cons entry rest ih =>
    rw [List.map_cons, List.lookup_cons, List.lookup_cons]
    by_cases hkey : key = entry.1
    · subst hkey
      simp
    · simpa only [beq_false_of_ne hkey] using ih

theorem readAll_lookup {α β : Type} {read : α → Except Refused β}
    {entries : List (String × α)} {values : List (String × β)}
    (h : readAll read entries = .ok values) {key : String} {raw : α}
    (hraw : entries.lookup key = some raw) :
    ∃ value, values.lookup key = some value ∧ read raw = .ok value := by
  induction entries generalizing values with
  | nil => cases hraw
  | cons entry rest ih =>
    obtain ⟨name, found⟩ := entry
    obtain ⟨value, hvalue, h⟩ := bind_eq_ok.mp h
    obtain ⟨others, hothers, h⟩ := bind_eq_ok.mp h
    obtain rfl := Except.ok.inj h
    rw [List.lookup_cons] at hraw ⊢
    by_cases hkey : key = name
    · subst hkey
      simp only [beq_self_eq_true] at hraw ⊢
      obtain rfl := Option.some.inj hraw
      exact ⟨value, rfl, hvalue⟩
    · simp only [beq_false_of_ne hkey] at hraw ⊢
      exact ih hothers hraw

theorem field_eq_ok {name : String} {found : Option String} {value : String} :
    field name found = .ok value ↔ found = some value := by
  cases found with
  | none => simp [field]
  | some other => simp [field]

theorem legacyCheckouts_lookup {identities : List (String × Identity)}
    {entries : List (String × RawCheckout υ)} {values : List (String × Checkout)}
    (h : legacyCheckouts identities entries = .ok values) {key : String} {raw : RawCheckout υ}
    (hraw : entries.lookup key = some raw) :
    ∃ value, values.lookup key = some value ∧ raw.path = some value.path ∧
      raw.identity = some value.identity := by
  induction entries generalizing values with
  | nil => cases hraw
  | cons entry rest ih =>
    obtain ⟨name, found⟩ := entry
    obtain ⟨identity, hidentity, h⟩ := bind_eq_ok.mp h
    split at h
    · cases h
    obtain ⟨path, hpath, h⟩ := bind_eq_ok.mp h
    obtain ⟨others, hothers, h⟩ := bind_eq_ok.mp h
    obtain rfl := Except.ok.inj h
    rw [List.lookup_cons] at hraw ⊢
    by_cases hkey : key = name
    · subst hkey
      simp only [beq_self_eq_true] at hraw ⊢
      obtain rfl := Option.some.inj hraw
      exact ⟨⟨path, identity⟩, rfl, field_eq_ok.mp hpath, field_eq_ok.mp hidentity⟩
    · simp only [beq_false_of_ne hkey] at hraw ⊢
      exact ih hothers hraw

theorem readIdentity_eq_ok {raw : RawIdentity υ} {identity : Identity}
    (h : readIdentity raw = .ok identity) :
    raw.origin = some identity.origin ∧ raw.gate = some identity.gate ∧
      raw.visibility = identity.visibility ∧ raw.observation = identity.observation ∧
      raw.observedAt = identity.observedAt := by
  unfold readIdentity at h
  cases horigin : raw.origin with
  | none => simp [horigin] at h
  | some origin =>
    cases hgate : raw.gate with
    | none => simp [horigin, hgate] at h
    | some gate =>
      simp only [horigin, hgate] at h
      obtain rfl := Except.ok.inj h
      exact ⟨rfl, rfl, rfl, rfl, rfl⟩

theorem readCheckout_eq_ok {raw : RawCheckout υ} {checkout : Checkout}
    (h : readCheckout raw = .ok checkout) :
    raw.path = some checkout.path ∧ raw.identity = some checkout.identity := by
  unfold readCheckout at h
  cases hpath : raw.path with
  | none => simp [hpath] at h
  | some path =>
    cases hidentity : raw.identity with
    | none => simp [hpath, hidentity] at h
    | some identity =>
      simp only [hpath, hidentity] at h
      obtain rfl := Except.ok.inj h
      exact ⟨rfl, rfl⟩

/-- An identity's record as it is written. -/
def writeIdentity (identity : Identity) (beyond : Unknown υ) : RawIdentity υ :=
  ⟨some identity.origin, some identity.gate, identity.visibility, identity.observation,
    identity.observedAt, beyond⟩

/-- A checkout's record as it is written. -/
def writeCheckout (checkout : Checkout) (beyond : Unknown υ) : RawCheckout υ :=
  ⟨some checkout.path, some checkout.identity, beyond⟩

/-- A registry has each record of a document, with the fields of its version. -/
structure Understands (document : Document υ) (registry : Registry) : Prop where
  identities : ∀ key raw, (document.identities.getD []).lookup key = some raw →
    ∃ identity, registry.identities.lookup key = some identity ∧
      ∀ beyond, SameIdentity document.declared raw (writeIdentity identity beyond)
  checkouts : ∀ key raw, (document.checkouts.getD []).lookup key = some raw →
    ∃ checkout, registry.checkouts.lookup key = some checkout ∧
      ∀ beyond, SameCheckout raw (writeCheckout checkout beyond)
  rules : 5 ≤ document.declared → registry.rules = document.rules

/-- What a read of a document has of it: each record, and what it carried beyond the fields
this build knows. -/
structure Reads (document : Document υ) (read : Read υ) : Prop where
  understands : Understands document read.registry
  identities : ∀ key raw, (document.identities.getD []).lookup key = some raw →
    read.carried.identities.lookup key = some (unspent document.declared raw.beyond)
  checkouts : ∀ key raw, (document.checkouts.getD []).lookup key = some raw →
    read.carried.checkouts.lookup key = some raw.beyond
  beyond : read.carried.beyond = document.beyond

theorem fromValue_understands {document : Document υ} {registry : Registry}
    (h : fromValue document = .ok registry) : Understands document registry := by
  unfold fromValue at h
  cases hversion : document.version with
  | none => simp [hversion] at h
  | some declared =>
    cases hidentities : document.identities with
    | none => simp [hversion, hidentities] at h
    | some identities =>
      cases hcheckouts : document.checkouts with
      | none => simp [hversion, hidentities, hcheckouts] at h
      | some checkouts =>
        simp only [hversion, hidentities, hcheckouts] at h
        split at h
        · obtain ⟨understood, hreadIdentities, h⟩ := bind_eq_ok.mp h
          obtain ⟨others, hreadCheckouts, h⟩ := bind_eq_ok.mp h
          obtain rfl := Except.ok.inj h
          refine ⟨fun key raw hraw => ?_, fun key raw hraw => ?_, fun _ => rfl⟩
          · rw [hidentities] at hraw
            obtain ⟨identity, hfound, hread⟩ := readAll_lookup hreadIdentities hraw
            obtain ⟨horigin, hgate, hvisibility, hobservation, hat⟩ :=
              readIdentity_eq_ok hread
            exact ⟨identity, hfound, fun _ => ⟨horigin.symm, fun _ => hgate.symm,
              fun _ => hvisibility.symm, fun _ => hobservation.symm, fun _ => hat.symm⟩⟩
          · rw [hcheckouts] at hraw
            obtain ⟨checkout, hfound, hread⟩ := readAll_lookup hreadCheckouts hraw
            obtain ⟨hpath, hidentity⟩ := readCheckout_eq_ok hread
            exact ⟨checkout, hfound, fun _ => ⟨hpath.symm, hidentity.symm⟩⟩
        · cases h

theorem legacyIdentity_eq_ok {declared : Nat} {raw : RawIdentity υ} {identity : Identity}
    (h : legacyIdentity declared raw = .ok identity) :
    raw.origin = some identity.origin ∧ (4 ≤ declared → raw.gate = some identity.gate) := by
  obtain ⟨origin, horigin, h⟩ := bind_eq_ok.mp h
  by_cases hgated : declared ≥ 4
  · simp only [if_pos hgated] at h
    obtain ⟨gate, hgate, h⟩ := bind_eq_ok.mp h
    obtain rfl := Except.ok.inj h
    exact ⟨field_eq_ok.mp horigin, fun _ => field_eq_ok.mp hgate⟩
  · simp only [if_neg hgated] at h
    obtain ⟨gate, -, h⟩ := bind_eq_ok.mp h
    obtain rfl := Except.ok.inj h
    exact ⟨field_eq_ok.mp horigin, fun hfour => absurd hfour hgated⟩

/-- A document of a version before 5 has no field but the origin, and from 4 the gate. -/
theorem legacy_understands {document : Document υ} {declared : Nat} {registry : Registry}
    (hdeclared : document.declared = declared) (hlegacy : declared < 5)
    (h : legacy document declared = .ok registry) : Understands document registry := by
  unfold legacy at h
  cases hidentities : document.identities with
  | none => simp [hidentities] at h
  | some identities =>
    simp only [hidentities] at h
    obtain ⟨understood, hreadIdentities, h⟩ := bind_eq_ok.mp h
    cases hcheckouts : document.checkouts with
    | none =>
      rw [hcheckouts] at h
      cases h
    | some checkouts =>
      simp only [hcheckouts] at h
      obtain ⟨others, hreadCheckouts, h⟩ := bind_eq_ok.mp h
      obtain rfl := Except.ok.inj h
      have hbefore : ¬ 5 ≤ document.declared := by omega
      refine ⟨fun key raw hraw => ?_, fun key raw hraw => ?_,
        fun hshaped => absurd hshaped hbefore⟩
      · rw [hidentities] at hraw
        obtain ⟨identity, hfound, hread⟩ := readAll_lookup hreadIdentities hraw
        obtain ⟨horigin, hgate⟩ := legacyIdentity_eq_ok hread
        refine ⟨identity, hfound, fun _ => ⟨horigin.symm, fun hgated => ?_,
          fun hshaped => absurd hshaped hbefore, fun hshaped => absurd hshaped hbefore,
          fun hshaped => absurd hshaped hbefore⟩⟩
        rw [hdeclared] at hgated
        exact (hgate hgated).symm
      · rw [hcheckouts] at hraw
        obtain ⟨checkout, hfound, hpath, hidentity⟩ :=
          legacyCheckouts_lookup hreadCheckouts hraw
        exact ⟨checkout, hfound, fun _ => ⟨hpath.symm, hidentity.symm⟩⟩

theorem lookup_between_identities (document : Document υ) (key : String) :
    (Remainder.between document).identities.lookup key =
      ((document.identities.getD []).lookup key).map RawIdentity.beyond :=
  lookup_map (fun _ raw => RawIdentity.beyond raw) (document.identities.getD []) key

theorem lookup_between_checkouts (document : Document υ) (key : String) :
    (Remainder.between document).checkouts.lookup key =
      ((document.checkouts.getD []).lookup key).map RawCheckout.beyond :=
  lookup_map (fun _ raw => RawCheckout.beyond raw) (document.checkouts.getD []) key

theorem lookup_withoutInference (document : Document υ) (key : String) :
    ((withoutInference document).identities.getD []).lookup key =
      ((document.identities.getD []).lookup key).map fun raw =>
        { raw with beyond := raw.beyond.filter fun unknown => unknown.1 ∉ inferredKeys } := by
  cases hidentities : document.identities with
  | none => simp [withoutInference, hidentities]
  | some identities =>
    simp only [withoutInference, hidentities, Option.map_some, Option.getD_some]
    exact lookup_map (fun _ raw => { raw with
      beyond := raw.beyond.filter fun unknown => unknown.1 ∉ inferredKeys }) identities key

theorem reads_of_shape {document : Document υ} {registry : Registry} {migrated : Bool}
    (hshape : shapeSince ≤ document.declared) (h : Understands document registry) :
    Reads document ⟨registry, migrated, Remainder.between document⟩ where
  understands := h
  identities key raw hraw := by
    rw [lookup_between_identities, hraw, unspent, if_pos hshape]
    rfl
  checkouts key raw hraw := by
    rw [lookup_between_checkouts, hraw]
    rfl
  beyond := rfl

theorem reads_of_older {document : Document υ} {registry : Registry} {migrated : Bool}
    (hshape : ¬ shapeSince ≤ document.declared) (h : Understands document registry) :
    Reads document ⟨{ registry with version := version }, migrated,
      Remainder.between (withoutInference document)⟩ where
  understands := ⟨h.identities, h.checkouts, h.rules⟩
  identities key raw hraw := by
    rw [lookup_between_identities, lookup_withoutInference, hraw, unspent, if_neg hshape]
    rfl
  checkouts key raw hraw := by
    rw [lookup_between_checkouts]
    exact congrArg (Option.map RawCheckout.beyond) hraw
  beyond := rfl

theorem migrate_reads {document : Document υ} {read : Read υ}
    (h : migrate document = .ok read) : Reads document read := by
  unfold migrate at h
  cases hversion : document.version with
  | none => simp [hversion] at h
  | some declared =>
    have hdeclared : document.declared = declared := by
      rw [Document.declared, hversion]
      rfl
    simp only [hversion] at h
    by_cases hshape : declared ≥ shapeSince
    · rw [if_pos hshape] at h
      obtain ⟨registry, hregistry, h⟩ := bind_eq_ok.mp h
      obtain ⟨_, -, h⟩ := bind_eq_ok.mp h
      obtain rfl := Except.ok.inj h
      exact reads_of_shape (hdeclared ▸ hshape) (fromValue_understands hregistry)
    · rw [if_neg hshape] at h
      have holder : ¬ shapeSince ≤ document.declared := hdeclared ▸ hshape
      by_cases holdest : declared ≥ oldestVersion
      · rw [if_pos holdest] at h
        by_cases hfive : declared = 5
        · rw [if_pos hfive] at h
          obtain ⟨registry, hregistry, h⟩ := bind_eq_ok.mp h
          obtain ⟨_, -, h⟩ := bind_eq_ok.mp h
          obtain rfl := Except.ok.inj h
          exact reads_of_older holder (fromValue_understands hregistry)
        · rw [if_neg hfive] at h
          obtain ⟨registry, hregistry, h⟩ := bind_eq_ok.mp h
          obtain ⟨_, -, h⟩ := bind_eq_ok.mp h
          obtain rfl := Except.ok.inj h
          have hlegacy : declared < 5 := by
            unfold shapeSince at hshape
            omega
          exact reads_of_older holder (legacy_understands hdeclared hlegacy hregistry)
      · rw [if_neg holdest] at h
        cases h

end Reading

section Writing

variable {υ : Type}

theorem keeps_of_read {α ρ : Type} {unknown beyond : ρ → Unknown υ} {same : ρ → ρ → Prop}
    {before : List (String × ρ)} {given returned : List (String × α)} (write : String → α → ρ)
    (hgiven : ∀ key raw, before.lookup key = some raw →
      ∃ value, given.lookup key = some value ∧ same raw (write key value))
    (hbeyond : ∀ key raw value, before.lookup key = some raw →
      unknown raw ⊆ beyond (write key value)) :
    Keeps unknown beyond same before given returned
      (returned.map fun entry => (entry.1, write entry.1 entry.2)) := by
  intro key raw hraw
  obtain ⟨value, hvalue, hsame⟩ := hgiven key raw hraw
  cases hreturned : returned.lookup key with
  | none =>
    rw [hvalue]
    exact .inl ⟨rfl, rfl⟩
  | some written =>
    refine .inr ⟨write key written, ?_, hbeyond key raw written hraw, fun hleft => ?_⟩
    · rw [lookup_map, hreturned]
      rfl
    · obtain rfl : written = value := Option.some.inj (hleft.trans hvalue)
      exact hsame

/-- Of records that were not read, a write keeps those that the change made of nothing, where
there was nothing beyond them. -/
theorem keeps_of_nothing_iff {α ρ : Type} (unknown : ρ → Unknown υ) {beyond : ρ → Unknown υ}
    (same : ρ → ρ → Prop) (before : List (String × ρ)) (returned : List (String × α))
    {write : String → α → ρ} (hbeyond : ∀ key value, beyond (write key value) = []) :
    Keeps unknown beyond same before ([] : List (String × α)) returned
        (returned.map fun entry => (entry.1, write entry.1 entry.2)) ↔
      ∀ key raw, before.lookup key = some raw →
        (returned.lookup key).isSome ∧ unknown raw = [] := by
  constructor
  · intro h key raw hraw
    rcases h key raw hraw with ⟨hgiven, -⟩ | ⟨kept, hkept, hunknown, -⟩
    · cases hgiven
    · rw [lookup_map] at hkept
      obtain ⟨value, hvalue, rfl⟩ := Option.map_eq_some_iff.mp hkept
      rw [hbeyond] at hunknown
      rw [hvalue]
      exact ⟨rfl, List.subset_nil.mp hunknown⟩
  · intro h key raw hraw
    obtain ⟨hreturned, hunknown⟩ := h key raw hraw
    obtain ⟨value, hvalue⟩ := Option.isSome_iff_exists.mp hreturned
    refine .inr ⟨write key value, ?_, ?_, fun hleft => ?_⟩
    · rw [lookup_map, hvalue]
      rfl
    · rw [hunknown]
      exact List.nil_subset _
    · rw [hvalue] at hleft
      cases hleft

theorem retains_of_reads {before : Document υ} {read : Read υ} (h : Reads before read)
    (returned : Registry) : Retains before read.registry returned (replacement read returned) where
  identities := by
    refine keeps_of_read (fun key identity =>
      writeIdentity identity ((read.carried.identities.lookup key).getD [])) ?_ ?_
    · intro key raw hraw
      obtain ⟨identity, hfound, hsame⟩ := h.understands.identities key raw hraw
      exact ⟨identity, hfound, hsame _⟩
    · intro key raw value hraw
      rw [writeIdentity, h.identities key raw hraw]
      exact List.Subset.refl _
  checkouts := by
    refine keeps_of_read (fun key checkout =>
      writeCheckout checkout ((read.carried.checkouts.lookup key).getD [])) ?_ ?_
    · intro key raw hraw
      obtain ⟨checkout, hfound, hsame⟩ := h.understands.checkouts key raw hraw
      exact ⟨checkout, hfound, hsame _⟩
    · intro key raw value hraw
      rw [writeCheckout, h.checkouts key raw hraw]
      exact List.Subset.refl _
  rules hshaped hleft := hleft.trans (h.understands.rules hshaped)
  beyond := by
    rw [replacement, serialize, h.beyond]
    exact List.Subset.refl _

theorem retains_of_nothing_iff {before : Document υ} {returned : Registry} :
    Retains before empty returned (replacement ⟨empty, false, ⟨[], [], []⟩⟩ returned) ↔
      Remade before returned := by
  have hidentities := keeps_of_nothing_iff (fun raw => unspent before.declared raw.beyond)
    (SameIdentity before.declared) (before.identities.getD []) returned.identities
    (fun (_ : String) identity => (rfl : (writeIdentity identity ([] : Unknown υ)).beyond = []))
  have hcheckouts := keeps_of_nothing_iff RawCheckout.beyond SameCheckout
    (before.checkouts.getD []) returned.checkouts
    (fun (_ : String) checkout => (rfl : (writeCheckout checkout ([] : Unknown υ)).beyond = []))
  constructor
  · intro h
    exact ⟨hidentities.mp h.identities, hcheckouts.mp h.checkouts,
      fun hshaped hnone => (h.rules hshaped hnone).symm.trans hnone,
      List.subset_nil.mp h.beyond⟩
  · intro h
    refine ⟨hidentities.mpr h.identities, hcheckouts.mpr h.checkouts, fun hshaped hnone => ?_, ?_⟩
    · exact hnone.trans (h.rules hshaped hnone).symm
    · rw [h.beyond]
      exact List.nil_subset _

end Writing

section Results

variable {υ ε τ : Type} {disk : Disk υ} {change : Registry → Except ε (τ × Registry)}
  {host : Host}

/-- The registry an update is given where its read fails. -/
def nothing : Read υ := ⟨empty, false, ⟨[], [], []⟩⟩

theorem updateRead_of_unreadable (h : ¬ (disk.withheld = none ∧ disk.stored ≠ .notUtf8)) :
    updateRead disk = .ok nothing := by
  unfold updateRead readToString
  cases hwithheld : disk.withheld with
  | some why => rfl
  | none =>
    have hstored : disk.stored = .notUtf8 := by
      by_contra hne
      exact h ⟨hwithheld, hne⟩
    rw [hstored]
    rfl

theorem updateRead_of_missing (h : disk.stored = .file .missing) :
    updateRead disk = .ok nothing := by
  unfold updateRead readToString
  rw [h]
  cases disk.withheld with
  | some why => rfl
  | none => rfl

theorem safe_of_refused {refused : Refused} (h : updateRead disk = .error refused) :
    Safe disk change host := by
  cases hlocks : host.locks with
  | false =>
    apply Safe.fails .lock
    simp [update, hlocks]
  | true =>
    apply Safe.fails (.read refused)
    simp [update, hlocks, h]

theorem safe_of_read {read : Read υ} (hread : updateRead disk = .ok read)
    (hretained : ∀ outcome returned, change read.registry = .ok (outcome, returned) →
      host = ⟨true, true⟩ → RetainedBy read.registry returned disk.stored
        (.file (.document (replacement read returned)))) :
    Safe disk change host := by
  obtain ⟨locks, writes⟩ := host
  cases locks with
  | false => exact .fails .lock rfl
  | true =>
    cases hchange : change read.registry with
    | error error =>
      apply Safe.fails (.change error)
      simp [update, hread, hchange]
    | ok made =>
      obtain ⟨outcome, returned⟩ := made
      cases writes with
      | false =>
        apply Safe.fails .write
        simp [update, hread, hchange]
      | true =>
        refine .keeps outcome read returned
          ⟨.file (.document (replacement read returned)), none⟩ hread hchange ?_
          (hretained outcome returned hchange rfl)
        simp [update, hread, hchange]

theorem safe_of_readable (hwithheld : disk.withheld = none) (htext : disk.stored ≠ .notUtf8) :
    Safe disk change host := by
  cases hstored : disk.stored with
  | notUtf8 => exact absurd hstored htext
  | file file =>
    cases file with
    | missing =>
      apply safe_of_read (updateRead_of_missing hstored)
      intro outcome returned _ _
      rw [hstored]
      exact .missing _
    | notJson =>
      have hrefused : updateRead disk = .error .notJson := by
        simp [updateRead, readToString, hwithheld, hstored, readFile]
      exact safe_of_refused hrefused
    | notObject =>
      have hrefused : updateRead disk = .error .notObject := by
        simp [updateRead, readToString, hwithheld, hstored, readFile]
      exact safe_of_refused hrefused
    | document before =>
      have hfound : updateRead disk = migrate before := by
        simp [updateRead, readToString, hwithheld, hstored, readFile]
      cases hmigrate : migrate before with
      | error refused => exact safe_of_refused (hfound.trans hmigrate)
      | ok read =>
        apply safe_of_read (hfound.trans hmigrate)
        intro outcome returned _ _
        rw [hstored]
        exact .document (retains_of_reads (migrate_reads hmigrate) returned)

/-- An update either fails and leaves the bytes, or keeps every record, exactly where there is
no document, where the one there is can be read, where the lock or the write fails or the
change refuses a registry of nothing, and where what the change makes of nothing has every
record of the document anew. -/
theorem update_safe_iff (disk : Disk υ) (change : Registry → Except ε (τ × Registry))
    (host : Host) :
    Safe disk change host ↔
      disk.stored = .file .missing ∨ (disk.withheld = none ∧ disk.stored ≠ .notUtf8) ∨
      host ≠ ⟨true, true⟩ ∨ (∃ error, change empty = .error error) ∨
      ∃ before outcome returned, disk.stored = .file (.document before) ∧
        change empty = .ok (outcome, returned) ∧ Remade before returned := by
  by_cases hreadable : disk.withheld = none ∧ disk.stored ≠ .notUtf8
  · exact ⟨fun _ => .inr (.inl hreadable), fun _ => safe_of_readable hreadable.1 hreadable.2⟩
  have hread := updateRead_of_unreadable hreadable
  constructor
  · intro h
    by_cases hhost : host = ⟨true, true⟩
    · subst hhost
      cases hchange : change empty with
      | error error => exact .inr (.inr (.inr (.inl ⟨error, rfl⟩)))
      | ok made =>
        obtain ⟨outcome, returned⟩ := made
        have hupdate : update disk change ⟨true, true⟩ =
            (.ok outcome, ⟨.file (.document (replacement nothing returned)), none⟩) := by
          simp [update, hread, nothing, hchange]
        cases h with
        | fails failed hfails => cases hupdate.symm.trans hfails
        | keeps outcome' read' returned' after hread' hchange' hupdate' hretained =>
          obtain rfl := Except.ok.inj (hread.symm.trans hread')
          obtain ⟨rfl, rfl⟩ := Prod.mk.inj (Except.ok.inj (hchange.symm.trans hchange'))
          obtain rfl := (Prod.mk.inj (hupdate.symm.trans hupdate')).2
          cases hstored : disk.stored with
          | notUtf8 =>
            rw [hstored] at hretained
            cases hretained
          | file file =>
            rw [hstored] at hretained
            cases hretained with
            | missing => exact .inl rfl
            | document hretains =>
              exact .inr (.inr (.inr (.inr ⟨_, outcome, returned, rfl, rfl,
                retains_of_nothing_iff.mp hretains⟩)))
    · exact .inr (.inr (.inl hhost))
  · intro h
    apply safe_of_read hread
    intro outcome returned hchange hhost
    rcases h with hmissing | hread' | hfails | ⟨error, hrefuses⟩ |
      ⟨before, outcome', returned', hstored, hmade, hremade⟩
    · rw [hmissing]
      exact .missing _
    · exact absurd hread' hreadable
    · exact absurd hhost hfails
    · cases hrefuses.symm.trans hchange
    · obtain ⟨rfl, rfl⟩ := Prod.mk.inj (Except.ok.inj (hmade.symm.trans hchange))
      rw [hstored]
      exact .document (retains_of_nothing_iff.mpr hremade)

end Results

/-- A registry of one identity, which this process may not read. -/
def forbidden : Disk Unit :=
  ⟨.file (.document ⟨some version,
    some [("host.org/owner/first", ⟨some "origin", some "make", .unknown, .unknown, none, []⟩)],
    some [], none, []⟩), some .permission⟩

/-- Another identity is registered. -/
def registersSecond (registry : Registry) : Except Unit (Unit × Registry) :=
  .ok ((), { registry with
    identities := ("host.org/owner/second", Identity.new "origin" noopGate) ::
      registry.identities })

/-- The update succeeds, and of the document that was there nothing is left. -/
theorem forbidden_loses : ¬ Safe forbidden registersSecond ⟨true, true⟩ := by
  intro h
  cases h with
  | fails failed hfails => cases hfails
  | keeps outcome read returned after hread hchange hupdate hretained =>
    obtain rfl := Except.ok.inj hread
    obtain rfl := (Prod.mk.inj (Except.ok.inj hchange)).2
    obtain rfl := (Prod.mk.inj hupdate).2
    cases hretained with
    | document hretains =>
      rcases hretains.identities "host.org/owner/first" _ rfl with
        ⟨hgiven, -⟩ | ⟨kept, hkept, -⟩
      · cases hgiven
      · exact nomatch (show none = some kept from hkept)

end Onevcs.Store
