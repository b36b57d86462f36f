import Onevcs.Declared.Declaration

/-!
# Which declarations read back as they were rendered

What is written of each part of a declaration reads back as that part, from the identifiers and
paths outward, and no key is written that the version does not declare. The version itself is not
among what `render` checks: a declaration older than any that is read renders, and does not parse.
-/

namespace Onevcs.Declared

open Export (fromUtf8 fromUtf8_ok_iff)
open Foundations (Text bind_eq_ok exists_mapM_ok exists_of_mem_mapM_ok utf8)
open Foundations.Toml

variable {minijinja : Text → Except Text Unit} {toml : TomlLibrary}
  {declaration : Declaration minijinja}

/-- Its text, where it has one, parses to the declaration. -/
def RoundTrips (toml : TomlLibrary) (declaration : Declaration minijinja) : Prop :=
  ∀ text, render toml declaration = .ok text →
    ∀ origin, parse toml minijinja text origin = .ok declaration

/-- It has a text, and that parses to the declaration. -/
def Rerenders (toml : TomlLibrary) (declaration : Declaration minijinja) : Prop :=
  ∃ text, render toml declaration = .ok text ∧
    ∀ origin, parse toml minijinja text origin = .ok declaration

/-- The library writes the declaration's document and reads back what it wrote. -/
def LibraryReadsBack (toml : TomlLibrary) (declaration : Declaration minijinja) : Prop :=
  ∀ document, declaration.serialize = .ok document →
    ∃ text, toml.toStringPretty document = .ok text ∧ toml.fromStr text = .ok document

/-- Every path of the declaration is UTF-8. -/
structure PathsAreText (declaration : Declaration minijinja) : Prop where
  probe : ∀ path ∈ declaration.probe, (fromUtf8 path.value).isOk
  manifest : ∀ target ∈ declaration.targets, ∀ path ∈ target.manifest, (fromUtf8 path.value).isOk

/-! ## Each part reads back -/

theorem readPath_writePath : ReadsBack writePath readPath := by
  intro path value hvalue
  unfold writePath at hvalue
  split at hvalue
  · next text htext =>
    obtain rfl := Except.ok.inj hvalue
    rw [fromUtf8_ok_iff] at htext
    simp only [readPath, Value.text, bind, Except.bind, ← htext, Checked.tryFrom_value]
    rfl
  · cases hvalue

theorem omittable_writeOptionalPath {path : Option RepositoryPath} {value : Option Value}
    (h : writeOptionalPath path = .ok value) : omittable readPath value = .ok path := by
  cases path with
  | none =>
    obtain rfl := Except.ok.inj h
    rfl
  | some path =>
    cases hwritten : writePath path with
    | error failure => simp [writeOptionalPath, hwritten] at h
    | ok written =>
      simp only [writeOptionalPath, hwritten] at h
      obtain rfl := Except.ok.inj h
      exact omittable_of_written readPath_writePath hwritten

theorem mapM_ok {α β ε : Type} (f : α → β) (l : List α) :
    l.mapM (fun a => (.ok (f a) : Except ε β)) = .ok (l.map f) :=
  List.mapM_pure

theorem covers_read (ids : List RegistryId) :
    listed (Checked.read checkRegistryId)
      (unlessEmpty (ids.map fun id => Value.string id.value)) = .ok ids :=
  listed_of_mapM (Checked.readsBack checkRegistryId) (mapM_ok _ ids)

theorem instructions_read (template : Option (InstructionTemplate minijinja)) :
    omittable (Checked.read (checkTemplate minijinja))
      (template.map fun template => Value.string template.value) = .ok template := by
  cases template with
  | none => rfl
  | some template =>
    exact omittable_of_written (Checked.readsBack (checkTemplate minijinja)) rfl

theorem DeclaredTarget.deserialize_serialize :
    ReadsBack DeclaredTarget.serialize (DeclaredTarget.deserialize minijinja) := by
  intro target value hvalue
  obtain ⟨manifest, hmanifest, hvalue⟩ := bind_eq_ok.mp hvalue
  obtain rfl := Except.ok.inj hvalue
  have hnodup : ((target.written manifest).map Prod.fst).Nodup := by
    change [keyAdoptionInstructions, keyCovers, keyId, keyManifest, keyName, keyPublishedBy,
      keyWhat].Nodup
    decide
  have hfield := lookup_present hnodup
  have hid : (target.written manifest).lookup keyId = some (some (.string target.id.value)) := rfl
  have hname : (target.written manifest).lookup keyName = some (some (.string target.name.value)) :=
    rfl
  have hwhat : (target.written manifest).lookup keyWhat = some (some (.string target.what.value)) :=
    rfl
  have hby : (target.written manifest).lookup keyPublishedBy =
    some (some (.string target.publishedBy.value)) := rfl
  have hpath : (target.written manifest).lookup keyManifest = some manifest := rfl
  have hcovers : (target.written manifest).lookup keyCovers =
    some (unlessEmpty (target.covers.map fun id => .string id.value)) := rfl
  have htemplate : (target.written manifest).lookup keyAdoptionInstructions =
    some (target.adoptionInstructions.map fun template => .string template.value) := rfl
  have text {check : Text → Except Malformed Unit} (checked : Checked check) (key : Text) :
      required key (Checked.read check) (some (.string checked.value)) = .ok checked :=
    required_of_written (Checked.readsBack check) rfl key
  simp only [DeclaredTarget.deserialize, Value.fields, bind, Except.bind, hfield, hid, hname, hwhat,
    hby, hpath, hcovers, htemplate, Option.join_some, text, omittable_writeOptionalPath hmanifest,
    covers_read, instructions_read]

theorem RetiredArtifact.deserialize_serialize :
    ReadsBack RetiredArtifact.serialize RetiredArtifact.deserialize := by
  intro entry value hvalue
  obtain rfl := Except.ok.inj hvalue
  have hnodup : (entry.written.map Prod.fst).Nodup := by
    change [keyId, keyWhy].Nodup
    decide
  have hfield := lookup_present hnodup
  have hid : entry.written.lookup keyId = some (some (.string entry.id.value)) := rfl
  have hwhy : entry.written.lookup keyWhy = some (some (.string entry.why.value)) := rfl
  have text {check : Text → Except Malformed Unit} (checked : Checked check) (key : Text) :
      required key (Checked.read check) (some (.string checked.value)) = .ok checked :=
    required_of_written (Checked.readsBack check) rfl key
  simp only [RetiredArtifact.deserialize, Value.fields, bind, Except.bind, hfield, hid, hwhy,
    Option.join_some, text]

theorem readVersion_declared (declaration : Declaration minijinja) :
    readVersion (.integer declaration.declared) = .ok declaration.schemaVersion := by
  have hbound : declaration.schemaVersion.toNat < 2 ^ 32 := declaration.schemaVersion.toNat_lt
  have hfits : 0 ≤ declaration.declared ∧ declaration.declared < 2 ^ 32 := by
    constructor
    · exact Int.natCast_nonneg _
    · unfold Declaration.declared
      exact_mod_cast hbound
  rw [readVersion, if_pos hfits]
  simp [Declaration.declared]

theorem Declaration.deserialize_serialize :
    ReadsBack Declaration.serialize (Declaration.deserialize minijinja) := by
  intro declaration value hvalue
  obtain ⟨probe, hprobe, hvalue⟩ := bind_eq_ok.mp hvalue
  obtain ⟨targets, htargets, hvalue⟩ := bind_eq_ok.mp hvalue
  obtain ⟨retired, hretired, hvalue⟩ := bind_eq_ok.mp hvalue
  obtain rfl := Except.ok.inj hvalue
  have hnodup : ((declaration.written probe targets retired).map Prod.fst).Nodup := by
    change [keyProbe, keyRetired, keySchemaVersion, keyTarget].Nodup
    decide
  have hfield := lookup_present hnodup
  have hversion : (declaration.written probe targets retired).lookup keySchemaVersion =
    some (some (.integer declaration.declared)) := rfl
  have hpath : (declaration.written probe targets retired).lookup keyProbe = some probe := rfl
  have hlists : (declaration.written probe targets retired).lookup keyTarget =
      some (unlessEmpty targets) ∧
    (declaration.written probe targets retired).lookup keyRetired =
      some (unlessEmpty retired) := ⟨rfl, rfl⟩
  refine bind_eq_ok.mpr ⟨fun key _ => (present (declaration.written probe targets retired)).lookup
    key, rfl, bind_eq_ok.mpr ⟨declaration.schemaVersion, ?_, bind_eq_ok.mpr ⟨declaration.probe, ?_,
      bind_eq_ok.mpr ⟨declaration.targets, ?_, bind_eq_ok.mpr ⟨declaration.retired, ?_, rfl⟩⟩⟩⟩⟩
  · simp only [hfield, hversion]
    rw [Option.join_some, required, readVersion_declared]
  · simp only [hfield, hpath]
    exact omittable_writeOptionalPath hprobe
  · simp only [hfield, hlists.1]
    exact listed_of_mapM DeclaredTarget.deserialize_serialize htargets
  · simp only [hfield, hlists.2]
    exact listed_of_mapM RetiredArtifact.deserialize_serialize hretired

theorem declaredVersion_serialize {document : Value}
    (h : declaration.serialize = .ok document) :
    declaredVersion document = some declaration.declared := by
  obtain ⟨probe, -, h⟩ := bind_eq_ok.mp h
  obtain ⟨targets, -, h⟩ := bind_eq_ok.mp h
  obtain ⟨retired, -, h⟩ := bind_eq_ok.mp h
  obtain rfl := Except.ok.inj h
  have hnodup : ((declaration.written probe targets retired).map Prod.fst).Nodup := by
    change [keyProbe, keyRetired, keySchemaVersion, keyTarget].Nodup
    decide
  have hlookup : (present (declaration.written probe targets retired)).lookup keySchemaVersion =
      some (.integer declaration.declared) := by
    rw [lookup_present hnodup]
    rfl
  simp only [declaredVersion, hlookup]

/-! ## No other key is written -/

theorem refuseKeys_ok {declared : ℤ} {table : Option (Text × ℕ)} {keys newest : List Text}
    {entries : List (Text × Value)} (h : ∀ entry ∈ entries, entry.1 ∈ keys) :
    refuseKeys declared table keys newest entries = .ok () := by
  have hnone : (entries.map Prod.fst).find? (fun key => !keys.contains key) = none := by
    rw [List.find?_eq_none]
    intro key hkey
    obtain ⟨entry, hentry, rfl⟩ := List.mem_map.mp hkey
    simpa using h entry hentry
  rw [refuseKeys, hnone]

/-- A key that a newer version names is refused as one. -/
example : refuseKeys 1 none ["a".toList] ["b".toList] [("b".toList, .integer 0)] =
    .error (.unknownKey "b".toList none 1 true) := by decide +kernel

theorem refuseEntries_ok {declared : ℤ} {array : Text} {keys newest : List Text} {i : ℕ}
    {values : List Value}
    (h : ∀ entries, .table entries ∈ values → ∀ entry ∈ entries, entry.1 ∈ keys) :
    refuseEntries declared array keys newest i values = .ok () := by
  induction values generalizing i with
  | nil => rfl
  | cons value rest ih =>
    have hrest := ih (i := i + 1) fun entries hentries =>
      h entries (List.mem_cons_of_mem _ hentries)
    cases value with
    | table entries =>
      simp only [refuseEntries, refuseKeys_ok (h entries List.mem_cons_self), bind, Except.bind,
        hrest]
    | string text => exact hrest
    | integer value => exact hrest
    | scalar written => exact hrest
    | array items => exact hrest

theorem refuseArray_ok {declared : ℤ} {array : Text} {keys newest : List Text}
    {top : List (Text × Value)} {values : List Value}
    (hlookup : top.lookup array = unlessEmpty values)
    (h : ∀ entries, .table entries ∈ values → ∀ entry ∈ entries, entry.1 ∈ keys) :
    refuseArray declared array keys newest top = .ok () := by
  cases values with
  | nil =>
    have hnone : top.lookup array = none := hlookup
    rw [refuseArray, hnone]
  | cons value rest =>
    have hsome : top.lookup array = some (.array (value :: rest)) := hlookup
    rw [refuseArray, hsome]
    exact refuseEntries_ok h

/-- The keys written of a target are those of a version that declares what it carries. -/
theorem DeclaredTarget.keys_serialize {target : DeclaredTarget minijinja} {declared : ℤ}
    (hdeclares : instructionSchemaVersion ≤ declared ∨ target.adoptionInstructions = none)
    {entries : List (Text × Value)} (h : target.serialize = .ok (.table entries)) :
    ∀ entry ∈ entries, entry.1 ∈ targetKeysAt declared := by
  obtain ⟨manifest, -, h⟩ := bind_eq_ok.mp h
  obtain rfl := Value.table.inj (Except.ok.inj h)
  intro entry hentry
  have hwritten := mem_present_key hentry
  have hkey : entry.1 ∈ targetKeysAt3 := by
    have hmem : entry.1 ∈ (target.written manifest).map Prod.fst :=
      List.mem_map_of_mem (f := Prod.fst) hwritten
    have hall : ∀ key ∈ [keyAdoptionInstructions, keyCovers, keyId, keyManifest, keyName,
      keyPublishedBy, keyWhat], key ∈ targetKeysAt3 := by decide
    exact hall _ hmem
  by_cases hversion : instructionSchemaVersion ≤ declared
  · rw [targetKeysAt, if_pos hversion]
    exact hkey
  · rw [targetKeysAt, if_neg hversion]
    have hnone := hdeclares.resolve_left hversion
    have hne : entry.1 ≠ keyAdoptionInstructions := by
      intro heq
      rw [heq, DeclaredTarget.written, hnone] at hwritten
      have hkeys : ∀ key ∈ [keyCovers, keyId, keyManifest, keyName, keyPublishedBy, keyWhat],
        keyAdoptionInstructions ≠ key := by decide
      rcases List.mem_cons.mp hwritten with hfirst | hrest
      · simp at hfirst
      · exact hkeys _ (List.mem_map_of_mem (f := Prod.fst) hrest) rfl
    have hrest : ∀ key ∈ targetKeysAt3, key ≠ keyAdoptionInstructions → key ∈ targetKeys := by decide
    exact hrest _ hkey hne

theorem RetiredArtifact.keys_serialize {entry : RetiredArtifact} {entries : List (Text × Value)}
    (h : entry.serialize = .ok (.table entries)) : ∀ field ∈ entries, field.1 ∈ retiredKeys := by
  obtain rfl := Value.table.inj (Except.ok.inj h)
  intro field hfield
  exact List.mem_map_of_mem (f := Prod.fst) (mem_present_key hfield)

theorem refuseUnknownKeys_serialize {document : Value} (h : declaration.serialize = .ok document)
    (hinstructed : instructionSchemaVersion ≤ declaration.declared ∨
      ∀ target ∈ declaration.targets, target.adoptionInstructions = none) :
    refuseUnknownKeys document declaration.declared = .ok () := by
  obtain ⟨probe, hprobe, h⟩ := bind_eq_ok.mp h
  obtain ⟨targets, htargets, h⟩ := bind_eq_ok.mp h
  obtain ⟨retired, hretired, h⟩ := bind_eq_ok.mp h
  obtain rfl := Except.ok.inj h
  have hnodup : ((declaration.written probe targets retired).map Prod.fst).Nodup := by
    change [keyProbe, keyRetired, keySchemaVersion, keyTarget].Nodup
    decide
  have htop : ∀ entry ∈ present (declaration.written probe targets retired),
      entry.1 ∈ topLevelKeys := by
    intro entry hentry
    have hall : ∀ key ∈ [keyProbe, keyRetired, keySchemaVersion, keyTarget],
      key ∈ topLevelKeys := by decide
    exact hall _ (List.mem_map_of_mem (f := Prod.fst) (mem_present_key hentry))
  have hlookup := lookup_present hnodup
  have htarget : refuseArray declaration.declared keyTarget (targetKeysAt declaration.declared)
      targetKeysAt3 (present (declaration.written probe targets retired)) = .ok () := by
    refine refuseArray_ok ((hlookup keyTarget).trans rfl) fun entries hentries => ?_
    obtain ⟨target, hmem, hserialize⟩ := exists_of_mem_mapM_ok htargets hentries
    exact DeclaredTarget.keys_serialize (hinstructed.imp_right fun hnone => hnone target hmem)
      hserialize
  have hretiredKeys : refuseArray declaration.declared keyRetired retiredKeys retiredKeys
      (present (declaration.written probe targets retired)) = .ok () := by
    refine refuseArray_ok ((hlookup keyRetired).trans rfl) fun entries hentries => ?_
    obtain ⟨entry, -, hserialize⟩ := exists_of_mem_mapM_ok hretired hentries
    exact RetiredArtifact.keys_serialize hserialize
  simp only [refuseUnknownKeys, refuseKeys_ok htop, htarget, hretiredKeys, bind, Except.bind]

theorem instructed_of_validate (h : validate declaration = .ok ()) :
    instructionSchemaVersion ≤ declaration.declared ∨
      ∀ target ∈ declaration.targets, target.adoptionInstructions = none := by
  unfold validate at h
  split at h
  · cases h
  · obtain ⟨_, -, h⟩ := bind_eq_ok.mp h
    obtain ⟨_, hinstructed, -⟩ := bind_eq_ok.mp h
    unfold instructed at hinstructed
    split at hinstructed
    · next hversion => exact .inl hversion
    · split at hinstructed
      · next hnone =>
        refine .inr fun target htarget => ?_
        simpa using List.findIdx?_eq_none_iff.mp hnone target htarget
      · cases hinstructed

theorem declarationOf_serialize {document : Value} (h : declaration.serialize = .ok document)
    (hvalid : validate declaration = .ok ()) (hversion : oldestSchemaVersion ≤ declaration.declared) :
    declarationOf minijinja document = .ok declaration := by
  have hshape := Declaration.deserialize_serialize declaration document h
  have hkeys := refuseUnknownKeys_serialize h (instructed_of_validate hvalid)
  simp only [declarationOf, declaredVersion_serialize h, if_neg (Int.not_lt.mpr hversion), hshape,
    hvalid, hkeys, bind, Except.bind]
  split <;> rfl

theorem writePath_ok_iff {path : RepositoryPath} :
    (∃ value, writePath path = .ok value) ↔ (fromUtf8 path.value).isOk := by
  unfold writePath
  cases fromUtf8 path.value with
  | ok text => simp [Except.isOk, Except.toBool]
  | error failure => simp [Except.isOk, Except.toBool]

theorem writeOptionalPath_ok_iff {given : Option RepositoryPath} :
    (∃ value, writeOptionalPath given = .ok value) ↔
      ∀ path ∈ given, (fromUtf8 path.value).isOk := by
  cases given with
  | none => simp [writeOptionalPath]
  | some path =>
    simp only [Option.mem_def, Option.some.injEq, forall_eq', ← writePath_ok_iff,
      writeOptionalPath]
    cases writePath path with
    | ok value => simp
    | error failure => simp

theorem DeclaredTarget.serialize_ok_iff {target : DeclaredTarget minijinja} :
    (∃ value, target.serialize = .ok value) ↔
      ∀ path ∈ target.manifest, (fromUtf8 path.value).isOk := by
  rw [← writeOptionalPath_ok_iff]
  constructor
  · rintro ⟨value, hvalue⟩
    obtain ⟨manifest, hmanifest, -⟩ := bind_eq_ok.mp hvalue
    exact ⟨manifest, hmanifest⟩
  · rintro ⟨manifest, hmanifest⟩
    exact ⟨_, bind_eq_ok.mpr ⟨manifest, hmanifest, rfl⟩⟩

theorem Declaration.serialize_ok_iff :
    (∃ document, declaration.serialize = .ok document) ↔ PathsAreText declaration := by
  constructor
  · rintro ⟨document, h⟩
    obtain ⟨probe, hprobe, h⟩ := bind_eq_ok.mp h
    obtain ⟨targets, htargets, -⟩ := bind_eq_ok.mp h
    refine ⟨writeOptionalPath_ok_iff.mp ⟨probe, hprobe⟩, fun target htarget => ?_⟩
    obtain ⟨value, -, hvalue⟩ := Foundations.exists_of_mapM_ok htargets htarget
    exact DeclaredTarget.serialize_ok_iff.mp ⟨value, hvalue⟩
  · rintro ⟨hprobe, htargets⟩
    obtain ⟨probe, hprobe⟩ := writeOptionalPath_ok_iff.mpr hprobe
    obtain ⟨targets, htargets⟩ := exists_mapM_ok fun target htarget =>
      DeclaredTarget.serialize_ok_iff.mpr (htargets target htarget)
    exact ⟨_, bind_eq_ok.mpr ⟨probe, hprobe, bind_eq_ok.mpr ⟨targets, htargets, bind_eq_ok.mpr
      ⟨_, mapM_ok (fun entry : RetiredArtifact => Value.table (present entry.written))
        declaration.retired, rfl⟩⟩⟩⟩

/-! ## What is read -/

theorem readPath_isText {value : Value} {path : RepositoryPath} (h : readPath value = .ok path) :
    (fromUtf8 path.value).isOk := by
  obtain ⟨text, -, h⟩ := bind_eq_ok.mp h
  cases hpath : Checked.tryFrom checkPath (utf8.encodeAll text) with
  | error failure => rw [hpath] at h; cases h
  | ok read =>
    rw [hpath] at h
    obtain rfl : read = path := Except.ok.inj h
    rw [fromUtf8_ok_iff.mpr (Checked.value_of_tryFrom hpath)]
    rfl

theorem omittable_readPath_isText {value : Option Value} {given : Option RepositoryPath}
    (h : omittable readPath value = .ok given) : ∀ path ∈ given, (fromUtf8 path.value).isOk := by
  cases value with
  | none =>
    obtain rfl := Except.ok.inj h
    simp
  | some value =>
    cases hread : readPath value with
    | error failure => simp [omittable, hread] at h
    | ok read =>
      simp only [omittable, hread] at h
      obtain rfl := Except.ok.inj h
      rintro _ ⟨⟩
      exact readPath_isText hread

theorem DeclaredTarget.deserialize_isText {value : Value} {target : DeclaredTarget minijinja}
    (h : DeclaredTarget.deserialize minijinja value = .ok target) :
    ∀ path ∈ target.manifest, (fromUtf8 path.value).isOk := by
  obtain ⟨field, -, h⟩ := bind_eq_ok.mp h
  obtain ⟨id, -, h⟩ := bind_eq_ok.mp h
  obtain ⟨name, -, h⟩ := bind_eq_ok.mp h
  obtain ⟨what, -, h⟩ := bind_eq_ok.mp h
  obtain ⟨publishedBy, -, h⟩ := bind_eq_ok.mp h
  obtain ⟨manifest, hmanifest, h⟩ := bind_eq_ok.mp h
  obtain ⟨covers, -, h⟩ := bind_eq_ok.mp h
  obtain ⟨instructions, -, h⟩ := bind_eq_ok.mp h
  obtain rfl := Except.ok.inj h
  exact omittable_readPath_isText hmanifest

theorem Declaration.pathsAreText_of_deserialize {document : Value}
    (h : Declaration.deserialize minijinja document = .ok declaration) :
    PathsAreText declaration := by
  obtain ⟨field, -, h⟩ := bind_eq_ok.mp h
  obtain ⟨version, -, h⟩ := bind_eq_ok.mp h
  obtain ⟨probe, hprobe, h⟩ := bind_eq_ok.mp h
  obtain ⟨targets, htargets, h⟩ := bind_eq_ok.mp h
  obtain ⟨retired, -, h⟩ := bind_eq_ok.mp h
  obtain rfl := Except.ok.inj h
  exact ⟨omittable_readPath_isText hprobe, forall_of_listed
    (fun _ _ => DeclaredTarget.deserialize_isText) htargets⟩

theorem declaredVersion_of_deserialize {document : Value} {declared : ℤ}
    (h : Declaration.deserialize minijinja document = .ok declaration)
    (hdeclared : declaredVersion document = some declared) : declaration.declared = declared := by
  obtain ⟨field, hfield, h⟩ := bind_eq_ok.mp h
  obtain ⟨version, hversion, h⟩ := bind_eq_ok.mp h
  obtain ⟨_, -, h⟩ := bind_eq_ok.mp h
  obtain ⟨_, -, h⟩ := bind_eq_ok.mp h
  obtain ⟨_, -, h⟩ := bind_eq_ok.mp h
  obtain rfl := Except.ok.inj h
  cases document with
  | table entries =>
    obtain rfl := Except.ok.inj hfield
    dsimp only [declaredVersion] at hdeclared
    split at hdeclared
    · next value hlookup =>
      obtain rfl := Option.some.inj hdeclared
      simp only [hlookup, required, readVersion] at hversion
      split at hversion
      · next hfits =>
        obtain rfl := Except.ok.inj hversion
        have hlt : value.toNat < UInt32.size := by
          simp only [UInt32.size]
          omega
        simp only [Declaration.declared, UInt32.toNat_ofNat_of_lt' hlt]
        omega
      · cases hversion
    · cases hdeclared
  | string text => cases hdeclared
  | integer value => cases hdeclared
  | scalar written => cases hdeclared
  | array items => cases hdeclared

theorem declarationOf_ok {document : Value}
    (h : declarationOf minijinja document = .ok declaration) :
    oldestSchemaVersion ≤ declaration.declared ∧
      Declaration.deserialize minijinja document = .ok declaration ∧
      validate declaration = .ok () := by
  unfold declarationOf at h
  split at h
  · cases h
  · next declared hdeclared =>
    split at h
    · cases h
    · next hold =>
      cases hread : Declaration.deserialize minijinja document with
      | error failure =>
        simp only [hread] at h
        split at h
        · obtain ⟨_, -, h⟩ := bind_eq_ok.mp h
          cases h
        · cases h
      | ok read =>
        -- whether or not its keys are known, what was read is validated
        have hlast : (validate read >>= fun _ => .ok read) = Except.ok declaration := by
          simp only [hread] at h
          split at h
          · obtain ⟨_, -, h⟩ := bind_eq_ok.mp h
            exact h
          · exact h
        obtain ⟨_, hvalid, hlast⟩ := bind_eq_ok.mp hlast
        obtain rfl := Except.ok.inj hlast
        refine ⟨?_, rfl, hvalid⟩
        rw [declaredVersion_of_deserialize hread hdeclared]
        exact Int.not_lt.mp hold

theorem about_ok {α : Type} {origin : Text} {x : Except Why α} {a : α} :
    about origin x = .ok a ↔ x = .ok a := by
  cases x <;> simp [about, Except.mapError]

theorem mapError_ok {ε ε' α : Type} {f : ε → ε'} {x : Except ε α} {a : α} :
    x.mapError f = .ok a ↔ x = .ok a := by
  cases x <;> simp [Except.mapError]

theorem parse_ok_iff {raw origin : Text} :
    parse toml minijinja raw origin = .ok declaration ↔
      ∃ document, toml.fromStr raw = .ok document ∧
        declarationOf minijinja document = .ok declaration := by
  rw [parse, about_ok]
  exact bind_eq_ok.trans (exists_congr fun document => and_congr_left' mapError_ok)

theorem render_ok_iff {text : Text} :
    render toml declaration = .ok text ↔ validate declaration = .ok () ∧
      ∃ document, declaration.serialize = .ok document ∧
        toml.toStringPretty document = .ok text := by
  rw [render, about_ok, bind_eq_ok]
  constructor
  · rintro ⟨_, hvalid, h⟩
    exact ⟨hvalid, bind_eq_ok.mp (mapError_ok.mp h)⟩
  · rintro ⟨hvalid, h⟩
    exact ⟨(), hvalid, mapError_ok.mpr (bind_eq_ok.mpr h)⟩

theorem oldest_le_of_parse {raw origin : Text}
    (h : parse toml minijinja raw origin = .ok declaration) :
    oldestSchemaVersion ≤ declaration.declared := by
  obtain ⟨document, -, h⟩ := parse_ok_iff.mp h
  exact (declarationOf_ok h).1

/-- A declaration that is valid, of a version that is read, and whose paths are text renders to a
text that parses to it. -/
theorem rerenders (h : LibraryReadsBack toml declaration) (hvalid : validate declaration = .ok ())
    (hpaths : PathsAreText declaration) (hversion : oldestSchemaVersion ≤ declaration.declared) :
    Rerenders toml declaration := by
  obtain ⟨document, hdocument⟩ := Declaration.serialize_ok_iff.mpr hpaths
  obtain ⟨text, htext, hread⟩ := h document hdocument
  refine ⟨text, render_ok_iff.mpr ⟨hvalid, document, hdocument, htext⟩, fun origin => ?_⟩
  exact parse_ok_iff.mpr ⟨document, hread, declarationOf_serialize hdocument hvalid hversion⟩

/-- What renders reads back exactly where its version is one that is read; and what is read of a
version whose keys are known renders, and reads back. -/
theorem roundTrips_iff (h : LibraryReadsBack toml declaration) :
    (RoundTrips toml declaration ↔ (validate declaration = .ok () → PathsAreText declaration →
      oldestSchemaVersion ≤ declaration.declared)) ∧
    ∀ raw origin, parse toml minijinja raw origin = .ok declaration →
      keysAreKnownAt declaration.declared → Rerenders toml declaration := by
  refine ⟨⟨?_, ?_⟩, ?_⟩
  · intro hround hvalid hpaths
    obtain ⟨document, hdocument⟩ := Declaration.serialize_ok_iff.mpr hpaths
    obtain ⟨text, htext, -⟩ := h document hdocument
    exact oldest_le_of_parse
      (hround text (render_ok_iff.mpr ⟨hvalid, document, hdocument, htext⟩) [])
  · intro hversion text htext
    obtain ⟨hvalid, document, hdocument, hwritten⟩ := render_ok_iff.mp htext
    have hpaths := Declaration.serialize_ok_iff.mp ⟨document, hdocument⟩
    obtain ⟨again, hagain, hparse⟩ := rerenders h hvalid hpaths (hversion hvalid hpaths)
    obtain rfl : again = text := Except.ok.inj (hagain.symm.trans htext)
    exact hparse
  · intro raw origin hparse _
    obtain ⟨document, -, hdocument⟩ := parse_ok_iff.mp hparse
    obtain ⟨hversion, hread, hvalid⟩ := declarationOf_ok hdocument
    exact rerenders h hvalid (Declaration.pathsAreText_of_deserialize hread) hversion

section Samples

/-- A declaration of one target. -/
def onevcs (version : UInt32) : Declaration fun _ => .ok () where
  schemaVersion := version
  probe := none
  targets :=
    [{ id := ⟨"crate:onevcs".toList, rfl⟩
       name := ⟨"crate".toList, rfl⟩
       what := ⟨"The library.".toList, rfl⟩
       publishedBy := ⟨"publish.yml".toList, rfl⟩
       manifest := none
       covers := []
       adoptionInstructions := none }]
  retired := []

/-- Its document, as the library reads it. -/
def onevcsDocument (version : UInt32) : Value :=
  .table
    [(keySchemaVersion, .integer version.toNat),
      (keyTarget, .array [.table [(keyId, .string "crate:onevcs".toList),
        (keyName, .string "crate".toList), (keyPublishedBy, .string "publish.yml".toList),
        (keyWhat, .string "The library.".toList)]])]

/-- And its text, of a version of one digit. -/
def onevcsText (version : UInt32) : Text :=
  "schema_version = ".toList ++ [Nat.digitChar version.toNat] ++
    "\n\n[[target]]\nid = \"crate:onevcs\"\nname = \"crate\"\nwhat = \"The library.\"\n".toList ++
    "published_by = \"publish.yml\"\n".toList

/-- A library that writes and reads the one document. -/
def onevcsToml (version : UInt32) : TomlLibrary where
  fromStr text :=
    if text = onevcsText version then .ok (onevcsDocument version)
    else .error "expected a key".toList
  toStringPretty _ := .ok (onevcsText version)

theorem onevcs_serialize (version : UInt32) :
    (onevcs version).serialize = .ok (onevcsDocument version) := rfl

theorem onevcs_readsBack (version : UInt32) :
    LibraryReadsBack (onevcsToml version) (onevcs version) := by
  intro document hdocument
  obtain rfl := Except.ok.inj (hdocument.symm.trans (onevcs_serialize version))
  exact ⟨onevcsText version, rfl, if_pos rfl⟩

/-- A declaration of version 0 renders, and its text does not parse. -/
theorem version_zero_unread :
    LibraryReadsBack (onevcsToml 0) (onevcs 0) ∧ ¬ RoundTrips (onevcsToml 0) (onevcs 0) := by
  refine ⟨onevcs_readsBack 0, fun hround => ?_⟩
  have hrender : render (onevcsToml 0) (onevcs 0) = .ok (onevcsText 0) :=
    render_ok_iff.mpr ⟨rfl, onevcsDocument 0, onevcs_serialize 0, rfl⟩
  exact absurd (oldest_le_of_parse (hround _ hrender [])) (by decide)

/-- One of version 3 is answered as it was. -/
theorem version_three_roundTrips : RoundTrips (onevcsToml 3) (onevcs 3) :=
  (roundTrips_iff (onevcs_readsBack 3)).1.mpr fun _ _ => by decide

end Samples

end Onevcs.Declared
