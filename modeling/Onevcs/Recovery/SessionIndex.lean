import Mathlib.Data.List.Nodup
import Onevcs.Recovery.SessionRead

/-!
# What the session index says

A hint is accurate in its tables where the file it is held to, with the stamp it is held to, is a
record that says the same. Making a hint, keeping one whose stamp is still the file's and storing
hints with only the values they use all keep that, and an identity keeps one place, so that two
hints have one place for their identities exactly where their records share it.
-/

namespace Onevcs.Recovery

open Foundations (Text bind_eq_ok)
open scoped List

variable {σ ρ : Type} {document : Text → σ → Except Text (Record ρ)}

/-- A file of this name and stamp is the usable record of its token. -/
structure Reads (document : Text → σ → Except Text (Record ρ)) (token : Text) (stamp : σ)
    (record : Record ρ) : Prop where
  isSafe : isSafeName token = true
  document : document token stamp = .ok record
  usable : usable token record = .ok ()

/-- What a hint says is what its file says. -/
structure Accurate (document : Text → σ → Except Text (Record ρ)) (tables : Tables)
    (hint : Hint σ) (record : Record ρ) : Prop where
  reads : Reads document hint.token hint.stamp record
  identity : tables.identities[hint.identity]? = some record.identity
  branch : hint.branch = record.branch
  clone : hint.clone = record.clone
  checkout : tables.checkouts[hint.checkout]? = some record.executionCheckout
  labels : tables.labels[hint.labels]? = some record.labels

/-- An index whose hints are all accurate, and which has each identity once. -/
structure AccurateIndex (document : Text → σ → Except Text (Record ρ)) (tables : Tables)
    (hints : List (Hint σ)) : Prop where
  nodup : tables.identities.Nodup
  accurate : ∀ hint ∈ hints, ∃ record, Accurate document tables hint record

theorem usable_token {token : Text} {record : Record ρ} (h : usable token record = .ok ()) :
    record.token = token := by
  unfold usable at h
  split at h
  · cases h
  · split at h
    · cases h
    · next htoken => exact not_not.mp htoken

theorem Reads.token {token : Text} {stamp : σ} {record : Record ρ}
    (h : Reads document token stamp record) : record.token = token :=
  usable_token h.usable

/-! ## Places in tables -/

theorem getElem?_of_prefix {α : Type} {values others : List α} (h : values <+: others)
    {place : ℕ} {value : α} (hvalue : values[place]? = some value) :
    others[place]? = some value := by
  obtain ⟨hlt, rfl⟩ := List.getElem?_eq_some_iff.mp hvalue
  exact List.prefix_iff_getElem?.mp h place hlt

section Interning

variable {α : Type} [DecidableEq α] (values : List α) (value : α)

theorem intern_cases :
    (∃ place, intern values value = (values, place) ∧ values[place]? = some value) ∨
      (value ∉ values ∧ intern values value = (values ++ [value], values.length)) := by
  unfold intern
  split
  · next entry hfound =>
    have hmem := List.mem_reverse.mp (List.mem_of_find?_eq_some hfound)
    have hvalue : entry.1 = value := by simpa using List.find?_some hfound
    refine .inl ⟨entry.2, rfl, ?_⟩
    rw [← hvalue]
    exact List.mk_mem_zipIdx_iff_getElem?.mp hmem
  · next hnone =>
    refine .inr ⟨fun hmem => ?_, rfl⟩
    obtain ⟨place, hplace⟩ := List.mem_iff_getElem?.mp hmem
    have hentry : (value, place) ∈ values.zipIdx.reverse :=
      List.mem_reverse.mpr (List.mk_mem_zipIdx_iff_getElem?.mpr hplace)
    simpa using List.find?_eq_none.mp hnone _ hentry

theorem intern_getElem? : (intern values value).1[(intern values value).2]? = some value := by
  obtain ⟨place, heq, hplace⟩ | ⟨-, heq⟩ := intern_cases values value
  · rw [heq]
    exact hplace
  · simp [heq]

theorem prefix_intern : values <+: (intern values value).1 := by
  obtain ⟨_, heq, -⟩ | ⟨-, heq⟩ := intern_cases values value
  · exact ⟨[], by rw [heq, List.append_nil]⟩
  · exact ⟨[value], by rw [heq]⟩

theorem intern_nodup {values : List α} (h : values.Nodup) : (intern values value).1.Nodup := by
  obtain ⟨_, heq, -⟩ | ⟨hnew, heq⟩ := intern_cases values value
  · rw [heq]
    exact h
  · rw [heq]
    simpa using h.concat hnew

end Interning

/-- Every value of the tables keeps its place. -/
structure Tables.Extends (tables others : Tables) : Prop where
  identities : tables.identities <+: others.identities
  checkouts : tables.checkouts <+: others.checkouts
  labels : tables.labels <+: others.labels

theorem Tables.Extends.refl (tables : Tables) : tables.Extends tables :=
  ⟨List.prefix_rfl, List.prefix_rfl, List.prefix_rfl⟩

theorem Tables.Extends.trans {tables others more : Tables} (h : tables.Extends others)
    (hmore : others.Extends more) : tables.Extends more where
  identities := h.identities.trans hmore.identities
  checkouts := h.checkouts.trans hmore.checkouts
  labels := h.labels.trans hmore.labels

theorem Accurate.extend {tables others : Tables} {hint : Hint σ} {record : Record ρ}
    (h : Accurate document tables hint record) (hextends : tables.Extends others) :
    Accurate document others hint record where
  reads := h.reads
  identity := getElem?_of_prefix hextends.identities h.identity
  branch := h.branch
  clone := h.clone
  checkout := getElem?_of_prefix hextends.checkouts h.checkout
  labels := getElem?_of_prefix hextends.labels h.labels

section Hints

variable (tables : Tables) (stamp : σ) (record : Record ρ)

theorem Tables.hint_extends : tables.Extends (tables.hint stamp record).1 where
  identities := prefix_intern _ _
  checkouts := prefix_intern _ _
  labels := prefix_intern _ _

theorem Tables.hint_nodup (h : tables.identities.Nodup) :
    (tables.hint stamp record).1.identities.Nodup :=
  intern_nodup _ h

theorem Tables.hint_accurate {token : Text} (h : Reads document token stamp record) :
    Accurate document (tables.hint stamp record).1 (tables.hint stamp record).2 record where
  reads := by
    rw [← h.token] at h
    exact h
  identity := intern_getElem? _ _
  branch := rfl
  clone := rfl
  checkout := intern_getElem? _ _
  labels := intern_getElem? _ _

end Hints

/-! ## Storing only the values that are used -/

theorem usedAt_getElem? (used : List ℕ) (place : ℕ) :
    (usedAt used place).1[(usedAt used place).2]? = some place := by
  unfold usedAt
  split
  · next hused =>
    exact List.getElem?_eq_some_iff.mpr
      ⟨List.idxOf_lt_length_of_mem hused, List.getElem_idxOf (List.idxOf_lt_length_of_mem hused)⟩
  · simp

theorem prefix_usedAt (used : List ℕ) (place : ℕ) : used <+: (usedAt used place).1 := by
  unfold usedAt
  split
  · exact List.prefix_rfl
  · exact List.prefix_append _ _

theorem usedAt_nodup {used : List ℕ} (h : used.Nodup) (place : ℕ) :
    (usedAt used place).1.Nodup := by
  unfold usedAt
  split
  · exact h
  · next hnew => simpa using h.concat hnew

theorem mem_usedAt {used : List ℕ} {place index : ℕ} (h : index ∈ (usedAt used place).1) :
    index ∈ used ∨ index = place := by
  unfold usedAt at h
  split at h
  · exact .inl h
  · simpa using h

theorem getElem?_filterMap_places {α : Type} {values : List α} {used : List ℕ}
    (h : ∀ place ∈ used, place < values.length) (index : ℕ) :
    (used.filterMap fun place => values[place]?)[index]? =
      (used[index]?).bind fun place => values[place]? := by
  induction used generalizing index with
  | nil => simp
  | cons place rest ih =>
    rw [List.forall_mem_cons] at h
    rw [List.filterMap_cons_some (List.getElem?_eq_getElem h.1)]
    cases index with
    | zero => simp [List.getElem?_eq_getElem h.1]
    | succ index => simpa using ih h.2 index

theorem nodup_filterMap_places {α : Type} {values : List α} (hvalues : values.Nodup)
    {used : List ℕ} (hused : used.Nodup) :
    (used.filterMap fun place => values[place]?).Nodup := by
  apply List.Nodup.filterMap _ hused
  intro place other value hplace hother
  have hlt : place < values.length := (List.getElem?_eq_some_iff.mp hplace).1
  exact (List.getElem?_inj hlt hvalues).mp (hplace.trans hother.symm)

/-- The places used are places of the tables, and each identity's is there once. -/
structure Uses (used : List ℕ × List ℕ × List ℕ) (tables : Tables) : Prop where
  nodup : used.1.Nodup
  identities : ∀ place ∈ used.1, place < tables.identities.length
  checkouts : ∀ place ∈ used.2.1, place < tables.checkouts.length
  labels : ∀ place ∈ used.2.2, place < tables.labels.length

/-- A hint as it is stored: its places are places among those that are used. -/
structure Stored (used : List ℕ × List ℕ × List ℕ) (hint stored : Hint σ) : Prop where
  token : stored.token = hint.token
  stamp : stored.stamp = hint.stamp
  branch : stored.branch = hint.branch
  clone : stored.clone = hint.clone
  identity : used.1[stored.identity]? = some hint.identity
  checkout : used.2.1[stored.checkout]? = some hint.checkout
  labels : used.2.2[stored.labels]? = some hint.labels

/-- What `storeHints` answers: places that go on from those used before, and each hint with its
places among them. -/
structure StoredFrom (used : List ℕ × List ℕ × List ℕ) (tables : Tables) (fresh : List (Hint σ))
    (result : (List ℕ × List ℕ × List ℕ) × List (Hint σ)) : Prop where
  identities : used.1 <+: result.1.1
  checkouts : used.2.1 <+: result.1.2.1
  labels : used.2.2 <+: result.1.2.2
  uses : Uses result.1 tables
  stored : ∀ stored ∈ result.2, ∃ hint ∈ fresh, Stored result.1 hint stored

theorem Accurate.inBounds {tables : Tables} {hint : Hint σ} {record : Record ρ}
    (h : Accurate document tables hint record) :
    hint.identity < tables.identities.length ∧ hint.checkout < tables.checkouts.length ∧
      hint.labels < tables.labels.length :=
  ⟨(List.getElem?_eq_some_iff.mp h.identity).1, (List.getElem?_eq_some_iff.mp h.checkout).1,
    (List.getElem?_eq_some_iff.mp h.labels).1⟩

theorem Uses.usedAt {used : List ℕ × List ℕ × List ℕ} {tables : Tables} (h : Uses used tables)
    {hint : Hint σ} {record : Record ρ} (hint_accurate : Accurate document tables hint record) :
    Uses ((Recovery.usedAt used.1 hint.identity).1, (Recovery.usedAt used.2.1 hint.checkout).1,
      (Recovery.usedAt used.2.2 hint.labels).1) tables := by
  obtain ⟨hidentity, hcheckout, hlabels⟩ := hint_accurate.inBounds
  refine ⟨usedAt_nodup h.nodup _, fun place hplace => ?_, fun place hplace => ?_,
    fun place hplace => ?_⟩
  · rcases mem_usedAt hplace with hplace | rfl
    · exact h.identities place hplace
    · exact hidentity
  · rcases mem_usedAt hplace with hplace | rfl
    · exact h.checkouts place hplace
    · exact hcheckout
  · rcases mem_usedAt hplace with hplace | rfl
    · exact h.labels place hplace
    · exact hlabels

theorem storeHints_storedFrom {tables : Tables} {fresh : List (Hint σ)}
    (hfresh : ∀ hint ∈ fresh, ∃ record, Accurate document tables hint record)
    {used : List ℕ × List ℕ × List ℕ} (hused : Uses used tables) :
    StoredFrom used tables fresh (storeHints used fresh) := by
  induction fresh generalizing used with
  | nil => exact ⟨List.prefix_rfl, List.prefix_rfl, List.prefix_rfl, hused, nofun⟩
  | cons hint rest ih =>
    rw [List.forall_mem_cons] at hfresh
    obtain ⟨⟨record, hrecord⟩, hrest⟩ := hfresh
    have hgoes := ih hrest (hused.usedAt hrecord)
    refine ⟨(prefix_usedAt _ _).trans hgoes.identities, (prefix_usedAt _ _).trans hgoes.checkouts,
      (prefix_usedAt _ _).trans hgoes.labels, hgoes.uses, fun stored hstored => ?_⟩
    rcases List.mem_cons.mp hstored with rfl | hstored
    · exact ⟨hint, List.mem_cons_self, rfl, rfl, rfl, rfl,
        getElem?_of_prefix hgoes.identities (usedAt_getElem? _ _),
        getElem?_of_prefix hgoes.checkouts (usedAt_getElem? _ _),
        getElem?_of_prefix hgoes.labels (usedAt_getElem? _ _)⟩
    · obtain ⟨held, hheld, hstored⟩ := hgoes.stored stored hstored
      exact ⟨held, List.mem_cons_of_mem _ hheld, hstored⟩

theorem storeIndex_accurate {tables : Tables} {fresh : List (Hint σ)}
    (h : AccurateIndex document tables fresh) (directory : Text) :
    AccurateIndex document (storeIndex directory tables fresh).tables
      (storeIndex directory tables fresh).hints := by
  have hnothing : Uses ([], [], []) tables := ⟨List.nodup_nil, nofun, nofun, nofun⟩
  have hfrom := storeHints_storedFrom h.accurate hnothing
  refine ⟨nodup_filterMap_places h.nodup hfrom.uses.nodup, fun stored hstored => ?_⟩
  obtain ⟨hint, hmem, hstored⟩ := hfrom.stored stored hstored
  obtain ⟨record, hrecord⟩ := h.accurate hint hmem
  refine ⟨record, ?_, ?_, hstored.branch.trans hrecord.branch, hstored.clone.trans hrecord.clone,
    ?_, ?_⟩
  · rw [hstored.token, hstored.stamp]
    exact hrecord.reads
  · exact (getElem?_filterMap_places hfrom.uses.identities _).trans
      (by rw [hstored.identity]; exact hrecord.identity)
  · exact (getElem?_filterMap_places hfrom.uses.checkouts _).trans
      (by rw [hstored.checkout]; exact hrecord.checkout)
  · exact (getElem?_filterMap_places hfrom.uses.labels _).trans
      (by rw [hstored.labels]; exact hrecord.labels)

/-- A token's file, with its stamp, is the one there is under its name. -/
def Listed (entries : List (Text × σ)) (file : Text × σ) : Prop :=
  entries.lookup (recordName file.1) = some file.2

theorem existing_listed {entries : List (Text × σ)} {file : Text × σ} (h : Listed entries file)
    {found : Option (Record ρ)} :
    existing document entries file.1 = .ok found ↔
      ∃ record, found = some record ∧ Reads document file.1 file.2 record := by
  rw [Listed] at h
  unfold existing
  simp only [h]
  by_cases hsafe : isSafeName file.1 = true
  · simp only [hsafe, Bool.not_true, Bool.false_eq_true, if_false]
    constructor
    · intro hfound
      obtain ⟨record, hdocument, hfound⟩ := bind_eq_ok.mp hfound
      obtain ⟨⟨⟩, husable, hfound⟩ := bind_eq_ok.mp hfound
      obtain rfl := Except.ok.inj hfound
      refine ⟨record, rfl, hsafe, ?_, husable⟩
      cases hread : document file.1 file.2 with
      | error failure => simp [hread, Except.mapError] at hdocument
      | ok read => simpa [hread, Except.mapError] using hdocument
    · rintro ⟨record, rfl, hreads⟩
      refine bind_eq_ok.mpr ⟨record, ?_, bind_eq_ok.mpr ⟨(), hreads.usable, rfl⟩⟩
      rw [hreads.document]
      rfl
  · simp only [hsafe, Bool.not_false, if_true]
    exact ⟨nofun, fun ⟨_, _, hreads⟩ => absurd hreads.isSafe hsafe⟩

/-- What `loadChanged` answers: tables that go on from those before it, and of each file a record
with its hint. -/
structure LoadedFrom (document : Text → σ → Except Text (Record ρ)) (tables : Tables)
    (files : List (Text × σ)) (result : Tables × List (Hint σ × Record ρ)) : Prop where
  extends' : tables.Extends result.1
  nodup : tables.identities.Nodup → result.1.identities.Nodup
  files : result.2.map (fun entry => (entry.1.token, entry.1.stamp)) = files
  accurate : ∀ entry ∈ result.2, Accurate document result.1 entry.1 entry.2

theorem loadChanged_loadedFrom {entries : List (Text × σ)} {files : List (Text × σ)}
    (hlisted : ∀ file ∈ files, Listed entries file) {tables : Tables}
    {result : Tables × List (Hint σ × Record ρ)}
    (h : loadChanged document entries tables files = .ok result) :
    LoadedFrom document tables files result := by
  induction files generalizing tables result with
  | nil =>
    obtain rfl := Except.ok.inj h
    exact ⟨.refl _, id, rfl, nofun⟩
  | cons file rest ih =>
    rw [List.forall_mem_cons] at hlisted
    obtain ⟨found, hfound, h⟩ := bind_eq_ok.mp h
    obtain ⟨record, rfl, hreads⟩ := (existing_listed hlisted.1).mp hfound
    obtain ⟨⟨after, loaded⟩, hrest, h⟩ := bind_eq_ok.mp h
    obtain rfl := Except.ok.inj h
    have hgoes := ih hlisted.2 hrest
    refine ⟨(tables.hint_extends file.2 record).trans hgoes.extends',
      fun hnodup => hgoes.nodup (Tables.hint_nodup tables file.2 record hnodup), ?_, ?_⟩
    · rw [List.map_cons, hgoes.files]
      exact congrArg (fun token => (token, file.2) :: rest) hreads.token
    · rw [List.forall_mem_cons]
      exact ⟨(Tables.hint_accurate tables file.2 record hreads).extend hgoes.extends', hgoes.accurate⟩

theorem exists_loadChanged {entries : List (Text × σ)} {files : List (Text × σ)}
    (hlisted : ∀ file ∈ files, Listed entries file)
    (hreads : ∀ file ∈ files, ∃ record, Reads document file.1 file.2 record) (tables : Tables) :
    ∃ result, loadChanged document entries tables files = .ok result := by
  induction files generalizing tables with
  | nil => exact ⟨_, rfl⟩
  | cons file rest ih =>
    rw [List.forall_mem_cons] at hlisted hreads
    obtain ⟨record, hrecord⟩ := hreads.1
    obtain ⟨result, hrest⟩ := ih hlisted.2 hreads.2 (tables.hint file.2 record).1
    refine ⟨_, bind_eq_ok.mpr ⟨some record, (existing_listed hlisted.1).mpr ⟨record, rfl, hrecord⟩,
      bind_eq_ok.mpr ⟨result, hrest, rfl⟩⟩⟩

variable [DecidableEq σ]

/-- The hints that are kept were known, and with the changed files they are the files listed. -/
theorem splitKnown_spec (tables : Tables) (known : List (Hint σ)) (listed : List (Text × σ)) :
    (∀ hint ∈ (splitKnown tables known listed).1, hint ∈ known) ∧
      ((splitKnown tables known listed).1.map fun hint => (hint.token, hint.stamp)) ++
        (splitKnown tables known listed).2 ~ listed := by
  induction listed generalizing known with
  | nil => exact ⟨nofun, .refl _⟩
  | cons file rest ih =>
    obtain ⟨token, stamp⟩ := file
    obtain ⟨hknown, hperm⟩ := ih (known.filter fun hint => decide (hint.token ≠ token))
    have hrest : ∀ hint ∈ (splitKnown tables
        (known.filter fun hint => decide (hint.token ≠ token)) rest).1, hint ∈ known :=
      fun hint hmem => List.mem_of_mem_filter (hknown hint hmem)
    unfold splitKnown
    generalize splitKnown tables (known.filter fun hint => decide (hint.token ≠ token)) rest =
      after at hperm hrest ⊢
    obtain ⟨fresh, changed⟩ := after
    dsimp only
    split
    · next hint hfound =>
      obtain ⟨hfind, hstamp⟩ := Option.filter_eq_some_iff.mp hfound
      have hmem : hint ∈ known := List.mem_reverse.mp (List.mem_of_find?_eq_some hfind)
      have htoken : hint.token = token := by simpa using List.find?_some hfind
      have hstamp : hint.stamp = stamp := by
        rw [Bool.and_eq_true, decide_eq_true_iff] at hstamp
        exact hstamp.1
      refine ⟨List.forall_mem_cons.mpr ⟨hmem, hrest⟩, ?_⟩
      simp only [List.map_cons, List.cons_append, htoken, hstamp]
      exact hperm.cons _
    · exact ⟨hrest, List.perm_middle.trans (hperm.cons _)⟩

end Onevcs.Recovery
