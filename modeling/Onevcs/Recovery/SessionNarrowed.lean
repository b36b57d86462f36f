import Mathlib.Data.List.Perm.Basic
import Onevcs.Recovery.SessionIndex

/-!
# A narrowed read is the full read narrowed

Of every history of the records and the index, a selection is answered with the records of the full
read that it narrows to, in token order, and refused wherever the full read is. The identities a
selection reads are those of the sessions it names, whether or not their labels are the ones asked
for; the branches and the checkouts are those of the sessions it picks, which are.
-/

namespace Onevcs.Recovery

open Foundations (Text bind_eq_ok)
open scoped List

variable {σ ρ : Type} {document : Text → σ → Except Text (Record ρ)}

def Selection.names (selection : Selection) (record : Record ρ) : Bool :=
  selection.sessions.contains record.token

/-- A session that the selection is about: one it names, or, where it names none, one that carries
the labels. -/
def Selection.isAbout (selection : Selection) (record : Record ρ) : Bool :=
  selection.names record ||
    (selection.sessions.isEmpty && labelsMatch record.labels selection.labels)

/-- A session that the selection picks: of those it names, or of all where it names none, one that
carries the labels. -/
def Selection.picks (selection : Selection) (record : Record ρ) : Bool :=
  (selection.sessions.isEmpty || selection.names record) &&
    labelsMatch record.labels selection.labels

/-- A session has another's branch, or its clone or checkout as its clone. -/
def Record.follows (record other : Record ρ) : Bool :=
  other.branch = record.branch || other.clone = record.clone ||
    other.executionCheckout = record.clone

/-- The records a selection narrows to, where the sessions whose identities are read and those whose
branches and checkouts are read are these. -/
def narrowedBy (selection : Selection) (identities picks : Record ρ → Bool)
    (records : List (Record ρ)) : List (Record ρ) :=
  records.filter fun record =>
    selection.names record ||
      ((records.any fun other => identities other && other.identity = record.identity) &&
        records.any fun other => picks other && record.follows other)

def narrowed (selection : Selection) (records : List (Record ρ)) : List (Record ρ) :=
  narrowedBy selection selection.isAbout selection.picks records

/-- The files that are tokens', with their stamps. -/
def files (entries : List (Text × σ)) : List (Text × σ) :=
  entries.filterMap fun entry => (tokenOf entry.1).map fun token => (token, entry.2)

theorem recordName_of_tokenOf {name token : Text} (h : tokenOf name = some token) :
    recordName token = name := by
  unfold tokenOf at h
  split at h
  · next hsuffix =>
    obtain ⟨stem, rfl⟩ := List.isSuffixOf_iff_suffix.mp hsuffix
    obtain rfl := Option.some.inj h
    simp [recordName]
  · cases h

theorem mem_files {entries : List (Text × σ)} {file : Text × σ} (h : file ∈ files entries) :
    (recordName file.1, file.2) ∈ entries := by
  obtain ⟨entry, hentry, hfile⟩ := List.mem_filterMap.mp h
  obtain ⟨token, htoken, rfl⟩ := Option.map_eq_some_iff.mp hfile
  show (recordName token, entry.2) ∈ entries
  rw [recordName_of_tokenOf htoken]
  exact hentry

theorem lookup_eq_some_of_nodup {entries : List (Text × σ)} (hnodup : (entries.map Prod.fst).Nodup)
    {name : Text} {stamp : σ} (h : (name, stamp) ∈ entries) :
    entries.lookup name = some stamp := by
  induction entries with
  | nil => cases h
  | cons entry rest ih =>
    rw [List.map_cons, List.nodup_cons] at hnodup
    rcases List.mem_cons.mp h with rfl | h
    · simp
    · have hne : name ≠ entry.1 := fun heq =>
        hnodup.1 (heq ▸ List.mem_map_of_mem (f := Prod.fst) h)
      rw [List.lookup_cons, beq_eq_false_iff_ne.mpr hne]
      exact ih hnodup.2 h

theorem listed_of_mem_files {entries : List (Text × σ)} (hnodup : (entries.map Prod.fst).Nodup)
    {file : Text × σ} (h : file ∈ files entries) : Listed entries file :=
  lookup_eq_some_of_nodup hnodup (mem_files h)

theorem files_cons (entry : Text × σ) (rest : List (Text × σ)) :
    files (entry :: rest) =
      ((tokenOf entry.1).map fun token => (token, entry.2)).toList ++ files rest := by
  unfold files
  rw [List.filterMap_cons]
  cases tokenOf entry.1 <;> rfl

theorem nodup_tokens {entries : List (Text × σ)} (hnodup : (entries.map Prod.fst).Nodup) :
    ((files entries).map Prod.fst).Nodup := by
  induction entries with
  | nil => exact List.nodup_nil
  | cons entry rest ih =>
    rw [List.map_cons, List.nodup_cons] at hnodup
    rw [files_cons]
    cases htoken : tokenOf entry.1 with
    | none => exact ih hnodup.2
    | some token =>
      refine List.nodup_cons.mpr ⟨fun hmem => ?_, ih hnodup.2⟩
      obtain ⟨file, hfile, heq⟩ := List.mem_map.mp hmem
      apply hnodup.1
      have hname : recordName file.1 = entry.1 := by
        rw [heq]
        exact recordName_of_tokenOf htoken
      rw [← hname]
      exact List.mem_map_of_mem (f := Prod.fst) (mem_files hfile)

theorem collect_eq_ok {entries rest : List (Text × σ)}
    (hlisted : ∀ file ∈ files rest, Listed entries file) {records : List (Record ρ)} :
    collect document entries rest = .ok records ↔
      List.Forall₂ (fun file => Reads document file.1 file.2) (files rest) records := by
  induction rest generalizing records with
  | nil =>
    rw [collect, files, List.filterMap_nil, List.forall₂_nil_left_iff]
    exact ⟨fun h => (Except.ok.inj h).symm, fun h => h ▸ rfl⟩
  | cons entry rest ih =>
    rw [files_cons] at hlisted ⊢
    obtain ⟨name, stamp⟩ := entry
    unfold collect
    cases htoken : tokenOf name with
    | none =>
      simp only [htoken, Option.map_none, Option.toList_none, List.nil_append] at hlisted ⊢
      exact ih hlisted
    | some token =>
      simp only [htoken, Option.map_some, Option.toList_some, List.singleton_append,
        List.forall_mem_cons] at hlisted ⊢
      rw [List.forall₂_cons_left_iff]
      constructor
      · intro h
        obtain ⟨found, hfound, h⟩ := bind_eq_ok.mp h
        obtain ⟨others, hothers, h⟩ := bind_eq_ok.mp h
        obtain ⟨record, rfl, hreads⟩ := (existing_listed hlisted.1).mp hfound
        obtain rfl := Except.ok.inj h
        exact ⟨record, others, hreads, (ih hlisted.2).mp hothers, rfl⟩
      · rintro ⟨record, others, hreads, hothers, rfl⟩
        exact bind_eq_ok.mpr ⟨some record, (existing_listed hlisted.1).mpr ⟨record, rfl, hreads⟩,
          bind_eq_ok.mpr ⟨others, (ih hlisted.2).mpr hothers, rfl⟩⟩

theorem listTokens_eq_ok {entries listed : List (Text × σ)} :
    listTokens entries = .ok listed ↔
      (∀ file ∈ files entries, isSafeName file.1 = true) ∧ files entries = listed := by
  induction entries generalizing listed with
  | nil =>
    rw [listTokens, files, List.filterMap_nil]
    exact ⟨fun h => ⟨nofun, Except.ok.inj h⟩, fun h => congrArg _ h.2⟩
  | cons entry rest ih =>
    rw [files_cons]
    obtain ⟨name, stamp⟩ := entry
    unfold listTokens
    cases htoken : tokenOf name with
    | none => simpa using ih
    | some token =>
      simp only [Option.map_some, Option.toList_some, List.singleton_append,
        List.forall_mem_cons]
      by_cases hsafe : isSafeName token = true
      · simp only [hsafe, Bool.not_true, Bool.false_eq_true, if_false, true_and]
        constructor
        · intro h
          obtain ⟨others, hothers, h⟩ := bind_eq_ok.mp h
          obtain ⟨hall, rfl⟩ := ih.mp hothers
          exact ⟨hall, Except.ok.inj h⟩
        · rintro ⟨hall, rfl⟩
          exact bind_eq_ok.mpr ⟨_, ih.mpr ⟨hall, rfl⟩, rfl⟩
      · simp only [hsafe, Bool.not_false, if_true]
        exact ⟨nofun, nofun⟩

/-! ## Narrowing by the hints -/

theorem any_eq_of_forall₂ {α β : Type} {R : α → β → Prop} {as : List α} {bs : List β}
    (h : List.Forall₂ R as bs) {p : α → Bool} {q : β → Bool} (hpq : ∀ a b, R a b → p a = q b) :
    as.any p = bs.any q := by
  induction h with
  | nil => rfl
  | cons hab _ ih => rw [List.any_cons, List.any_cons, hpq _ _ hab, ih]

theorem any_or_any {α : Type} (as : List α) (p q : α → Bool) :
    (as.any p || as.any q) = as.any fun a => p a || q a := by
  rw [Bool.eq_iff_iff]
  simp only [Bool.or_eq_true, List.any_eq_true, and_or_left, exists_or]

theorem map_filter_eq_of_forall₂ {α β γ : Type} {R : α → β → Prop} {as : List α} {bs : List β}
    (h : List.Forall₂ R as bs) {p : α → Bool} {q : β → Bool} (hpq : ∀ a b, R a b → p a = q b)
    {f : α → γ} {g : β → γ} (hfg : ∀ a b, R a b → f a = g b) :
    (as.filter p).map f = (bs.filter q).map g := by
  induction h with
  | nil => rfl
  | @cons a b as bs hab _ ih =>
    rw [List.filter_cons, List.filter_cons, hpq a b hab]
    split
    · rw [List.map_cons, List.map_cons, hfg a b hab, ih]
    · exact ih

theorem Accurate.token {tables : Tables} {hint : Hint σ} {record : Record ρ}
    (h : Accurate document tables hint record) : hint.token = record.token :=
  h.reads.token.symm

theorem Accurate.labelsAt {tables : Tables} {hint : Hint σ} {record : Record ρ}
    (h : Accurate document tables hint record) : tables.labelsAt hint = record.labels := by
  rw [Tables.labelsAt, h.labels, Option.getD_some]

theorem Accurate.identity_eq_iff {tables : Tables} (hnodup : tables.identities.Nodup)
    {hint other : Hint σ} {record otherRecord : Record ρ}
    (h : Accurate document tables hint record)
    (hother : Accurate document tables other otherRecord) :
    other.identity = hint.identity ↔ otherRecord.identity = record.identity := by
  constructor
  · intro heq
    have hboth := hother.identity
    rw [heq, h.identity] at hboth
    exact (Option.some.inj hboth).symm
  · intro heq
    apply (List.getElem?_inj hother.inBounds.1 hnodup).mp
    rw [h.identity, hother.identity, heq]

theorem wanted_eq {tables : Tables} (hnodup : tables.identities.Nodup) (selection : Selection)
    {fresh : List (Hint σ)} {records : List (Record ρ)}
    (h : List.Forall₂ (Accurate document tables) fresh records) :
    wanted selection tables fresh = (narrowed selection records).map Record.token := by
  unfold wanted narrowed narrowedBy
  apply map_filter_eq_of_forall₂ h _ fun hint record hrecord => hrecord.token
  intro hint record hrecord
  have hasks : ∀ {hint : Hint σ} {record : Record ρ}, Accurate document tables hint record →
      selection.asks hint = selection.names record := by
    intro hint record hrecord
    rw [Selection.asks, Selection.names, hrecord.token]
  have hpicks : ∀ {hint : Hint σ} {record : Record ρ}, Accurate document tables hint record →
      ((selection.sessions.isEmpty || selection.asks hint) &&
        labelsMatch (tables.labelsAt hint) selection.labels) = selection.picks record := by
    intro hint record hrecord
    rw [Selection.picks, hasks hrecord, hrecord.labelsAt]
  simp only [List.contains_eq_any_beq, List.any_map, List.any_filter, List.any_flatMap,
    Function.comp_def, hasks hrecord, any_or_any]
  congr 2
  · apply any_eq_of_forall₂ h
    intro other otherRecord hother
    rw [Selection.isAbout, hasks hother, hother.labelsAt, BEq.comm, beq_eq_decide,
      decide_eq_decide.mpr (hrecord.identity_eq_iff hnodup hother)]
  · apply any_eq_of_forall₂ h
    intro other otherRecord hother
    rw [← Bool.and_or_distrib_left, hpicks hother]
    congr 1
    rw [Record.follows, hother.checkout, ← hother.branch, ← hother.clone, ← hrecord.branch,
      ← hrecord.clone]
    simp only [Option.toList_some, List.any_cons, List.any_nil, Bool.or_false, beq_eq_decide,
      eq_comm (a := hint.branch), eq_comm (a := hint.clone), Bool.or_assoc]

theorem exists_forall₂ {α β : Type} {R : α → β → Prop} {as : List α}
    (h : ∀ a ∈ as, ∃ b, R a b) : ∃ bs, List.Forall₂ R as bs := by
  induction as with
  | nil => exact ⟨[], .nil⟩
  | cons a as ih =>
    rw [List.forall_mem_cons] at h
    obtain ⟨b, hb⟩ := h.1
    obtain ⟨bs, hbs⟩ := ih h.2
    exact ⟨b :: bs, .cons hb hbs⟩

theorem exists_left_of_forall₂ {α β : Type} {R : α → β → Prop} {as : List α} {bs : List β}
    (h : List.Forall₂ R as bs) {b : β} (hb : b ∈ bs) : ∃ a ∈ as, R a b := by
  induction h with
  | nil => cases hb
  | @cons a other as bs hab _ ih =>
    rcases List.mem_cons.mp hb with rfl | hb
    · exact ⟨a, List.mem_cons_self, hab⟩
    · obtain ⟨a, ha, hab⟩ := ih hb
      exact ⟨a, List.mem_cons_of_mem _ ha, hab⟩

theorem pairwise_sorted {α : Type} (token : α → Text) (entries : List α) :
    (entries.mergeSort fun a b => decide (token a ≤ token b)).Pairwise
      fun a b => token a ≤ token b := by
  have hsorted : (entries.mergeSort fun a b => decide (token a ≤ token b)).Pairwise
      fun a b => decide (token a ≤ token b) = true := by
    apply List.pairwise_mergeSort
    · intro a b c hab hbc
      rw [decide_eq_true_iff] at *
      exact le_trans hab hbc
    · intro a b
      rw [Bool.or_eq_true, decide_eq_true_iff, decide_eq_true_iff]
      exact le_total _ _
  exact hsorted.imp fun hle => of_decide_eq_true hle

theorem eq_of_perm_of_sorted {α : Type} {token : α → Text} {entries others : List α}
    (hperm : entries ~ others) (hnodup : (others.map token).Nodup)
    (hentries : entries.Pairwise fun a b => token a ≤ token b)
    (hothers : others.Pairwise fun a b => token a ≤ token b) : entries = others := by
  refine List.Perm.eq_of_pairwise (fun a b ha hb hab hba => ?_) hentries hothers hperm
  exact List.inj_on_of_nodup_map hnodup (hperm.subset ha) hb (le_antisymm hab hba)

/-- Accurate hints of the files there are, in token order, are those of the full read. -/
theorem all_eq_of_accurate {entries : List (Text × σ)} (hnodup : (entries.map Prod.fst).Nodup)
    {tables : Tables} {hints : List (Hint σ)}
    (haccurate : ∀ hint ∈ hints, ∃ record, Accurate document tables hint record)
    (hfiles : (hints.map fun hint => (hint.token, hint.stamp)) ~ files entries) :
    ∃ records, all document (.listed entries) = .ok records ∧
      List.Forall₂ (Accurate document tables)
        (hints.mergeSort fun a b => decide (a.token ≤ b.token)) records := by
  set fresh := hints.mergeSort fun a b => decide (a.token ≤ b.token)
  have hfresh : fresh ~ hints := List.mergeSort_perm _ _
  obtain ⟨records, hrecords⟩ :=
    exists_forall₂ fun hint hmem => haccurate hint (hfresh.subset hmem)
  have hreads : List.Forall₂ (fun file => Reads document file.1 file.2)
      (fresh.map fun hint => (hint.token, hint.stamp)) records :=
    List.forall₂_map_left_iff.mpr (hrecords.imp fun _ _ h => h.reads)
  obtain ⟨collected, hcollected, hperm⟩ :=
    List.perm_comp_forall₂ (hfiles.symm.trans (hfresh.map _).symm) hreads
  have htokens : fresh.map Hint.token = records.map Record.token := by
    rw [← List.forall₂_eq_eq_eq, List.forall₂_map_left_iff, List.forall₂_map_right_iff]
    exact hrecords.imp fun _ _ h => h.token
  refine ⟨records, ?_, hrecords⟩
  refine bind_eq_ok.mpr ⟨collected,
    (collect_eq_ok fun file hfile => listed_of_mem_files hnodup hfile).mpr hcollected, ?_⟩
  refine congrArg Except.ok (eq_of_perm_of_sorted ((List.mergeSort_perm _ _).trans hperm) ?_
    (pairwise_sorted Record.token collected) ?_)
  · rw [← htokens]
    have htokens := ((hfresh.map _).trans hfiles).map Prod.fst
    rw [List.map_map] at htokens
    exact htokens.nodup_iff.mpr (nodup_tokens hnodup)
  · rw [← List.pairwise_map, ← htokens, List.pairwise_map]
    exact pairwise_sorted Hint.token hints

/-! ## The read of a directory -/

theorem readWanted_eq {entries : List (Text × σ)} {loaded : List (Text × Record ρ)}
    (hloaded : ∀ token record, loaded.lookup token = some record →
      existing document entries token = .ok (some record))
    {records : List (Record ρ)}
    (h : ∀ record ∈ records, existing document entries record.token = .ok (some record)) :
    readWanted document entries loaded (records.map Record.token) = .ok records := by
  induction records with
  | nil => rfl
  | cons record rest ih =>
    rw [List.forall_mem_cons] at h
    have hrest := ih h.2
    rw [List.map_cons, readWanted]
    cases hlookup : loaded.lookup record.token with
    | none => exact bind_eq_ok.mpr ⟨some record, h.1, bind_eq_ok.mpr ⟨rest, hrest, rfl⟩⟩
    | some other =>
      have hother := hloaded _ _ hlookup
      rw [h.1] at hother
      obtain rfl := Option.some.inj (Except.ok.inj hother)
      exact bind_eq_ok.mpr ⟨some record, rfl, bind_eq_ok.mpr ⟨rest, hrest, rfl⟩⟩

theorem existing_of_accurate {entries : List (Text × σ)} (hnodup : (entries.map Prod.fst).Nodup)
    {tables : Tables} {hints : List (Hint σ)}
    (hfiles : (hints.map fun hint => (hint.token, hint.stamp)) ~ files entries) {hint : Hint σ}
    (hmem : hint ∈ hints) {record : Record ρ} (h : Accurate document tables hint record) :
    existing document entries record.token = .ok (some record) := by
  have hfile : (hint.token, hint.stamp) ∈ files entries :=
    hfiles.subset (List.mem_map_of_mem (f := fun hint : Hint σ => (hint.token, hint.stamp)) hmem)
  rw [← h.token]
  exact (existing_listed (listed_of_mem_files hnodup hfile)).mpr ⟨record, rfl, h.reads⟩

variable [DecidableEq σ]

/-- What the changed files and the hints that are kept give. -/
theorem loaded_spec {entries : List (Text × σ)} (hnodup : (entries.map Prod.fst).Nodup)
    {tables after : Tables} {hints : List (Hint σ)} (hindex : AccurateIndex document tables hints)
    {loaded : List (Hint σ × Record ρ)}
    (hloaded : loadChanged document entries tables (splitKnown tables hints (files entries)).2 =
      .ok (after, loaded)) :
    AccurateIndex document after
      ((splitKnown tables hints (files entries)).1 ++ loaded.map Prod.fst) ∧
    (((splitKnown tables hints (files entries)).1 ++ loaded.map Prod.fst).map
      fun hint => (hint.token, hint.stamp)) ~ files entries ∧
    ∀ entry ∈ loaded, Accurate document after entry.1 entry.2 := by
  obtain ⟨hknown, hperm⟩ := splitKnown_spec tables hints (files entries)
  have hchanged : ∀ file ∈ (splitKnown tables hints (files entries)).2, Listed entries file :=
    fun file hfile => listed_of_mem_files hnodup
      (hperm.subset (List.mem_append_right _ hfile))
  have hfrom := loadChanged_loadedFrom hchanged hloaded
  refine ⟨⟨hfrom.nodup hindex.nodup, fun hint hmem => ?_⟩, ?_, hfrom.accurate⟩
  · rcases List.mem_append.mp hmem with hheld | hnew
    · obtain ⟨record, hrecord⟩ := hindex.accurate hint (hknown hint hheld)
      exact ⟨record, hrecord.extend hfrom.extends'⟩
    · obtain ⟨entry, hentry, rfl⟩ := List.mem_map.mp hnew
      exact ⟨entry.2, hfrom.accurate entry hentry⟩
  · rw [List.map_append, List.map_map]
    exact hfrom.files ▸ hperm

/-- Where the changed files are loaded, the read answers with the full read narrowed, and what it
stores is accurate. -/
theorem read_of_loaded {isIdentity : Text → Bool} {directory : Text} {stored : Option (Index σ)}
    {entries : List (Text × σ)} (hnodup : (entries.map Prod.fst).Nodup)
    (hsafe : ∀ file ∈ files entries, isSafeName file.1 = true)
    {selection : Selection} (hasks : selection.isEmpty = false)
    {tables after : Tables} {hints : List (Hint σ)}
    (hstart : readIndex isIdentity directory stored = (tables, hints))
    (hindex : AccurateIndex document tables hints) {loaded : List (Hint σ × Record ρ)}
    (hloaded : loadChanged document entries tables (splitKnown tables hints (files entries)).2 =
      .ok (after, loaded)) :
    ∃ records index, all document (.listed entries) = .ok records ∧
      read document isIdentity directory stored (.listed entries) selection =
        .ok (narrowed selection records, index) ∧
      ∀ written, index = some written → AccurateIndex document written.tables written.hints := by
  obtain ⟨haccurate, hfiles, hrecordsLoaded⟩ := loaded_spec hnodup hindex hloaded
  obtain ⟨records, hall, hrecords⟩ := all_eq_of_accurate hnodup haccurate.accurate hfiles
  have hfresh := List.mergeSort_perm
    ((splitKnown tables hints (files entries)).1 ++ loaded.map Prod.fst)
    fun a b => decide (a.token ≤ b.token)
  have hwanted : readWanted document entries (loaded.map fun entry => (entry.2.token, entry.2))
      ((narrowed selection records).map Record.token) = .ok (narrowed selection records) := by
    apply readWanted_eq
    · intro token record hlookup
      obtain ⟨_, _, heq, -⟩ := List.lookup_eq_some_iff.mp hlookup
      have hmem : (token, record) ∈ loaded.map fun entry => (entry.2.token, entry.2) :=
        heq ▸ List.mem_append_right _ List.mem_cons_self
      obtain ⟨entry, hentry, hpair⟩ := List.mem_map.mp hmem
      obtain ⟨rfl, rfl⟩ := Prod.mk.inj hpair
      exact existing_of_accurate hnodup hfiles
        (List.mem_append_right _ (List.mem_map_of_mem hentry)) (hrecordsLoaded entry hentry)
    · intro record hrecord
      obtain ⟨hint, hmem, h⟩ := exists_left_of_forall₂ hrecords (List.mem_of_mem_filter hrecord)
      exact existing_of_accurate hnodup hfiles (hfresh.subset hmem) h
  rw [← wanted_eq haccurate.nodup selection hrecords] at hwanted
  have hread : read document isIdentity directory stored (.listed entries) selection =
      .ok (narrowed selection records,
        if (!(splitKnown tables hints (files entries)).2.isEmpty ||
            (splitKnown tables hints (files entries)).1.length !=
              (hints.map Hint.token).eraseDups.length) = true then
          some (storeIndex directory after
            (((splitKnown tables hints (files entries)).1 ++ loaded.map Prod.fst).mergeSort
              fun a b => decide (a.token ≤ b.token)))
        else none) := by
    unfold read
    simp only [hasks, Bool.false_eq_true, if_false, hstart]
    exact bind_eq_ok.mpr ⟨_, listTokens_eq_ok.mpr ⟨hsafe, rfl⟩,
      bind_eq_ok.mpr ⟨_, hloaded, bind_eq_ok.mpr ⟨_, hwanted, rfl⟩⟩⟩
  refine ⟨records, _, hall, hread, fun written hwritten => ?_⟩
  split at hwritten
  · obtain rfl := Option.some.inj hwritten
    exact storeIndex_accurate ⟨haccurate.nodup,
      fun hint hmem => haccurate.accurate hint (hfresh.subset hmem)⟩ directory
  · cases hwritten

/-- Where the full read answers, so does the narrowed one, and what it stores is accurate. -/
theorem read_listed_of_all {isIdentity : Text → Bool} {directory : Text}
    {stored : Option (Index σ)} {entries : List (Text × σ)}
    (hnodup : (entries.map Prod.fst).Nodup)
    (hindex : AccurateIndex document (readIndex isIdentity directory stored).1
      (readIndex isIdentity directory stored).2)
    {selection : Selection} (hasks : selection.isEmpty = false) {records : List (Record ρ)}
    (hall : all document (.listed entries) = .ok records) :
    ∃ index, read document isIdentity directory stored (.listed entries) selection =
        .ok (narrowed selection records, index) ∧
      ∀ written, index = some written → AccurateIndex document written.tables written.hints := by
  have hlisted : ∀ file ∈ files entries, Listed entries file :=
    fun file hfile => listed_of_mem_files hnodup hfile
  obtain ⟨collected, hcollected, -⟩ := bind_eq_ok.mp hall
  rw [collect_eq_ok hlisted] at hcollected
  have hreads : ∀ file ∈ files entries, ∃ record, Reads document file.1 file.2 record := by
    intro file hfile
    obtain ⟨record, -, hrecord⟩ := exists_left_of_forall₂ hcollected.flip hfile
    exact ⟨record, hrecord⟩
  rcases hstart : readIndex isIdentity directory stored with ⟨tables, hints⟩
  rw [hstart] at hindex
  have hchanged : ∀ file ∈ (splitKnown tables hints (files entries)).2, file ∈ files entries :=
    fun file hfile => (splitKnown_spec tables hints (files entries)).2.subset
      (List.mem_append_right _ hfile)
  obtain ⟨⟨after, loaded⟩, hloaded⟩ := exists_loadChanged
    (fun file hfile => hlisted file (hchanged file hfile))
    (fun file hfile => hreads file (hchanged file hfile)) tables
  obtain ⟨others, index, hothers, hread⟩ := read_of_loaded hnodup
    (fun file hfile => (hreads file hfile).elim fun _ h => h.isSafe) hasks hstart hindex hloaded
  obtain rfl := Except.ok.inj (hall.symm.trans hothers)
  exact ⟨index, hread⟩

theorem all_of_read_listed {isIdentity : Text → Bool} {directory : Text}
    {stored : Option (Index σ)} {entries : List (Text × σ)}
    (hnodup : (entries.map Prod.fst).Nodup)
    (hindex : AccurateIndex document (readIndex isIdentity directory stored).1
      (readIndex isIdentity directory stored).2)
    {selection : Selection} (hasks : selection.isEmpty = false)
    {result : List (Record ρ) × Option (Index σ)}
    (hread : read document isIdentity directory stored (.listed entries) selection = .ok result) :
    ∃ records, all document (.listed entries) = .ok records := by
  unfold read at hread
  simp only [hasks, Bool.false_eq_true, if_false] at hread
  obtain ⟨listed, hlisted, hread⟩ := bind_eq_ok.mp hread
  obtain ⟨hsafe, rfl⟩ := listTokens_eq_ok.mp hlisted
  obtain ⟨⟨after, loaded⟩, hloaded, -⟩ := bind_eq_ok.mp hread
  obtain ⟨records, _, hall, -⟩ := read_of_loaded hnodup hsafe hasks rfl hindex hloaded
  exact ⟨records, hall⟩

section Histories

variable {isIdentity : Text → Bool} {directory : Text} {w : World σ}

/-- Every index that was written is accurate, and what is stored is one of them or not read. -/
structure Sound (document : Text → σ → Except Text (Record ρ)) (isIdentity : Text → Bool)
    (directory : Text) (w : World σ) : Prop where
  distinct : w.sessions.distinct = true
  written : ∀ index ∈ w.written, AccurateIndex document index.tables index.hints
  stored : ∀ index ∈ w.stored, index ∈ w.written ∨ index.held isIdentity directory = false

omit [DecidableEq σ] in
theorem Sound.readIndex (h : Sound document isIdentity directory w) :
    AccurateIndex document (readIndex isIdentity directory w.stored).1
      (readIndex isIdentity directory w.stored).2 := by
  unfold Recovery.readIndex
  split
  · next index hfound =>
    obtain ⟨hstored, hheld⟩ := Option.filter_eq_some_iff.mp hfound
    rcases h.stored index hstored with hwritten | hunheld
    · exact h.written index hwritten
    · rw [hunheld] at hheld
      cases hheld
  · exact ⟨List.nodup_nil, nofun⟩

theorem Sound.read (h : Sound document isIdentity directory w) {selection : Selection}
    {records : List (Record ρ)} {index : Index σ}
    (hread : read document isIdentity directory w.stored w.sessions selection =
      .ok (records, some index)) : AccurateIndex document index.tables index.hints := by
  cases hasks : selection.isEmpty with
  | true =>
    simp only [Recovery.read, hasks, if_true] at hread
    obtain ⟨_, _, hpair⟩ := bind_eq_ok.mp hread
    cases hpair
  | false =>
    cases hsessions : w.sessions with
    | missing => simp [Recovery.read, hasks, hsessions] at hread
    | refused failure =>
      simp only [Recovery.read, hasks, hsessions, Bool.false_eq_true, if_false] at hread
      obtain ⟨_, _, hpair⟩ := bind_eq_ok.mp hread
      cases hpair
    | listed entries =>
      have hnodup : (entries.map Prod.fst).Nodup := by
        have hdistinct := h.distinct
        rw [hsessions] at hdistinct
        exact of_decide_eq_true hdistinct
      rw [hsessions] at hread
      obtain ⟨others, hall⟩ := all_of_read_listed hnodup h.readIndex hasks hread
      obtain ⟨other, hsame, hwritten⟩ :=
        read_listed_of_all hnodup h.readIndex hasks hall
      obtain ⟨-, rfl⟩ := Prod.mk.inj (Except.ok.inj (hread.symm.trans hsame))
      exact hwritten index rfl

theorem Sound.step (h : Sound document isIdentity directory w) {action : Action σ} {after : World σ}
    (hstep : (history document isIdentity directory).step w action = some after) :
    Sound document isIdentity directory after := by
  cases action with
  | files sessions =>
    simp only [history, World.step, Option.ite_none_right_eq_some] at hstep
    obtain ⟨hdistinct, hafter⟩ := hstep
    obtain rfl := Option.some.inj hafter
    exact ⟨hdistinct, h.written, h.stored⟩
  | read selection =>
    simp only [history, World.step] at hstep
    split at hstep
    · next records index hread =>
      obtain rfl := Option.some.inj hstep
      refine ⟨h.distinct, fun other hother => ?_, fun other hother => ?_⟩
      · rcases List.mem_append.mp hother with hother | hother
        · exact h.written other hother
        · obtain rfl := List.mem_singleton.mp hother
          exact h.read hread
      · obtain rfl := Option.mem_some.mp hother
        exact .inl (List.mem_append_right _ (List.mem_singleton_self _))
    · obtain rfl := Option.some.inj hstep
      exact h
  | index stored =>
    simp only [history, World.step, Option.ite_none_right_eq_some] at hstep
    obtain ⟨hany, hafter⟩ := hstep
    obtain rfl := Option.some.inj hafter
    refine ⟨h.distinct, h.written, fun index hstored => ?_⟩
    obtain rfl := Option.mem_def.mp hstored
    simpa using hany

theorem Sound.of_reachable (h : (history document isIdentity directory).Reachable w) :
    Sound document isIdentity directory w :=
  h.invariant
    (fun _ ⟨hdistinct, hstored, hwritten⟩ =>
      ⟨hdistinct, by rw [hwritten]; nofun, by rw [hstored]; nofun⟩)
    fun _ _ _ hsound _ hstep => hsound.step hstep

/-- A narrowed read answers, in token order, with the records of the full read that its selection
narrows to, and is refused wherever the full read is. -/
theorem read_eq_narrowed (h : (history document isIdentity directory).Reachable w)
    {selection : Selection} (hasks : selection.isEmpty = false) :
    (∀ records, all document w.sessions = .ok records →
      (∃ index, read document isIdentity directory w.stored w.sessions selection =
        .ok (narrowed selection records, index)) ∧
      (narrowed selection records).Pairwise fun record other => record.token ≤ other.token) ∧
    ∀ unread, all document w.sessions = .error unread →
      ∃ other, read document isIdentity directory w.stored w.sessions selection = .error other := by
  have hsound := Sound.of_reachable h
  cases hsessions : w.sessions with
  | missing =>
    refine ⟨fun records hall => ?_, nofun⟩
    obtain rfl := Except.ok.inj hall
    exact ⟨⟨none, by simp [Recovery.read, hasks, narrowed, narrowedBy]⟩, List.Pairwise.nil⟩
  | refused failure =>
    refine ⟨nofun, fun unread hall => ⟨unread, ?_⟩⟩
    simp [Recovery.read, hasks, hall, bind, Except.bind]
  | listed entries =>
    have hnodup : (entries.map Prod.fst).Nodup := by
      have hdistinct := hsound.distinct
      rw [hsessions] at hdistinct
      exact of_decide_eq_true hdistinct
    refine ⟨fun records hall => ⟨?_, ?_⟩, fun unread hall => ?_⟩
    · obtain ⟨index, hread, -⟩ := read_listed_of_all hnodup hsound.readIndex hasks hall
      exact ⟨index, hread⟩
    · obtain ⟨collected, -, hsorted⟩ := bind_eq_ok.mp hall
      obtain rfl := Except.ok.inj hsorted
      exact (pairwise_sorted Record.token collected).filter _
    · cases hread : read document isIdentity directory w.stored (.listed entries) selection with
      | error other => exact ⟨other, rfl⟩
      | ok result =>
        obtain ⟨records, hok⟩ := all_of_read_listed hnodup hsound.readIndex hasks hread
        rw [hall] at hok
        cases hok

end Histories

def sessionRecord (token identity branch : Char) (labels : List (Text × Text)) : Record Unit where
  version := recordVersion
  token := [token]
  identity := [identity]
  branch := [branch]
  worktree := ⟨true, [[token], ['w']]⟩
  clone := ⟨true, [[token], ['c']]⟩
  runRoot := ⟨true, [[token], ['r']]⟩
  executionCheckout := ⟨true, [[token], ['e']]⟩
  publicationCheckout := ⟨true, [[token], ['p']]⟩
  labels
  others := ()

/-- `a` carries no labels, `b` those asked for; `c` shares `a`'s identity and has the branch of `b`,
`d` has `a`'s identity and branch. -/
def unpickedRecords : List (Record Unit) :=
  [sessionRecord 'a' 'i' 'm' [], sessionRecord 'b' 'j' 'n' [(['k'], ['v'])],
    sessionRecord 'c' 'i' 'n' [], sessionRecord 'd' 'i' 'm' []]

/-- Each of the records under its token. -/
def unpickedDocument (token : Text) (_ : ℕ) : Except Text (Record Unit) :=
  match unpickedRecords.find? fun record => record.token = token with
  | some record => .ok record
  | none => .error []

def unpickedWorld : World ℕ where
  sessions := .listed (unpickedRecords.map fun record => (recordName record.token, 0))
  stored := none
  written := []

/-- Names `a` and `b`, and asks for the labels of `b`. -/
def unpickedSelection : Selection where
  sessions := [['a'], ['b']]
  labels := [(['k'], ['v'])]

theorem unpickedWorld_reachable :
    (history unpickedDocument (fun _ => true) []).Reachable unpickedWorld :=
  .start ⟨by decide, rfl, rfl⟩

theorem all_unpickedWorld : all unpickedDocument unpickedWorld.sessions = .ok unpickedRecords := by
  have hsorted : unpickedRecords.mergeSort (fun a b => decide (a.token ≤ b.token)) =
      unpickedRecords :=
    List.mergeSort_of_pairwise (by decide +kernel)
  exact bind_eq_ok.mpr ⟨unpickedRecords, by rfl, congrArg Except.ok hsorted⟩

/-- A session named for other labels keeps a row of its identity, though not of its branch: the
records that are answered are neither those that share an identity and a branch with sessions that
are picked nor those that do with sessions that are named. -/
theorem narrowed_by_unpicked :
    (history unpickedDocument (fun _ => true) []).Reachable unpickedWorld ∧
      all unpickedDocument unpickedWorld.sessions = .ok unpickedRecords ∧
      ∀ index selects, selects = unpickedSelection.picks ∨ selects = unpickedSelection.isAbout →
        read unpickedDocument (fun _ => true) [] unpickedWorld.stored unpickedWorld.sessions
            unpickedSelection ≠
          .ok (narrowedBy unpickedSelection selects selects unpickedRecords, index) := by
  refine ⟨unpickedWorld_reachable, all_unpickedWorld, fun index selects hselects hread => ?_⟩
  have hasks : unpickedSelection.isEmpty = false := rfl
  obtain ⟨other, hother, -⟩ := read_listed_of_all (by decide +kernel)
    (Sound.of_reachable unpickedWorld_reachable).readIndex hasks all_unpickedWorld
  have hrecords := (Prod.mk.inj (Except.ok.inj (hread.symm.trans hother))).1
  rcases hselects with rfl | rfl
  · exact absurd hrecords (by decide +kernel)
  · exact absurd hrecords (by decide +kernel)

theorem unpicked_read :
    ∃ index, read unpickedDocument (fun _ => true) [] unpickedWorld.stored unpickedWorld.sessions
        unpickedSelection =
      .ok ([sessionRecord 'a' 'i' 'm' [], sessionRecord 'b' 'j' 'n' [(['k'], ['v'])],
        sessionRecord 'c' 'i' 'n' []], index) := by
  have hasks : unpickedSelection.isEmpty = false := rfl
  exact ((read_eq_narrowed unpickedWorld_reachable hasks).1 unpickedRecords all_unpickedWorld).1

end Onevcs.Recovery
