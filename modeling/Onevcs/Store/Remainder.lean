import Onevcs.Foundations.Json

/-!
# What a document carried beyond the shape it was read into

`Remainder` of `remainder.rs`: the keys of a document that this build has no opinion on, taken
by difference from the same document read and written back, and put back into the document a
verb writes.
-/

namespace Onevcs

open Foundations (Json)
open Foundations.Json (alter orInsert Same Erases Keyed Kept follow Step)

variable {ν : Type}

inductive Remainder (ν : Type)
  | mk (unknown : List (String × Json ν)) (within : List (String × Remainder ν))
      (elements : List (Remainder ν))

namespace Remainder

def default : Remainder ν := .mk [] [] []

mutual

def isEmpty : Remainder ν → Bool
  | .mk unknown within elements => unknown.isEmpty && within.isEmpty && allEmpty elements

def allEmpty : List (Remainder ν) → Bool
  | [] => true
  | nested :: rest => nested.isEmpty && allEmpty rest

end

mutual

/-- `Remainder::between`: what `raw` carries that `understood` does not. -/
@[grind] def between : Json ν → Json ν → Remainder ν
  | .object raw, .object understood =>
    .mk (raw.filter fun field => (understood.lookup field.1).isNone)
      (betweenFields raw understood) []
  | .array raw, .array understood =>
    if raw.length = understood.length then .mk [] [] (betweenElements raw understood)
    else default
  | _, _ => default

/-- The keys that are understood, with a remainder of their own. -/
@[grind] def betweenFields : List (String × Json ν) → List (String × Json ν) → List (String × Remainder ν)
  | [], _ => []
  | (key, value) :: rest, understood =>
    match understood.lookup key with
    | none => betweenFields rest understood
    | some seen =>
      let nested := between value seen
      if nested.isEmpty then betweenFields rest understood
      else (key, nested) :: betweenFields rest understood

@[grind] def betweenElements : List (Json ν) → List (Json ν) → List (Remainder ν)
  | value :: rest, seen :: others => between value seen :: betweenElements rest others
  | _, _ => []

end

mutual

/-- `Remainder::restore`. -/
@[grind] def restore : Remainder ν → Json ν → Json ν
  | .mk unknown within _, .object into =>
    .object (restoreWithin within (unknown.foldl orInsert into))
  | .mk _ _ elements, .array into => .array (restoreElements elements into)
  | _, .leaf value => .leaf value

@[grind] def restoreWithin : List (String × Remainder ν) → List (String × Json ν) → List (String × Json ν)
  | [], into => into
  | (key, nested) :: rest, into => restoreWithin rest (alter key (restore nested) into)

@[grind] def restoreElements : List (Remainder ν) → List (Json ν) → List (Json ν)
  | nested :: rest, existing :: others => restore nested existing :: restoreElements rest others
  | _, into => into

end

mutual

theorem restore_of_isEmpty : ∀ remainder : Remainder ν, remainder.isEmpty = true →
    ∀ json, remainder.restore json = json
  | .mk unknown within elements, hempty, json => by
    rw [isEmpty, Bool.and_eq_true, Bool.and_eq_true, List.isEmpty_iff, List.isEmpty_iff]
      at hempty
    obtain ⟨⟨rfl, rfl⟩, helements⟩ := hempty
    cases json with
    | leaf value => rfl
    | object into => rfl
    | array into =>
      rw [restore, restoreElements_of_allEmpty elements helements into]

theorem restoreElements_of_allEmpty : ∀ elements : List (Remainder ν),
    allEmpty elements = true → ∀ into, restoreElements elements into = into
  | [], _, into => by cases into <;> rfl
  | nested :: rest, hempty, [] => rfl
  | nested :: rest, hempty, existing :: others => by
    rw [allEmpty, Bool.and_eq_true] at hempty
    rw [restoreElements, restore_of_isEmpty nested hempty.1,
      restoreElements_of_allEmpty rest hempty.2]

end

@[simp] theorem restore_default (json : Json ν) : restore default json = json :=
  restore_of_isEmpty default rfl json

@[simp] theorem between_leaf (value : ν) (understood : Json ν) :
    between (.leaf value) understood = default := by
  simp [between]

/-- What becomes of a value, where the document carried one in its place and this build
understood it as another. -/
def amend (value seen : Option (Json ν)) (existing : Json ν) : Json ν :=
  match value, seen with
  | some value, some seen => restore (between value seen) existing
  | _, _ => existing

@[simp] theorem amend_some (value seen existing : Json ν) :
    amend (some value) (some seen) existing = restore (between value seen) existing := rfl

@[simp] theorem amend_none_left (seen : Option (Json ν)) : amend none seen = id := rfl

@[simp] theorem amend_none_right (value : Option (Json ν)) : amend value none = id := by
  cases value <;> rfl

theorem amend_induction (p : Json ν → Prop) {value seen : Option (Json ν)} {existing : Json ν}
    (hexisting : p existing)
    (h : ∀ carried ∈ value, ∀ known, p (restore (between carried known) existing)) :
    p (amend value seen existing) := by
  cases value with
  | none => exact hexisting
  | some carried =>
    cases seen with
    | none => exact hexisting
    | some known => exact h carried rfl known

/-- A field of what the nested remainders were put back into. -/
theorem lookup_restoreWithin {raw : List (String × Json ν)}
    (hnodup : (raw.map Prod.fst).Nodup) (understood into : List (String × Json ν))
    (key : String) :
    (restoreWithin (betweenFields raw understood) into).lookup key =
      (into.lookup key).map (amend (raw.lookup key) (understood.lookup key)) := by
  induction raw generalizing into with
  | nil => simp [betweenFields, restoreWithin]
  | cons field rest ih =>
    obtain ⟨name, value⟩ := field
    rw [List.map_cons, List.nodup_cons] at hnodup
    have hother : key ≠ name →
        List.lookup key ((name, value) :: rest) = rest.lookup key := by
      intro hkey
      rw [List.lookup_cons, beq_false_of_ne hkey]
    have hrest : key = name → rest.lookup key = none := by
      rintro rfl
      exact Foundations.Json.lookup_eq_none_iff.mpr hnodup.1
    unfold betweenFields
    cases hseen : understood.lookup name with
    | none =>
      simp only
      rw [ih hnodup.2]
      by_cases hkey : key = name
      · rw [hkey, hseen, amend_none_right, amend_none_right]
      · rw [hother hkey]
    | some seen =>
      simp only
      by_cases hempty : (between value seen).isEmpty = true
      · rw [if_pos hempty, ih hnodup.2]
        by_cases hkey : key = name
        · have hsame : amend (some value) (some seen) = id :=
            funext (restore_of_isEmpty _ hempty)
          rw [hrest hkey, hkey, List.lookup_cons_self, hseen, hsame, amend_none_left]
        · rw [hother hkey]
      · rw [if_neg hempty, restoreWithin, ih hnodup.2, Foundations.Json.lookup_alter]
        by_cases hkey : key = name
        · rw [hrest hkey, if_pos hkey, amend_none_left, Option.map_id_fun, id, hkey,
            List.lookup_cons_self, hseen]
          rfl
        · rw [if_neg hkey, hother hkey]

/-- The fields the remainder of an object is put back into. -/
def restoreFields (raw understood into : List (String × Json ν)) : List (String × Json ν) :=
  restoreWithin (betweenFields raw understood)
    ((raw.filter fun field => (understood.lookup field.1).isNone).foldl orInsert into)

theorem lookup_restoreFields {raw : List (String × Json ν)}
    (hnodup : (raw.map Prod.fst).Nodup) (understood into : List (String × Json ν))
    (key : String) :
    (restoreFields raw understood into).lookup key =
      ((into.lookup key).map (amend (raw.lookup key) (understood.lookup key))).or
        (if (understood.lookup key).isNone then raw.lookup key else none) := by
  unfold restoreFields
  rw [lookup_restoreWithin hnodup, Foundations.Json.lookup_foldl_orInsert,
    Foundations.Json.lookup_filter raw fun key => (understood.lookup key).isNone]
  cases into.lookup key with
  | some existing => rfl
  | none =>
    cases hseen : understood.lookup key with
    | none => simp
    | some seen => simp

theorem getElem?_restoreElements (raw understood into : List (Json ν)) (i : ℕ) :
    (restoreElements (betweenElements raw understood) into)[i]? =
      into[i]?.map (amend raw[i]? understood[i]?) := by
  induction raw generalizing understood into i with
  | nil =>
    have hnone : restoreElements (betweenElements [] understood) into = into :=
      restoreElements_of_allEmpty _ rfl into
    rw [hnone]
    simp
  | cons value rest ih =>
    cases understood with
    | nil =>
      have hnone : restoreElements (betweenElements (value :: rest) []) into = into :=
        restoreElements_of_allEmpty _ rfl into
      rw [hnone]
      simp
    | cons seen others =>
      cases into with
      | nil => rfl
      | cons existing into =>
        rw [betweenElements, restoreElements]
        cases i with
        | zero => rfl
        | succ i => exact ih others into i

/-- Putting a remainder back is one of three things: nothing, where the shapes differ, or what
it does to an array or to an object. -/
theorem restore_between_cases (raw understood into : Json ν) :
    restore (between raw understood) into = into ∨
      (∃ raws seen existing, raw = .array raws ∧ understood = .array seen ∧
        into = .array existing ∧ raws.length = seen.length ∧
          restore (between raw understood) into =
            .array (restoreElements (betweenElements raws seen) existing)) ∨
      ∃ raws seen existing, raw = .object raws ∧ understood = .object seen ∧
        into = .object existing ∧
          restore (between raw understood) into =
            .object (restoreFields raws seen existing) := by
  cases raw with
  | leaf value => exact .inl (by simp [between])
  | array raws =>
    cases understood with
    | leaf value => exact .inl (by simp [between])
    | object seen => exact .inl (by simp [between])
    | array seen =>
      by_cases hlength : raws.length = seen.length
      · cases into with
        | leaf value => exact .inl (by simp [between, hlength, restore])
        | object existing =>
          exact .inl (by simp [between, hlength, restore, restoreWithin])
        | array existing =>
          refine .inr (.inl ⟨raws, seen, existing, rfl, rfl, rfl, hlength, ?_⟩)
          simp [between, hlength, restore]
      · exact .inl (by simp [between, hlength])
  | object raws =>
    cases understood with
    | leaf value => exact .inl (by simp [between])
    | array seen => exact .inl (by simp [between])
    | object seen =>
      cases into with
      | leaf value => exact .inl (by simp [between, restore])
      | array existing =>
        exact .inl (by simp [between, restore, restoreElements_of_allEmpty [] rfl])
      | object existing => exact .inr (.inr ⟨raws, seen, existing, rfl, rfl, rfl, rfl⟩)

/-- The difference put back into what it was taken from is the whole document again. -/
theorem between_restore {raw understood : Json ν} (hraw : raw.Keyed)
    (h : Erases raw understood) : Same (restore (between raw understood) understood) raw := by
  induction raw generalizing understood with
  | leaf value =>
    cases h with
    | leaf => exact .leaf value
  | array elements ih =>
    cases hraw with
    | array hraw =>
      cases h with
      | array hkept =>
        have hlength := hkept.length_eq
        rw [between, if_pos hlength, restore]
        apply Same.array
        clear hlength
        induction hkept with
        | nil => exact .nil
        | cons hfirst _ ihrest =>
          rw [betweenElements, restoreElements]
          apply List.Forall₂.cons
          · exact ih _ List.mem_cons_self (hraw _ List.mem_cons_self) hfirst
          · exact ihrest (fun element hmem => ih element (List.mem_cons_of_mem _ hmem))
              fun element hmem => hraw element (List.mem_cons_of_mem _ hmem)
  | object fields ih =>
    cases hraw with
    | object hnodup hraw =>
      cases h with
      | @object _ kept hkept =>
        apply Same.object
        intro key
        have hlookup := lookup_restoreFields hnodup kept kept key
        rw [show restoreWithin (betweenFields fields kept)
          ((fields.filter fun field => (kept.lookup field.1).isNone).foldl orInsert kept) =
            restoreFields fields kept kept from rfl, hlookup]
        have hfield := hkept key
        cases hvalue : fields.lookup key with
        | none =>
          rw [hvalue] at hfield
          cases hseen : kept.lookup key with
          | none => exact .none
          | some seen =>
            rw [hseen] at hfield
            cases hfield
        | some value =>
          have hmem := Foundations.Json.mem_of_lookup hvalue
          cases hseen : kept.lookup key with
          | none => exact .some (Same.refl value)
          | some seen =>
            rw [hvalue, hseen] at hfield
            cases hfield with
            | kept herases => exact .some (ih _ hmem (hraw _ hmem) herases)

theorem forall₂_restoreElements {r : Json ν → Json ν → Prop} (hrefl : ∀ json, r json json)
    {raws : List (Json ν)}
    (h : ∀ value ∈ raws, ∀ seen existing, r (restore (between value seen) existing) existing)
    (seen existing : List (Json ν)) :
    List.Forall₂ r (restoreElements (betweenElements raws seen) existing) existing := by
  induction raws generalizing seen existing with
  | nil =>
    rw [restoreElements_of_allEmpty (betweenElements [] seen) rfl]
    exact List.forall₂_same.mpr fun json _ => hrefl json
  | cons value rest ih =>
    cases seen with
    | nil =>
      rw [restoreElements_of_allEmpty (betweenElements (value :: rest) []) rfl]
      exact List.forall₂_same.mpr fun json _ => hrefl json
    | cons first seen =>
      cases existing with
      | nil => exact .nil
      | cons found existing =>
        rw [betweenElements, restoreElements]
        apply List.Forall₂.cons
        · exact h value List.mem_cons_self first found
        · exact ih (fun value hmem => h value (List.mem_cons_of_mem _ hmem)) seen existing

/-- What a verb wrote stands: it is what the restored document says, but for keys that were
put back. -/
theorem restore_erases (raw understood into : Json ν) (hraw : raw.Keyed) :
    Erases (restore (between raw understood) into) into := by
  induction raw generalizing understood into with
  | leaf value =>
    rw [between_leaf, restore_default]
    exact Erases.refl into
  | array elements ih =>
    rcases restore_between_cases (.array elements) understood into with
      hsame | ⟨raws, seen, existing, heq, rfl, rfl, -, hrestored⟩ | ⟨_, _, _, ⟨⟩, _⟩
    · rw [hsame]
      exact Erases.refl into
    · obtain rfl := Json.array.inj heq
      cases hraw with
      | array hraw =>
        rw [hrestored]
        exact .array (forall₂_restoreElements Erases.refl
          (fun value hmem seen existing => ih value hmem seen existing (hraw value hmem))
          seen existing)
  | object fields ih =>
    rcases restore_between_cases (.object fields) understood into with
      hsame | ⟨_, _, _, ⟨⟩, _⟩ | ⟨raws, seen, existing, heq, rfl, rfl, hrestored⟩
    · rw [hsame]
      exact Erases.refl into
    · obtain rfl := Json.object.inj heq
      cases hraw with
      | object hnodup hraw =>
        rw [hrestored]
        apply Erases.object
        intro key
        rw [lookup_restoreFields hnodup]
        cases hthere : existing.lookup key with
        | none => exact .out _
        | some value =>
          rw [Option.map_some, Option.some_or]
          apply Kept.kept
          apply amend_induction (fun json => Erases json value) (Erases.refl value)
          intro carried hcarried known
          have hmem := Foundations.Json.mem_of_lookup hcarried
          exact ih _ hmem known value (hraw _ hmem)

theorem amend_recreates_nothing {value seen : Option (Json ν)} {existing : Json ν}
    {path : List Step}
    (h : ∀ carried ∈ value, ∀ known,
      (follow path (restore (between carried known) existing)).isSome →
        follow path existing = none → follow path known = none)
    (hthere : (follow path (amend value seen existing)).isSome)
    (hgone : follow path existing = none) : seen.bind (follow path) = none := by
  cases seen with
  | none => rfl
  | some known =>
    cases value with
    | none =>
      rw [amend_none_left, id, hgone] at hthere
      cases hthere
    | some carried => exact h carried rfl known hthere hgone

/-- Nothing is brought back that this build knew and the later document does not have. -/
theorem restore_recreates_nothing {raw : Json ν} (understood into : Json ν) (hraw : raw.Keyed)
    (path : List Step) (hthere : (follow path (restore (between raw understood) into)).isSome)
    (hgone : follow path into = none) : follow path understood = none := by
  induction raw generalizing understood into path with
  | leaf value =>
    rw [between_leaf, restore_default, hgone] at hthere
    cases hthere
  | array elements ih =>
    rcases restore_between_cases (.array elements) understood into with
      hsame | ⟨raws, seen, existing, heq, rfl, rfl, -, hrestored⟩ | ⟨_, _, _, ⟨⟩, _⟩
    · rw [hsame, hgone] at hthere
      cases hthere
    · obtain rfl := Json.array.inj heq
      cases hraw with
      | array hraw =>
        rw [hrestored] at hthere
        cases path with
        | nil => cases hgone
        | cons step path =>
          cases step with
          | key name => cases hthere
          | index i =>
            rw [follow, getElem?_restoreElements] at hthere
            rw [follow] at hgone ⊢
            cases hfound : existing[i]? with
            | none =>
              rw [hfound] at hthere
              cases hthere
            | some value =>
              rw [hfound, Option.map_some, Option.bind_some] at hthere
              rw [hfound, Option.bind_some] at hgone
              apply amend_recreates_nothing _ hthere hgone
              intro carried hcarried known
              have hmem := List.mem_of_getElem? hcarried
              exact ih carried hmem known value (hraw carried hmem) path
  | object fields ih =>
    rcases restore_between_cases (.object fields) understood into with
      hsame | ⟨_, _, _, ⟨⟩, _⟩ | ⟨raws, seen, existing, heq, rfl, rfl, hrestored⟩
    · rw [hsame, hgone] at hthere
      cases hthere
    · obtain rfl := Json.object.inj heq
      cases hraw with
      | object hnodup hraw =>
        rw [hrestored] at hthere
        cases path with
        | nil => cases hgone
        | cons step path =>
          cases step with
          | index i => cases hthere
          | key name =>
            rw [follow, lookup_restoreFields hnodup] at hthere
            rw [follow] at hgone ⊢
            cases hfound : existing.lookup name with
            | none =>
              -- what was put back here is a key this build does not know
              rw [hfound, Option.map_none, Option.none_or] at hthere
              cases hseen : seen.lookup name with
              | none => rfl
              | some known =>
                rw [hseen] at hthere
                cases hthere
            | some value =>
              rw [hfound, Option.map_some, Option.some_or, Option.bind_some] at hthere
              rw [hfound, Option.bind_some] at hgone
              apply amend_recreates_nothing _ hthere hgone
              intro carried hcarried known
              have hmem := Foundations.Json.mem_of_lookup hcarried
              exact ih _ hmem known value (hraw _ hmem) path

/-! ## Documents -/

theorem map_fst_restoreWithin (within : List (String × Remainder ν))
    (into : List (String × Json ν)) :
    (restoreWithin within into).map Prod.fst = into.map Prod.fst := by
  induction within generalizing into with
  | nil => rfl
  | cons field rest ih =>
    obtain ⟨key, nested⟩ := field
    rw [restoreWithin, ih, Foundations.Json.map_fst_alter]

theorem nodup_foldl_orInsert {α : Type} {fields : List (String × α)} (added : List (String × α))
    (hnodup : (fields.map Prod.fst).Nodup) :
    ((added.foldl orInsert fields).map Prod.fst).Nodup := by
  induction added generalizing fields with
  | nil => exact hnodup
  | cons field rest ih =>
    rw [List.foldl_cons]
    apply ih
    unfold orInsert
    split
    · exact hnodup
    · next hnone =>
      rw [Option.not_isSome_iff_eq_none, Foundations.Json.lookup_eq_none_iff] at hnone
      rw [List.map_append, List.map_cons, List.map_nil]
      exact List.nodup_append.mpr ⟨hnodup, List.nodup_singleton _, by
        rintro key hkey _ hmem rfl
        exact hnone (List.mem_singleton.mp hmem ▸ hkey)⟩

theorem restore_keyed {raw : Json ν} (understood into : Json ν) (hraw : raw.Keyed)
    (hinto : into.Keyed) : (restore (between raw understood) into).Keyed := by
  induction raw generalizing understood into with
  | leaf value =>
    rw [between_leaf, restore_default]
    exact hinto
  | array elements ih =>
    rcases restore_between_cases (.array elements) understood into with
      hsame | ⟨raws, seen, existing, heq, rfl, rfl, -, hrestored⟩ | ⟨_, _, _, ⟨⟩, _⟩
    · rw [hsame]
      exact hinto
    · obtain rfl := Json.array.inj heq
      cases hraw with
      | array hraw =>
        cases hinto with
        | array hinto =>
          rw [hrestored]
          apply Keyed.array
          intro element helement
          obtain ⟨i, hi⟩ := List.mem_iff_getElem?.mp helement
          rw [getElem?_restoreElements] at hi
          obtain ⟨value, hvalue, rfl⟩ := Option.map_eq_some_iff.mp hi
          have hkeyed := hinto value (List.mem_of_getElem? hvalue)
          apply amend_induction Keyed hkeyed
          intro carried hcarried known
          have hmem := List.mem_of_getElem? hcarried
          exact ih carried hmem known value (hraw carried hmem) hkeyed
  | object fields ih =>
    rcases restore_between_cases (.object fields) understood into with
      hsame | ⟨_, _, _, ⟨⟩, _⟩ | ⟨raws, seen, existing, heq, rfl, rfl, hrestored⟩
    · rw [hsame]
      exact hinto
    · obtain rfl := Json.object.inj heq
      cases hraw with
      | object hnodup hraw =>
        cases hinto with
        | object hkeys hinto =>
          rw [hrestored]
          have hnodup' : ((restoreFields fields seen existing).map Prod.fst).Nodup := by
            unfold restoreFields
            rw [map_fst_restoreWithin]
            exact nodup_foldl_orInsert _ hkeys
          apply Keyed.object hnodup'
          rintro ⟨key, value⟩ hmem
          have hfield := Foundations.Json.lookup_of_mem hnodup' hmem
          rw [lookup_restoreFields hnodup] at hfield
          rcases Option.or_eq_some_iff.mp hfield with hthere | ⟨-, hput⟩
          · obtain ⟨found, hfound, rfl⟩ := Option.map_eq_some_iff.mp hthere
            have hkeyed := hinto _ (Foundations.Json.mem_of_lookup hfound)
            apply amend_induction Keyed hkeyed
            intro carried hcarried known
            have hmem := Foundations.Json.mem_of_lookup hcarried
            exact ih _ hmem known found (hraw _ hmem) hkeyed
          · split at hput
            · exact hraw _ (Foundations.Json.mem_of_lookup hput)
            · cases hput

end Remainder

/-- A document as it is parsed: no object of it names a key twice. -/
structure Document (ν : Type) where
  json : Json ν
  keyed : json.Keyed

/-- A document written by this build, with what an earlier one carried put back. -/
def Document.restored (raw understood into : Document ν) : Document ν where
  json := (Remainder.between raw.json understood.json).restore into.json
  keyed := Remainder.restore_keyed understood.json into.json raw.keyed into.keyed

/-- What a document carried beyond this build's shape is put back whole into what was read of
it; in any later document it leaves everything that is there, and brings back nothing that
was read and is there no longer. -/
theorem remainder_lens (raw understood : Document ν) (h : Erases raw.json understood.json) :
    Same (raw.restored understood understood).json raw.json ∧
      ∀ later : Document ν,
        Erases (raw.restored understood later).json later.json ∧
          ∀ path, (follow path (raw.restored understood later).json).isSome →
            follow path later.json = none → follow path understood.json = none := by
  refine ⟨Remainder.between_restore raw.keyed h, fun later => ⟨?_, ?_⟩⟩
  · exact Remainder.restore_erases raw.json understood.json later.json raw.keyed
  · intro path hthere hgone
    exact Remainder.restore_recreates_nothing understood.json later.json raw.keyed path hthere
      hgone

/-- A record with a key this build does not know. -/
def newer : Document ℕ where
  json := .object [("checkout", .object [("path", .leaf 0), ("pinned", .leaf 1)])]
  keyed := .object (by decide) (by
    rintro _ (_ | ⟨_, ⟨⟩⟩)
    exact .object (by decide) (by rintro _ (_ | ⟨_, _ | ⟨_, ⟨⟩⟩⟩) <;> exact .leaf _))

/-- The record as this build reads it. -/
def older : Document ℕ where
  json := .object [("checkout", .object [("path", .leaf 0)])]
  keyed := .object (by decide) (by
    rintro _ (_ | ⟨_, ⟨⟩⟩)
    exact .object (by decide) (by rintro _ (_ | ⟨_, ⟨⟩⟩); exact .leaf _))

theorem newer_erases : Erases newer.json older.json := by
  apply Erases.object
  intro key
  by_cases hkey : key = "checkout"
  · subst hkey
    apply Kept.kept
    apply Erases.object
    intro key
    by_cases hkey : key = "path"
    · subst hkey
      exact .kept (.leaf 0)
    · have hout : List.lookup key [("path", Json.leaf 0)] = none := by
        rw [List.lookup_cons, beq_false_of_ne hkey, List.lookup_nil]
      rw [hout]
      exact .out _
  · have hout : List.lookup key [("checkout", Json.object [("path", Json.leaf 0)])] = none := by
      rw [List.lookup_cons, beq_false_of_ne hkey, List.lookup_nil]
    rw [hout]
    exact .out _

theorem remainder_lens_newer : Same (newer.restored older older).json newer.json :=
  (remainder_lens newer older newer_erases).1

end Onevcs
