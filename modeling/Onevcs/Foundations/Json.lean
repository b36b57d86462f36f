import Mathlib.Data.List.Forall2
import Mathlib.Data.List.Nodup

/-!
# JSON documents

Documents of values, arrays and objects. The fields of an object are listed in the order they
were written in, which says nothing: a field is looked up by its key.
-/

namespace Foundations

/-- A document over a type of values that are neither array nor object. -/
inductive Json (ν : Type)
  | leaf (value : ν)
  | array (elements : List (Json ν))
  | object (fields : List (String × Json ν))

namespace Json

variable {ν : Type}

/-- The induction over documents, one case for each kind of them. -/
@[induction_eliminator]
theorem ind {motive : Json ν → Prop} (leaf : ∀ value, motive (.leaf value))
    (array : ∀ elements, (∀ element ∈ elements, motive element) → motive (.array elements))
    (object : ∀ fields, (∀ field ∈ fields, motive field.2) → motive (.object fields))
    (json : Json ν) : motive json :=
  @Json.rec ν motive
    (fun elements => ∀ element ∈ elements, motive element)
    (fun fields => ∀ field ∈ fields, motive field.2)
    (fun field => motive field.2)
    leaf array object
    (fun _ hmem => nomatch hmem)
    (fun _ _ hhead htail => List.forall_mem_cons.mpr ⟨hhead, htail⟩)
    (fun _ hmem => nomatch hmem)
    (fun _ _ hhead htail => List.forall_mem_cons.mpr ⟨hhead, htail⟩)
    (fun _ _ hvalue => hvalue) json

/-- No object of the document names a key twice. -/
inductive Keyed : Json ν → Prop
  | leaf (value : ν) : Keyed (.leaf value)
  | array {elements : List (Json ν)} : (∀ element ∈ elements, Keyed element) →
      Keyed (.array elements)
  | object {fields : List (String × Json ν)} : (fields.map Prod.fst).Nodup →
      (∀ field ∈ fields, Keyed field.2) → Keyed (.object fields)

/-- The same document, whatever the order of its keys. -/
inductive Same : Json ν → Json ν → Prop
  | leaf (value : ν) : Same (.leaf value) (.leaf value)
  | array {elements others : List (Json ν)} : List.Forall₂ Same elements others →
      Same (.array elements) (.array others)
  | object {fields others : List (String × Json ν)} :
      (∀ key, Option.Rel Same (fields.lookup key) (others.lookup key)) →
        Same (.object fields) (.object others)

/-- Something is left out, or is kept as the relation has it. -/
inductive Kept {α : Type} (r : α → α → Prop) : Option α → Option α → Prop
  | out (found : Option α) : Kept r found none
  | kept {value seen : α} : r value seen → Kept r (some value) (some seen)

/-- The second document is the first with keys left out of its objects, at any depth. -/
inductive Erases : Json ν → Json ν → Prop
  | leaf (value : ν) : Erases (.leaf value) (.leaf value)
  | array {elements kept : List (Json ν)} : List.Forall₂ Erases elements kept →
      Erases (.array elements) (.array kept)
  | object {fields kept : List (String × Json ν)} :
      (∀ key, Kept Erases (fields.lookup key) (kept.lookup key)) →
        Erases (.object fields) (.object kept)

inductive Step
  | key (name : String)
  | index (position : ℕ)

/-- What is at a path of a document, if anything is. -/
def follow : List Step → Json ν → Option (Json ν)
  | [], json => some json
  | .key name :: rest, .object fields => (fields.lookup name).bind (follow rest)
  | .index position :: rest, .array elements => elements[position]?.bind (follow rest)
  | _ :: _, _ => none

/-! ## Fields -/

theorem mem_of_lookup {α : Type} {fields : List (String × α)} {key : String} {value : α}
    (h : fields.lookup key = some value) : (key, value) ∈ fields := by
  induction fields with
  | nil => cases h
  | cons field rest ih =>
    obtain ⟨name, found⟩ := field
    rw [List.lookup_cons] at h
    by_cases hkey : key = name
    · subst hkey
      simp only [beq_self_eq_true] at h
      obtain rfl := Option.some.inj h
      exact List.mem_cons_self
    · simp only [beq_false_of_ne hkey] at h
      exact List.mem_cons_of_mem _ (ih h)

theorem lookup_eq_none_iff {α : Type} {fields : List (String × α)} {key : String} :
    fields.lookup key = none ↔ key ∉ fields.map Prod.fst := by
  rw [List.lookup_eq_none_iff]
  simp only [List.mem_map, not_exists, not_and, bne_iff_ne, ne_eq]
  constructor
  · rintro h field hmem rfl
    exact h field hmem rfl
  · intro h field hmem heq
    exact h field hmem heq.symm

/-- Where no key comes twice, every field is the one its key is looked up as. -/
theorem lookup_of_mem {α : Type} {fields : List (String × α)}
    (hnodup : (fields.map Prod.fst).Nodup) {key : String} {value : α}
    (hmem : (key, value) ∈ fields) : fields.lookup key = some value := by
  induction fields with
  | nil => cases hmem
  | cons field rest ih =>
    rw [List.map_cons, List.nodup_cons] at hnodup
    rw [List.lookup_cons]
    rcases List.mem_cons.mp hmem with rfl | hmem
    · simp
    · have hne : key ≠ field.1 := by
        rintro rfl
        exact hnodup.1 (List.mem_map.mpr ⟨_, hmem, rfl⟩)
      simp only [beq_false_of_ne hne]
      exact ih hnodup.2 hmem

/-- The fields a test on the key keeps. -/
theorem lookup_filter {α : Type} (fields : List (String × α)) (test : String → Bool)
    (key : String) :
    (fields.filter fun field => test field.1).lookup key =
      if test key then fields.lookup key else none := by
  induction fields with
  | nil => simp
  | cons field rest ih =>
    obtain ⟨name, value⟩ := field
    rw [List.filter_cons, List.lookup_cons]
    by_cases htest : test name = true
    · rw [if_pos htest, List.lookup_cons, ih]
      by_cases hkey : key = name
      · simp [hkey, htest]
      · simp [beq_false_of_ne hkey]
    · rw [if_neg htest, ih]
      by_cases hkey : key = name
      · simp [hkey, htest]
      · simp [beq_false_of_ne hkey]

/-- The first field of a key is changed, where there is one: `get_mut`. -/
def alter {α : Type} (key : String) (change : α → α) : List (String × α) → List (String × α)
  | [] => []
  | field :: rest =>
    if field.1 = key then (field.1, change field.2) :: rest
    else field :: alter key change rest

theorem lookup_alter {α : Type} (fields : List (String × α)) (key other : String)
    (change : α → α) :
    (alter key change fields).lookup other =
      if other = key then (fields.lookup other).map change else fields.lookup other := by
  induction fields with
  | nil => simp [alter]
  | cons field rest ih =>
    unfold alter
    by_cases hfield : field.1 = key
    · rw [if_pos hfield, List.lookup_cons, List.lookup_cons]
      by_cases hother : other = key
      · simp [hfield, hother]
      · have hne : other ≠ field.1 := fun heq => hother (heq.trans hfield)
        simp [hother, beq_false_of_ne hne]
    · rw [if_neg hfield, List.lookup_cons, List.lookup_cons, ih]
      by_cases hother : other = field.1
      · have hne : other ≠ key := fun heq => hfield (hother.symm.trans heq)
        simp [hother, hfield]
      · simp [beq_false_of_ne hother]

theorem map_fst_alter {α : Type} (fields : List (String × α)) (key : String) (change : α → α) :
    (alter key change fields).map Prod.fst = fields.map Prod.fst := by
  induction fields with
  | nil => rfl
  | cons field rest ih =>
    unfold alter
    split
    · rfl
    · rw [List.map_cons, List.map_cons, ih]

/-- A field is added where its key is not there: `entry(..).or_insert`. -/
def orInsert {α : Type} (fields : List (String × α)) (field : String × α) : List (String × α) :=
  if (fields.lookup field.1).isSome then fields else fields ++ [field]

/-- What is there stays, and what is not is the first of its key. -/
theorem lookup_foldl_orInsert {α : Type} (fields added : List (String × α)) (key : String) :
    (added.foldl orInsert fields).lookup key = (fields.lookup key).or (added.lookup key) := by
  induction added generalizing fields with
  | nil => simp
  | cons field rest ih =>
    obtain ⟨name, value⟩ := field
    rw [List.foldl_cons, ih, orInsert, List.lookup_cons]
    by_cases hkey : key = name
    · subst hkey
      cases hfound : fields.lookup key with
      | some value => simp [hfound]
      | none => simp [hfound, List.lookup_append]
    · rw [beq_false_of_ne hkey]
      split
      · rfl
      · rw [List.lookup_append, List.lookup_cons, beq_false_of_ne hkey]
        simp

/-- A document is itself with nothing left out. -/
theorem Erases.refl (json : Json ν) : Erases json json := by
  induction json with
  | leaf value => exact .leaf value
  | array elements ih => exact .array (List.forall₂_same.mpr ih)
  | object fields ih =>
    apply Erases.object
    intro key
    cases hfound : fields.lookup key with
    | none => exact .out none
    | some value => exact .kept (ih _ (mem_of_lookup hfound))

theorem Same.refl (json : Json ν) : Same json json := by
  induction json with
  | leaf value => exact .leaf value
  | array elements ih => exact .array (List.forall₂_same.mpr ih)
  | object fields ih =>
    apply Same.object
    intro key
    cases hfound : fields.lookup key with
    | none => exact .none
    | some value => exact .some (ih _ (mem_of_lookup hfound))

end Json

end Foundations
