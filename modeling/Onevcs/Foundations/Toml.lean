import Onevcs.Foundations.Lines
import Onevcs.Foundations.Outcome

/-!
# TOML documents

The values of a TOML document, and structures written as tables and read back. A table keeps its
keys in their order, whatever order they are written in. A structure is read from a table by the
keys of its fields, or from a list by their places; a field that is absent may have a default.
-/

namespace Foundations.Toml

/-- A value of a document. The values that no structure here has are kept as they are written. -/
inductive Value
  | string (text : Text)
  | integer (value : ℤ)
  | scalar (written : Text)
  | array (items : List Value)
  | table (entries : List (Text × Value))

/-- Why a value is not what is read from it. -/
inductive Misfit (μ : Type)
  | missing (key : Text)
  | wrongType
  | malformed (why : μ)
  deriving DecidableEq

variable {ε μ α : Type}

/-- The entries of a table: the fields that are written. -/
def present (fields : List (Text × Option Value)) : List (Text × Value) :=
  fields.filterMap fun field => field.2.map fun value => (field.1, value)

/-- A list that is left out where it is empty. -/
def unlessEmpty (values : List Value) : Option Value :=
  if values.isEmpty then none else some (.array values)

theorem lookup_present {fields : List (Text × Option Value)} (h : (fields.map Prod.fst).Nodup)
    (key : Text) : (present fields).lookup key = (fields.lookup key).join := by
  induction fields with
  | nil => rfl
  | cons field rest ih =>
    obtain ⟨name, value⟩ := field
    obtain ⟨hfresh, hrest⟩ := List.nodup_cons.mp h
    have hnone : name = key → (present rest).lookup key = none := by
      rintro rfl
      rw [ih hrest]
      have hlookup : rest.lookup name = none := by
        rw [List.lookup_eq_none_iff]
        intro entry hentry
        have hmem : entry.1 ∈ rest.map Prod.fst := List.mem_map_of_mem hentry
        have hne : name ≠ entry.1 := fun heq => hfresh (heq ▸ hmem)
        simpa using hne
      rw [hlookup]
      rfl
    cases value with
    | none =>
      by_cases heq : name = key
      · subst heq
        simpa [present, List.lookup_cons] using hnone rfl
      · have hne : (key == name) = false := beq_eq_false_iff_ne.mpr (Ne.symm heq)
        simpa [present, List.lookup_cons, hne] using ih hrest
    | some value =>
      by_cases heq : name = key
      · subst heq
        simp [present]
      · have hne : (key == name) = false := beq_eq_false_iff_ne.mpr (Ne.symm heq)
        simpa [present, List.lookup_cons, hne] using ih hrest

theorem mem_present_key {fields : List (Text × Option Value)} {entry : Text × Value}
    (h : entry ∈ present fields) : (entry.1, some entry.2) ∈ fields := by
  obtain ⟨field, hfield, hvalue⟩ := List.mem_filterMap.mp h
  obtain ⟨value, hsome, rfl⟩ := Option.map_eq_some_iff.mp hvalue
  rw [← hsome]
  exact hfield

/-! ## Reading -/

/-- The fields of a structure, by key or by place. -/
def Value.fields : Value → Except (Misfit μ) (Text → ℕ → Option Value)
  | .table entries => .ok fun key _ => entries.lookup key
  | .array items => .ok fun _ place => items[place]?
  | _ => .error .wrongType

def Value.text : Value → Except (Misfit μ) Text
  | .string text => .ok text
  | _ => .error .wrongType

/-- A list. -/
def items (read : Value → Except (Misfit μ) α) : Value → Except (Misfit μ) (List α)
  | .array values => values.mapM read
  | _ => .error .wrongType

/-- A field that must be there. -/
def required (key : Text) (read : Value → Except (Misfit μ) α) :
    Option Value → Except (Misfit μ) α
  | some value => read value
  | none => .error (.missing key)

/-- A field that may be left out. -/
def omittable (read : Value → Except (Misfit μ) α) : Option Value → Except (Misfit μ) (Option α)
  | some value => some <$> read value
  | none => .ok none

/-- A list that may be left out, and is empty then. -/
def listed (read : Value → Except (Misfit μ) α) : Option Value → Except (Misfit μ) (List α)
  | some value => items read value
  | none => .ok []

section

variable {write : α → Except ε Value} {read : Value → Except (Misfit μ) α}

def ReadsBack (write : α → Except ε Value) (read : Value → Except (Misfit μ) α) : Prop :=
  ∀ a value, write a = .ok value → read value = .ok a

theorem mapM_of_mapM (h : ReadsBack write read) {l : List α} {values : List Value}
    (hwritten : l.mapM write = .ok values) : values.mapM read = .ok l := by
  induction l generalizing values with
  | nil =>
    obtain rfl : [] = values := Except.ok.inj hwritten
    rfl
  | cons a rest ih =>
    rw [List.mapM_cons] at hwritten
    obtain ⟨value, hvalue, hwritten⟩ := bind_eq_ok.mp hwritten
    obtain ⟨more, hmore, hwritten⟩ := bind_eq_ok.mp hwritten
    obtain rfl : value :: more = values := Except.ok.inj hwritten
    rw [List.mapM_cons, h a value hvalue, ih hmore]
    rfl

theorem listed_of_mapM (h : ReadsBack write read) {l : List α} {values : List Value}
    (hwritten : l.mapM write = .ok values) : listed read (unlessEmpty values) = .ok l := by
  have hback := mapM_of_mapM h hwritten
  cases values with
  | nil => exact hback
  | cons value rest => exact hback

theorem required_of_written (h : ReadsBack write read) {a : α} {value : Value}
    (hwritten : write a = .ok value) (key : Text) : required key read (some value) = .ok a :=
  h a value hwritten

theorem omittable_of_written (h : ReadsBack write read) {a : α} {value : Value}
    (hwritten : write a = .ok value) : omittable read (some value) = .ok (some a) := by
  rw [omittable, h a value hwritten]
  rfl

/-- What holds of each value read holds of a list of them. -/
theorem forall_of_mapM {P : α → Prop} (h : ∀ value a, read value = .ok a → P a)
    {l : List α} {values : List Value} (hread : values.mapM read = .ok l) : ∀ a ∈ l, P a := by
  induction values generalizing l with
  | nil =>
    obtain rfl : [] = l := Except.ok.inj hread
    simp
  | cons value rest ih =>
    rw [List.mapM_cons] at hread
    obtain ⟨a, ha, hread⟩ := bind_eq_ok.mp hread
    obtain ⟨more, hmore, hread⟩ := bind_eq_ok.mp hread
    obtain rfl : a :: more = l := Except.ok.inj hread
    rw [List.forall_mem_cons]
    exact ⟨h value a ha, ih hmore⟩

theorem forall_of_listed {P : α → Prop} (h : ∀ value a, read value = .ok a → P a)
    {value : Option Value} {l : List α} (hread : listed read value = .ok l) : ∀ a ∈ l, P a := by
  cases value with
  | none =>
    obtain rfl := Except.ok.inj hread
    simp
  | some value =>
    cases value with
    | array values => exact forall_of_mapM h hread
    | string text => cases hread
    | integer value => cases hread
    | scalar written => cases hread
    | table entries => cases hread

end

/-- A value that its conversion accepts. -/
structure Checked {β : Type} (check : β → Except μ Unit) where
  value : β
  accepted : check value = .ok ()

namespace Checked

variable {β : Type} {check : β → Except μ Unit}

instance [DecidableEq β] : DecidableEq (Checked check) := fun a b =>
  decidable_of_iff (a.value = b.value) (by cases a; cases b; simp)

/-- The conversion. -/
def tryFrom (check : β → Except μ Unit) (value : β) : Except μ (Checked check) :=
  match h : check value with
  | .ok () => .ok ⟨value, h⟩
  | .error why => .error why

theorem tryFrom_value (checked : Checked check) : tryFrom check checked.value = .ok checked := by
  obtain ⟨value, accepted⟩ := checked
  unfold tryFrom
  split
  · rfl
  · next why h => rw [accepted] at h; cases h

theorem value_of_tryFrom {value : β} {checked : Checked check}
    (h : tryFrom check value = .ok checked) : checked.value = value := by
  unfold tryFrom at h
  split at h
  · rw [← Except.ok.inj h]
  · cases h

def write {check : Text → Except μ Unit} (checked : Checked check) : Except Text Value :=
  .ok (.string checked.value)

def read (check : Text → Except μ Unit) (value : Value) : Except (Misfit μ) (Checked check) := do
  let text ← value.text
  (tryFrom check text).mapError .malformed

theorem readsBack (check : Text → Except μ Unit) :
    ReadsBack (fun checked : Checked check => checked.write) (read check) := by
  rintro checked _ ⟨⟩
  simp only [read, Value.text, bind, Except.bind, tryFrom_value]
  rfl

end Checked

end Foundations.Toml
