import Onevcs.Foundations.Digits
import Onevcs.Sweep.Judge

/-!
# The names of run roots

A landing names the run root it cuts after its branch and `ids::unique`, and a sweep takes nothing
for a run root that is not named so. The digest that stands for a branch whose name is no name of
a directory is a parameter.
-/

namespace Onevcs.Sweep

variable (digest : List Char → List Char)

/-- `policy::branch_slug`. -/
def branchSlug (branch : List Char) : List Char :=
  let flattened := branch.map fun c => if c = '/' then '-' else c
  if flattened.all fun c => c.isAlphanum || c == '-' || c == '.' || c == '_' then flattened
  else digest branch

/-- `ids::unique`, at one reading of the clock and of the counter. -/
def unique (pid nanos count : ℕ) : List Char :=
  Nat.toDigits 16 pid ++ '-' :: (Nat.toDigits 16 nanos ++ '-' :: Nat.toDigits 16 count)

/-- What a landing of a branch names its run root. -/
def runRootName (branch : List Char) (pid nanos count : ℕ) : String :=
  String.ofList (branchSlug digest branch ++ '-' :: unique pid nanos count)

section Splitting

variable {separator : Char} {part : List Char}

theorem splitLast_of_not_mem (h : separator ∉ part) : splitLast separator part = none := by
  induction part with
  | nil => rfl
  | cons c rest ih =>
    rw [List.mem_cons, not_or] at h
    rw [splitLast, ih h.2]
    exact if_neg (Ne.symm h.1)

/-- A text splits at its last separator, whatever comes before it. -/
theorem splitLast_append (h : separator ∉ part) (before : List Char) :
    splitLast separator (before ++ separator :: part) = some (before, part) := by
  induction before with
  | nil =>
    rw [List.nil_append, splitLast, splitLast_of_not_mem h]
    exact if_pos rfl
  | cons c rest ih => rw [List.cons_append, splitLast, ih]

end Splitting

theorem hexPart_toDigits (n : ℕ) : hexPart (Nat.toDigits 16 n) = true := by
  have hdigit : ∀ digit : Fin 16, isHex (Nat.digitChar digit) = true := by decide
  rw [hexPart, Bool.and_eq_true, Bool.not_eq_true', List.isEmpty_eq_false_iff]
  refine ⟨Nat.toDigits_ne_nil, ?_⟩
  induction n using Nat.strong_induction_on with
  | h n ih =>
    rcases Nat.lt_or_ge n 16 with hlt | hle
    · rw [Nat.toDigits_of_lt_base hlt, List.all_cons, List.all_nil, Bool.and_true]
      exact hdigit ⟨n, hlt⟩
    · rw [Nat.toDigits_of_base_le (by decide) hle, List.all_append, Bool.and_eq_true]
      refine ⟨ih (n / 16) (by omega), ?_⟩
      rw [List.all_cons, List.all_nil, Bool.and_true]
      exact hdigit ⟨n % 16, Nat.mod_lt n (by decide)⟩

theorem hyphen_not_mem_toDigits (n : ℕ) : '-' ∉ Nat.toDigits 16 n := by
  intro hmem
  have hhex := (Bool.and_eq_true_iff.mp (hexPart_toDigits n)).2
  exact absurd (List.all_eq_true.mp hhex '-' hmem) (by decide)

theorem splitLast_unique (slug : List Char) (pid nanos count : ℕ) :
    splitLast '-' (slug ++ '-' :: unique pid nanos count) =
        some (slug ++ '-' :: (Nat.toDigits 16 pid ++ '-' :: Nat.toDigits 16 nanos),
          Nat.toDigits 16 count) ∧
      splitLast '-' (slug ++ '-' :: (Nat.toDigits 16 pid ++ '-' :: Nat.toDigits 16 nanos)) =
        some (slug ++ '-' :: Nat.toDigits 16 pid, Nat.toDigits 16 nanos) ∧
      splitLast '-' (slug ++ '-' :: Nat.toDigits 16 pid) = some (slug, Nat.toDigits 16 pid) := by
  refine ⟨?_, ?_, splitLast_append (hyphen_not_mem_toDigits pid) slug⟩
  · rw [← splitLast_append (hyphen_not_mem_toDigits count)]
    simp [unique]
  · rw [← splitLast_append (hyphen_not_mem_toDigits nanos)]
    simp

theorem branchSlug_ne_nil {branch : List Char} (hdigest : ∀ branch, digest branch ≠ []) :
    branchSlug digest branch ≠ [] ↔ branch ≠ [] := by
  rw [branchSlug]
  split
  · rw [ne_eq, List.map_eq_nil_iff]
  next hall =>
    refine iff_of_true (hdigest branch) ?_
    rintro rfl
    exact hall rfl

/-- A sweep takes the run root that a landing cuts for one, unless its branch has no name; and two
landings name a run root alike only where their branches have one slug and one process cut them at
one moment with one count. -/
theorem runRootName_recognised (hdigest : ∀ branch, digest branch ≠ []) (branch : List Char)
    (pid nanos count : ℕ) :
    (namesARun (runRootName digest branch pid nanos count) = true ↔ branch ≠ []) ∧
      ∀ other pid' nanos' count', runRootName digest branch pid nanos count =
          runRootName digest other pid' nanos' count' →
        branchSlug digest branch = branchSlug digest other ∧
          pid = pid' ∧ nanos = nanos' ∧ count = count' := by
  obtain ⟨hcount, hnanos, hpid⟩ := splitLast_unique (branchSlug digest branch) pid nanos count
  constructor
  · rw [← branchSlug_ne_nil digest hdigest, namesARun, runRootName, String.toList_ofList]
    simp [hcount, hnanos, hpid, hexPart_toDigits]
  · intro other pid' nanos' count' heq
    obtain ⟨hcount', hnanos', hpid'⟩ := splitLast_unique (branchSlug digest other) pid' nanos' count'
    rw [String.ofList_injective heq, hcount', Option.some.injEq, Prod.mk.injEq] at hcount
    rw [← hcount.1, hnanos', Option.some.injEq, Prod.mk.injEq] at hnanos
    rw [← hnanos.1, hpid', Option.some.injEq, Prod.mk.injEq] at hpid
    have hinj := Foundations.toDigits_injective (b := 16) (by decide) (by decide)
    exact ⟨hpid.1.symm, (hinj hpid.2).symm, (hinj hnanos.2).symm, (hinj hcount.2).symm⟩

theorem runRootName_recognised_feature :
    namesARun (runRootName (fun _ => List.replicate 12 '0') "feature/x".toList 4242 7 0) = true := by
  apply (runRootName_recognised _ _ "feature/x".toList 4242 7 0).1.mpr
  · decide
  · exact fun _ => by decide

end Onevcs.Sweep
