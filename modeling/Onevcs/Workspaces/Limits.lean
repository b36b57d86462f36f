import Onevcs.Foundations.Outcome
import Onevcs.Rules.Policy
import Onevcs.Workspaces.Span

/-!
# The limits of a repository's workspaces

`validate` and `resolve` of `workspaces.rs`: how many warm slots a repository keeps, how many
sessions it admits past them and what a return deletes, from the first matching rule of the
workspaces file, its default, the environment and the open's own overrides.

Which rule matches is decided by `policy::matches`, under the home directory of the process. A
path is its text, as is what a variable of the environment holds; reading the YAML text into the
file is not modelled.
-/

namespace Onevcs.Workspaces

open Foundations (Text bind_eq_ok forM_eq_ok_iff parseUnsigned isNumeral)
open Rules (Normalized RuleMatch ruleMatches)

/-! ## The file -/

inductive Bound
  | unlimited
  | bounded (count : UInt32)
  deriving DecidableEq

def Bound.fromStr (escaping : Escaping) (text : Text) : Except Text Bound :=
  if text = "unlimited".toList then .ok .unlimited
  else
    match if isNumeral text then parseUnsigned 32 text else none with
    | some count => .ok (.bounded (UInt32.ofNat count))
    | none =>
      .error (escaping.text text ++
        " is not a bound: write `unlimited` or a non-negative integer".toList)

/-- `MaintenanceCommand`: a program that is never empty, and its arguments. -/
structure MaintenanceCommand where
  program : Text
  args : List Text
  named : program ≠ []

structure Maintenance where
  command : MaintenanceCommand
  timeout : Span

/-- `WorkspaceDefault`, with the values a document leaves out. -/
structure WorkspaceDefault where
  pool : UInt32 := 0
  overflow : Bound := .unlimited
  delete : List Text := []
  maintain : Option Maintenance := none

structure WorkspaceRule where
  criteria : RuleMatch
  pool : Option UInt32 := none
  overflow : Option Bound := none
  delete : Option (List Text) := none
  maintain : Option Maintenance := none

/-- `WorkspacesFile`; its version is looked at before it is one. -/
structure WorkspacesFile where
  default : WorkspaceDefault := {}
  rules : List WorkspaceRule := []

/-- The name a refusal and a source give a rule. -/
def ruleName (index : ℕ) : Text := "rule ".toList ++ Nat.toDigits 10 (index + 1)

/-- `escapes`: why a `delete` entry could reach outside the worktree. -/
def escapes (entry : Text) : Option Text :=
  if entry.isEmpty then some "is empty".toList
  else if entry.head? = some '/' then some "is an absolute path".toList
  else if "..".toList ∈ entry.splitOn '/' then some "climbs out of the worktree".toList
  else none

/-- What `validate` checks of one policy. -/
def checkPolicy (escaping : Escaping) (path name : Text) (policy : WorkspaceDefault) :
    Except Text Unit := do
  policy.delete.forM fun entry =>
    match escapes entry with
    | some reason =>
      .error ("the workspaces file at ".toList ++ path ++ " names ".toList ++
        escaping.text entry ++ " under delete in ".toList ++ name ++ ", which ".toList ++
        reason ++ "; a delete entry is a relative path inside the worktree".toList)
    | none => .ok ()
  if policy.pool = 0 ∧ policy.overflow = .bounded 0 then
    .error ("the workspaces file at ".toList ++ path ++ " has ".toList ++ name ++
      " combining pool: 0 with overflow: 0, which admits no session at all: ".toList ++
      "raise one of them".toList)
  else .ok ()

/-- The policy a rule is checked as: what it sets, and the limits of the default. -/
def checkedRule (file : WorkspacesFile) (rule : WorkspaceRule) : WorkspaceDefault where
  pool := rule.pool.getD file.default.pool
  overflow := rule.overflow.getD file.default.overflow
  delete := rule.delete.getD []
  maintain := rule.maintain

def validate (escaping : Escaping) (path : Text) (file : WorkspacesFile) : Except Text Unit := do
  checkPolicy escaping path "default".toList file.default
  file.rules.zipIdx.forM fun (rule, index) =>
    checkPolicy escaping path (ruleName index) (checkedRule file rule)

/-! ## What is answered -/

inductive FileSource
  | file (path : Text)
  | shipped

structure Sourced (α : Type) where
  value : α
  source : Text

structure Overrides where
  pool : Option UInt32 := none
  overflow : Option Bound := none

/-- What the two variables of the environment hold. -/
structure Environment where
  pool : Option Text := none
  overflow : Option Text := none

/-- `environment_pool`. -/
def Environment.poolValue (escaping : Escaping) (env : Environment) :
    Except Text (Option UInt32) :=
  match env.pool with
  | none => .ok none
  | some raw =>
    let trimmed := Store.trim raw
    match if isNumeral trimmed then parseUnsigned 32 trimmed else none with
    | some pool => .ok (some (UInt32.ofNat pool))
    | none =>
      .error ("ONEVCS_POOL must be a non-negative integer, not ".toList ++ escaping.text raw)

/-- `environment_overflow`. -/
def Environment.overflowValue (escaping : Escaping) (env : Environment) :
    Except Text (Option Bound) :=
  match env.overflow with
  | none => .ok none
  | some raw =>
    match Bound.fromStr escaping (Store.trim raw) with
    | .ok overflow => .ok (some overflow)
    | .error reason => .error ("ONEVCS_OVERFLOW is not a bound: ".toList ++ reason)

structure Resolved where
  pool : Sourced UInt32
  overflow : Sourced Bound
  filePool : UInt32
  delete : List Text
  maintain : Option Maintenance
  maintainFrom : Text
  configured : Bool

/-- The name of a layer of the file. -/
def layer (source : FileSource) (name : Text) : Text :=
  match source with
  | .file path => name ++ " of ".toList ++ path
  | .shipped => "the shipped default".toList

/-- The first rule that matches, with its position. -/
def firstMatch (home : Option String) (file : WorkspacesFile) (identity : Normalized)
    (checkout : String) : Option (WorkspaceRule × ℕ) :=
  file.rules.zipIdx.find? fun (rule, _) => ruleMatches home rule.criteria identity checkout

/-- What the matching rule sets, else the default's, with the layer it is of. -/
def fromFile {α : Type} (source : FileSource) (matched : Option (WorkspaceRule × ℕ))
    (field : WorkspaceRule → Option α) (otherwise : α) : Sourced α :=
  match matched with
  | some (rule, index) =>
    match field rule with
    | some value => ⟨value, layer source (ruleName index)⟩
    | none => ⟨otherwise, layer source "default:".toList⟩
  | none => ⟨otherwise, layer source "default:".toList⟩

/-- A value of a higher layer, else what stands below it. -/
def Sourced.under {α : Type} (standing : Sourced α) (higher : Option α) (name : Text) :
    Sourced α :=
  match higher with
  | some value => ⟨value, name⟩
  | none => standing

/-- What is left to decide once the limits are: what is deleted, and what maintenance is. -/
def assemble (file : WorkspacesFile) (source : FileSource)
    (matched : Option (WorkspaceRule × ℕ)) (pool : Sourced UInt32) (overflow : Sourced Bound) :
    Resolved :=
  let filePool := (fromFile source matched WorkspaceRule.pool file.default.pool).value
  let delete := (fromFile source matched WorkspaceRule.delete file.default.delete).value
  let maintain := (matched.bind fun (rule, _) => rule.maintain).or file.default.maintain
  { pool, overflow, filePool, delete, maintain
    maintainFrom := (fromFile source matched (fun rule => rule.maintain.map some)
      file.default.maintain).source
    configured := 0 < pool.value || overflow.value ≠ .unlimited || 0 < filePool ||
      !delete.isEmpty || maintain.isSome }

def resolve (escaping : Escaping) (home : Option String) (env : Environment)
    (file : WorkspacesFile) (source : FileSource) (identity : Normalized) (checkout : String)
    (overrides : Overrides) : Except Text Resolved := do
  let matched := firstMatch home file identity checkout
  let poolOfEnv ← env.poolValue escaping
  let pool := ((fromFile source matched WorkspaceRule.pool file.default.pool).under poolOfEnv
    "ONEVCS_POOL in the environment".toList).under overrides.pool "--pool on this open".toList
  let overflowOfEnv ← env.overflowValue escaping
  let overflow :=
    ((fromFile source matched WorkspaceRule.overflow file.default.overflow).under overflowOfEnv
      "ONEVCS_OVERFLOW in the environment".toList).under overrides.overflow
      "--overflow on this open".toList
  if pool.value = 0 ∧ overflow.value = .bounded 0 then
    .error ("no session of ".toList ++ identity.key.toList ++
      " can be admitted: pool is 0 (from ".toList ++ pool.source ++
      ") and overflow is 0 (from ".toList ++ overflow.source ++
      "), which together admit nothing; raise one of them".toList)
  else .ok (assemble file source matched pool overflow)

structure Inside (entry : Text) : Prop where
  named : entry ≠ []
  relative : entry.head? ≠ some '/'
  contained : "..".toList ∉ entry.splitOn '/'

/-- A policy that admits a session, and deletes nothing outside the worktree. -/
structure Admissible (policy : WorkspaceDefault) : Prop where
  admits : ¬ (policy.pool = 0 ∧ policy.overflow = .bounded 0)
  inside : ∀ entry ∈ policy.delete, Inside entry

variable {escaping : Escaping} {path name entry : Text} {policy : WorkspaceDefault}
  {file : WorkspacesFile} {home : Option String} {env : Environment} {source : FileSource}
  {identity : Normalized} {checkout : String} {overrides : Overrides} {resolved : Resolved}

theorem escapes_eq_none_iff : escapes entry = none ↔ Inside entry := by
  unfold escapes
  constructor
  · intro h
    split at h
    · cases h
    · next hempty =>
      split at h
      · cases h
      · next hhead =>
        split at h
        · cases h
        · next hclimbs => exact ⟨mt List.isEmpty_iff.mpr hempty, hhead, hclimbs⟩
  · rintro ⟨hnamed, hrelative, hcontained⟩
    rw [if_neg (mt List.isEmpty_iff.mp hnamed), if_neg hrelative, if_neg hcontained]

theorem checkPolicy_ok_iff :
    checkPolicy escaping path name policy = .ok () ↔ Admissible policy := by
  rw [checkPolicy, bind_eq_ok]
  constructor
  · rintro ⟨_, hentries, hlimits⟩
    split at hlimits
    · cases hlimits
    · next hadmits =>
      refine ⟨hadmits, fun entry hentry => escapes_eq_none_iff.mp ?_⟩
      have hchecked := forM_eq_ok_iff.mp hentries entry hentry
      cases hescapes : escapes entry with
      | none => rfl
      | some reason => rw [hescapes] at hchecked; cases hchecked
  · rintro ⟨hadmits, hinside⟩
    refine ⟨(), forM_eq_ok_iff.mpr fun entry hentry => ?_, if_neg hadmits⟩
    rw [escapes_eq_none_iff.mpr (hinside entry hentry)]

/-- A file is accepted where its default admits a session and deletes inside the worktree, and so
does each rule over the limits of the default. -/
theorem validate_ok_iff :
    validate escaping path file = .ok () ↔
      Admissible file.default ∧ ∀ rule ∈ file.rules, Admissible (checkedRule file rule) := by
  rw [validate, bind_eq_ok]
  constructor
  · rintro ⟨_, hdefault, hrules⟩
    refine ⟨checkPolicy_ok_iff.mp hdefault, fun rule hrule => ?_⟩
    obtain ⟨index, hindex, rfl⟩ := List.getElem_of_mem hrule
    have hentry : (file.rules[index], index) ∈ file.rules.zipIdx :=
      List.mk_mem_zipIdx_iff_getElem?.mpr (List.getElem?_eq_getElem hindex)
    exact checkPolicy_ok_iff.mp (forM_eq_ok_iff.mp hrules _ hentry)
  · rintro ⟨hdefault, hrules⟩
    refine ⟨(), checkPolicy_ok_iff.mpr hdefault, forM_eq_ok_iff.mpr fun entry hentry => ?_⟩
    exact checkPolicy_ok_iff.mpr (hrules entry.1 (List.fst_mem_of_mem_zipIdx hentry))

/-! ## Resolved limits -/

theorem fromFile_value {α : Type} (matched : Option (WorkspaceRule × ℕ))
    (field : WorkspaceRule → Option α) (otherwise : α) :
    (fromFile source matched field otherwise).value =
      (matched.bind fun entry => field entry.1).getD otherwise := by
  cases matched with
  | none => rfl
  | some entry =>
    obtain ⟨rule, index⟩ := entry
    cases hfield : field rule <;> simp [fromFile, hfield]

/-- What is resolved, with the values that the environment holds. -/
theorem resolve_ok_iff :
    resolve escaping home env file source identity checkout overrides = .ok resolved ↔
      ∃ poolOfEnv overflowOfEnv,
        env.poolValue escaping = .ok poolOfEnv ∧ env.overflowValue escaping = .ok overflowOfEnv ∧
        ¬ (resolved.pool.value = 0 ∧ resolved.overflow.value = .bounded 0) ∧
        resolved = assemble file source (firstMatch home file identity checkout)
          (((fromFile source (firstMatch home file identity checkout) WorkspaceRule.pool
            file.default.pool).under poolOfEnv "ONEVCS_POOL in the environment".toList).under
              overrides.pool "--pool on this open".toList)
          (((fromFile source (firstMatch home file identity checkout) WorkspaceRule.overflow
            file.default.overflow).under overflowOfEnv
              "ONEVCS_OVERFLOW in the environment".toList).under overrides.overflow
                "--overflow on this open".toList) := by
  simp only [resolve, bind_eq_ok]
  constructor
  · rintro ⟨poolOfEnv, hpool, overflowOfEnv, hoverflow, h⟩
    split at h
    · cases h
    · next hadmits =>
      obtain rfl := Except.ok.inj h
      exact ⟨poolOfEnv, overflowOfEnv, hpool, hoverflow, hadmits, rfl⟩
  · rintro ⟨poolOfEnv, overflowOfEnv, hpool, hoverflow, hadmits, rfl⟩
    exact ⟨poolOfEnv, hpool, overflowOfEnv, hoverflow, if_neg hadmits⟩

theorem mem_rules_of_firstMatch {rule : WorkspaceRule} {index : ℕ}
    (h : firstMatch home file identity checkout = some (rule, index)) : rule ∈ file.rules :=
  List.fst_mem_of_mem_zipIdx (List.mem_of_find?_eq_some h)

theorem admits_of_validate (h : validate escaping path file = .ok ()) :
    ¬ ((fromFile source (firstMatch home file identity checkout) WorkspaceRule.pool
        file.default.pool).value = 0 ∧
      (fromFile source (firstMatch home file identity checkout) WorkspaceRule.overflow
        file.default.overflow).value = .bounded 0) := by
  obtain ⟨hdefault, hrules⟩ := validate_ok_iff.mp h
  rw [fromFile_value, fromFile_value]
  cases hmatch : firstMatch home file identity checkout with
  | none => exact hdefault.admits
  | some entry => exact (hrules entry.1 (mem_rules_of_firstMatch hmatch)).admits

theorem inside_of_validate (h : validate escaping path file = .ok ())
    (hentry : entry ∈ (fromFile source (firstMatch home file identity checkout)
      WorkspaceRule.delete file.default.delete).value) : Inside entry := by
  obtain ⟨hdefault, hrules⟩ := validate_ok_iff.mp h
  rw [fromFile_value] at hentry
  cases hmatch : firstMatch home file identity checkout with
  | none =>
    rw [hmatch] at hentry
    exact hdefault.inside entry hentry
  | some found =>
    rw [hmatch, Option.bind_some] at hentry
    have hrule := (hrules found.1 (mem_rules_of_firstMatch hmatch)).inside entry
    rw [checkedRule] at hrule
    cases hdelete : found.1.delete with
    | none =>
      rw [hdelete] at hentry
      exact hdefault.inside entry hentry
    | some entries =>
      rw [hdelete] at hentry hrule
      exact hrule hentry

/-- An accepted file, with no override and nothing in the environment, is resolved for every
repository: to limits that admit a session, and to what the first matching rule deletes, or else
the default, none of it outside the worktree. -/
theorem limits_resolve (h : validate escaping path file = .ok ()) (home : Option String)
    (source : FileSource) (identity : Normalized) (checkout : String) :
    ∃ resolved, resolve escaping home {} file source identity checkout {} = .ok resolved ∧
      ¬ (resolved.pool.value = 0 ∧ resolved.overflow.value = .bounded 0) ∧
      resolved.delete = ((firstMatch home file identity checkout).bind
        fun entry => entry.1.delete).getD file.default.delete ∧
      ∀ entry ∈ resolved.delete, Inside entry := by
  have hadmits := @admits_of_validate escaping path file home source identity checkout h
  refine ⟨_, resolve_ok_iff.mpr ⟨none, none, rfl, rfl, hadmits, rfl⟩, hadmits, ?_, ?_⟩
  · exact fromFile_value _ _ _
  · exact fun entry hentry => inside_of_validate h hentry

/-- A file of one slot and no session past it, that returns delete a build in. -/
def slotted : WorkspacesFile where
  default := { pool := 1, overflow := .bounded 0, delete := ["target".toList] }
  rules := [{ criteria := {}, overflow := some (.bounded 2) }]

theorem validate_slotted : validate Span.plainly [] slotted = .ok () := by
  rfl

def onHost : Normalized := ⟨"/repository", none⟩

theorem limits_resolve_slotted :
    ∃ resolved, resolve Span.plainly none {} slotted .shipped onHost "/repository" {} =
        .ok resolved ∧
      ¬ (resolved.pool.value = 0 ∧ resolved.overflow.value = .bounded 0) ∧
      resolved.delete = ((firstMatch none slotted onHost "/repository").bind
        fun entry => entry.1.delete).getD slotted.default.delete ∧
      ∀ entry ∈ resolved.delete, Inside entry :=
  limits_resolve validate_slotted none .shipped onHost "/repository"

/-- An accepted file whose default deletes a build has it deleted. -/
theorem build_deleted :
    ¬ ∀ (escaping : Escaping) (path : Text) (file : WorkspacesFile) (home : Option String)
        (source : FileSource) (identity : Normalized) (checkout : String) (resolved : Resolved),
      validate escaping path file = .ok () →
        resolve escaping home {} file source identity checkout {} = .ok resolved →
          resolved.delete = [] := by
  intro hall
  have hadmits := @admits_of_validate Span.plainly [] slotted none .shipped onHost "/repository"
    validate_slotted
  have hnone := hall Span.plainly [] slotted none .shipped onHost "/repository" _ validate_slotted
    (resolve_ok_iff.mpr ⟨none, none, rfl, rfl, hadmits, rfl⟩)
  exact absurd hnone (by decide +kernel)

end Onevcs.Workspaces
