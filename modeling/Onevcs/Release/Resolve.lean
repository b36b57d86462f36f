import Onevcs.Declared.Declaration
import Onevcs.Foundations.Dict
import Onevcs.Foundations.Outcome
import Onevcs.Foundations.Overlay

/-!
# Resolving what a repository releases

`validate`, `first_match` and `resolve` of `release.rs`: the targets that a repository's own
declaration names, and those the release-targets file of a host names for it, laid over each other,
with what each came from. A declared target is as `declaration.rs` reads it. How a rule is matched
to a repository is a parameter.
-/

namespace Onevcs.Release

open Foundations (Text Dict bind_eq_ok put overlay overriding overlay_eq nodup_overlay
  key_overriding)
open Declared (Declaration DeclaredTarget TargetName InstructionTemplate)

variable {minijinja : Text → Except Text Unit}

/-! ## The documents -/

inductive Probe
  | script (script : List UInt8) (args : List Text) (timeoutSeconds : ℕ)
  | shell (shell : Text) (timeoutSeconds : ℕ)
  deriving DecidableEq

def defaultProbeTimeoutSeconds : ℕ := 60

inductive ReleaseMethod
  | automated (probe : Probe)
  | humanStep (action : Text)
  deriving DecidableEq

structure ReleaseTarget (minijinja : Text → Except Text Unit) where
  name : TargetName
  release : ReleaseMethod
  adoptionInstructions : Option (InstructionTemplate minijinja)
  deriving DecidableEq

/-- The name a target is told apart by. -/
def ReleaseTarget.key (target : ReleaseTarget minijinja) : Text := target.name.value

inductive DeclarationPolicy
  | merge
  | ignore
  deriving DecidableEq

/-- `ReleaseRule`, as far as the targets go. -/
structure ReleaseRule (minijinja : Text → Except Text Unit) where
  defaultTarget : Option TargetName
  declaration : Option DeclarationPolicy
  targets : List (ReleaseTarget minijinja)
  deriving DecidableEq

/-- Why a release-targets file is refused. -/
inductive Dishonoured
  | twice (rule : ℕ) (name : TargetName)
  | defaultTarget (rule : ℕ) (default : TargetName) (declared : List TargetName)
  deriving DecidableEq

/-- The first name that was seen before. -/
def repeated (seen : List TargetName) : List (ReleaseTarget minijinja) → Option TargetName
  | [] => none
  | target :: rest =>
    if target.name ∈ seen then some target.name else repeated (target.name :: seen) rest

def honoursDefault (rule : ℕ) (default : Option TargetName)
    (targets : List (ReleaseTarget minijinja)) : Except Dishonoured Unit :=
  match default with
  | none => .ok ()
  | some default =>
    if targets.any (·.name = default) then .ok ()
    else .error (.defaultTarget rule default (targets.map (·.name)))

/-- One rule, by its number: no target is declared twice. -/
def namesOnce (number : ℕ) (rule : ReleaseRule minijinja) : Except Dishonoured Unit :=
  match repeated [] rule.targets with
  | some name => .error (.twice number name)
  | none => .ok ()

/-- One rule, by its number: its default is a target where it is the whole answer. -/
def defaultDeclared (number : ℕ) (rule : ReleaseRule minijinja) : Except Dishonoured Unit :=
  if rule.declaration = some .ignore then honoursDefault number rule.defaultTarget rule.targets
  else .ok ()

/-- `validate`: the rules from one position on. -/
def validateFrom : ℕ → List (ReleaseRule minijinja) → Except Dishonoured Unit
  | _, [] => .ok ()
  | index, rule :: rest => do
    namesOnce (index + 1) rule
    defaultDeclared (index + 1) rule
    validateFrom (index + 1) rest

def validate (repositories : List (ReleaseRule minijinja)) : Except Dishonoured Unit :=
  validateFrom 0 repositories

def firstMatch (applies : ReleaseRule minijinja → Bool)
    (repositories : List (ReleaseRule minijinja)) : Option (ReleaseRule minijinja) :=
  repositories.find? applies

inductive DeclarationSource (minijinja : Text → Except Text Unit)
  | declared (document : Text) (declared : Declaration minijinja)
  | undeclared (lookedIn : Text)
  | unreadable (reason : Text)

/-- `DeclarationSource::declared`. -/
def DeclarationSource.declaration :
    DeclarationSource minijinja → Option (Declaration minijinja)
  | .declared _ declaration => some declaration
  | .undeclared _ | .unreadable _ => none

inductive TargetSource
  | declared
  | host
  | override
  deriving DecidableEq

/-! ## Resolving -/

def fromDeclaration (declared : Declaration minijinja) (target : DeclaredTarget minijinja) :
    ReleaseTarget minijinja where
  name := target.name
  release :=
    match declared.probe with
    | some script =>
      .automated (.script script.value [target.id.value] defaultProbeTimeoutSeconds)
    | none =>
      .humanStep (("this repository's declaration names no probe, so record its release with " ++
        "`onevcs release acknowledge --target ").toList ++ target.name.value ++ ['`'])
  adoptionInstructions := target.adoptionInstructions

/-- What is done with a declaration where a rule says nothing is to merge it. -/
def policyOf (rule : Option (ReleaseRule minijinja)) : DeclarationPolicy :=
  (rule.bind (·.declaration)).getD .merge

def declaredLayer (rule : Option (ReleaseRule minijinja))
    (declaration : DeclarationSource minijinja) : List (ReleaseTarget minijinja) :=
  match policyOf rule, declaration.declaration with
  | .merge, some declared => declared.targets.map (fromDeclaration declared)
  | _, _ => []

def hostLayer (rule : Option (ReleaseRule minijinja)) : List (ReleaseTarget minijinja) :=
  (rule.map (·.targets)).getD []

/-- The targets so far, and the source of each. -/
abbrev Resolving (minijinja : Text → Except Text Unit) :=
  List (ReleaseTarget minijinja) × Dict Text TargetSource

/-- Lay one target the host names over the targets so far. -/
def resolveOne (resolving : Resolving minijinja) (named : ReleaseTarget minijinja) :
    Resolving minijinja :=
  match resolving.1.findIdx? fun target => target.name = named.name with
  -- The producer's position is kept.
  | some place => (resolving.1.set place named, Dict.insert named.key .override resolving.2)
  | none => (resolving.1 ++ [named], Dict.insert named.key .host resolving.2)

/-- The source of each target of the producer's layer. -/
def declaredSources (targets : List (ReleaseTarget minijinja)) : Dict Text TargetSource :=
  targets.foldl (fun sources target => Dict.insert target.key .declared sources) []

def resolve (rule : Option (ReleaseRule minijinja)) (declaration : DeclarationSource minijinja) :
    Resolving minijinja :=
  let targets := declaredLayer rule declaration
  (hostLayer rule).foldl resolveOne (targets, declaredSources targets)

section Names

variable {targets : List (ReleaseTarget minijinja)} {rule : ReleaseRule minijinja}
variable {repositories : List (ReleaseRule minijinja)}

theorem key_eq_iff {a b : ReleaseTarget minijinja} : a.key = b.key ↔ a.name = b.name := by
  unfold ReleaseTarget.key
  constructor
  · intro h
    cases ha : a.name
    cases hb : b.name
    simp_all
  · intro h
    rw [h]

theorem nodup_key_iff : (targets.map ReleaseTarget.key).Nodup ↔ (targets.map (·.name)).Nodup := by
  simp only [List.Nodup, List.pairwise_map, ne_eq, key_eq_iff]

theorem nodup_of_repeated {seen : List TargetName} (h : repeated seen targets = none) :
    (∀ target ∈ targets, target.name ∉ seen) ∧ (targets.map (·.name)).Nodup := by
  induction targets generalizing seen with
  | nil => exact ⟨nofun, List.nodup_nil⟩
  | cons target rest ih =>
    rw [repeated] at h
    split at h
    · cases h
    · next hfresh =>
      obtain ⟨hseen, hrest⟩ := ih h
      refine ⟨?_, ?_⟩
      · rw [List.forall_mem_cons]
        exact ⟨hfresh, fun other hother hmem => hseen other hother (List.mem_cons_of_mem _ hmem)⟩
      · rw [List.map_cons, List.nodup_cons]
        refine ⟨fun hmem => ?_, hrest⟩
        obtain ⟨other, hother, heq⟩ := List.mem_map.mp hmem
        exact hseen other hother (heq ▸ List.mem_cons_self)

theorem nodup_of_validateFrom {index : ℕ} (h : validateFrom index repositories = .ok ())
    (hrule : rule ∈ repositories) : (rule.targets.map ReleaseTarget.key).Nodup := by
  induction repositories generalizing index with
  | nil => cases hrule
  | cons first rest ih =>
    rw [validateFrom] at h
    obtain ⟨_, hnames, h⟩ := bind_eq_ok.mp h
    obtain ⟨_, -, h⟩ := bind_eq_ok.mp h
    rcases List.mem_cons.mp hrule with rfl | hrule
    · unfold namesOnce at hnames
      split at hnames
      · cases hnames
      · next hnone => exact nodup_key_iff.mpr (nodup_of_repeated hnone).2
    · exact ih h hrule

theorem nodup_hostLayer {applies : ReleaseRule minijinja → Bool}
    (h : validate repositories = .ok ()) :
    ((hostLayer (firstMatch applies repositories)).map ReleaseTarget.key).Nodup := by
  cases hrule : firstMatch applies repositories with
  | none => exact List.nodup_nil
  | some rule => exact nodup_of_validateFrom h (List.mem_of_find?_eq_some hrule)

theorem names_of_validateTargets {earlier targets : List (DeclaredTarget minijinja)}
    (h : Declared.validateTargets earlier targets = .ok ()) :
    (∀ target ∈ targets, ∀ other ∈ earlier, other.name ≠ target.name) ∧
      (targets.map (·.name)).Nodup := by
  induction targets generalizing earlier with
  | nil => exact ⟨nofun, List.nodup_nil⟩
  | cons target rest ih =>
    rw [Declared.validateTargets] at h
    cases hname : earlier.findIdx? fun other => other.name = target.name with
    | some index =>
      rw [hname] at h
      cases h
    | none =>
      rw [hname] at h
      cases hid : earlier.findIdx? fun other => other.id = target.id with
      | some index =>
        rw [hid] at h
        cases h
      | none =>
        rw [hid] at h
        obtain ⟨hearlier, hrest⟩ := ih h
        rw [List.findIdx?_eq_none_iff] at hname
        refine ⟨?_, ?_⟩
        · rw [List.forall_mem_cons]
          refine ⟨fun other hother => by simpa using hname other hother, ?_⟩
          intro later hlater other hother
          exact hearlier later hlater other (List.mem_append_left _ hother)
        · rw [List.map_cons, List.nodup_cons]
          refine ⟨fun hmem => ?_, hrest⟩
          obtain ⟨later, hlater, heq⟩ := List.mem_map.mp hmem
          exact hearlier later hlater target
            (List.mem_append_right _ List.mem_cons_self) heq.symm

theorem nodup_declared {declared : Declaration minijinja}
    (h : Declared.validate declared = .ok ()) :
    ((declared.targets.map (fromDeclaration declared)).map ReleaseTarget.key).Nodup := by
  unfold Declared.validate at h
  split at h
  · cases h
  · obtain ⟨_, htargets, -⟩ := bind_eq_ok.mp h
    have hnames := (names_of_validateTargets htargets).2
    rw [nodup_key_iff, List.map_map]
    exact hnames

end Names

section Resolved

variable {targets named : List (ReleaseTarget minijinja)} {resolving : Resolving minijinja}
variable {target : ReleaseTarget minijinja} {name : Text}

theorem put_eq_findIdx :
    put ReleaseTarget.key target targets =
      match targets.findIdx? fun other => other.name = target.name with
      | some place => targets.set place target
      | none => targets ++ [target] := by
  induction targets with
  | nil => rfl
  | cons first rest ih =>
    rw [put, List.findIdx?_cons]
    by_cases hname : first.name = target.name
    · simp [key_eq_iff, hname]
    · rw [if_neg (fun hkey => hname (key_eq_iff.mp hkey)), ih]
      cases rest.findIdx? fun other => other.name = target.name with
      | none => simp [hname]
      | some place => simp [hname]

theorem resolveOne_targets :
    (resolveOne resolving target).1 = put ReleaseTarget.key target resolving.1 := by
  rw [put_eq_findIdx, resolveOne]
  cases resolving.1.findIdx? fun other => other.name = target.name with
  | none => rfl
  | some place => rfl

theorem foldl_resolveOne_targets :
    (named.foldl resolveOne resolving).1 = overlay ReleaseTarget.key resolving.1 named := by
  induction named generalizing resolving with
  | nil => rfl
  | cons target rest ih =>
    rw [List.foldl_cons, ih, resolveOne_targets]
    rfl

/-- Where a target of the host's comes from. -/
def hostSource (produced : List (ReleaseTarget minijinja)) (name : Text) : TargetSource :=
  if name ∈ produced.map ReleaseTarget.key then .override else .host

theorem resolveOne_sources :
    (resolveOne resolving target).2 =
      Dict.insert target.key (hostSource resolving.1 target.key) resolving.2 := by
  rw [resolveOne, hostSource]
  cases hplace : resolving.1.findIdx? fun other => other.name = target.name with
  | none =>
    rw [List.findIdx?_eq_none_iff] at hplace
    rw [if_neg]
    intro hmem
    obtain ⟨other, hother, hkey⟩ := List.mem_map.mp hmem
    simpa [key_eq_iff.mp hkey] using hplace other hother
  | some place =>
    obtain ⟨hlt, hname, -⟩ := List.findIdx?_eq_some_iff_getElem.mp hplace
    rw [if_pos]
    exact List.mem_map.mpr
      ⟨resolving.1[place], List.getElem_mem hlt, key_eq_iff.mpr (by simpa using hname)⟩

theorem hostSource_put (h : name ≠ target.key) :
    hostSource (put ReleaseTarget.key target targets) name = hostSource targets name := by
  have hmem : name ∈ (put ReleaseTarget.key target targets).map ReleaseTarget.key ↔
      name ∈ targets.map ReleaseTarget.key := by
    induction targets with
    | nil => simp [put, h]
    | cons first rest ih =>
      rw [put]
      split
      · next hkey => simp [hkey, h]
      · rw [List.map_cons, List.mem_cons, ih, List.map_cons, List.mem_cons]
  simp only [hostSource, hmem]

theorem get_foldl_resolveOne (hnamed : (named.map ReleaseTarget.key).Nodup) :
    Dict.get name (named.foldl resolveOne resolving).2 =
      if name ∈ named.map ReleaseTarget.key then some (hostSource resolving.1 name)
      else Dict.get name resolving.2 := by
  induction named generalizing resolving with
  | nil => simp
  | cons target rest ih =>
    rw [List.map_cons, List.nodup_cons] at hnamed
    rw [List.foldl_cons, ih hnamed.2, resolveOne_targets, resolveOne_sources]
    by_cases hname : name = target.key
    · rw [hname, if_neg hnamed.1, Dict.get_insert_self, List.map_cons,
        if_pos List.mem_cons_self]
    · rw [hostSource_put hname, Dict.get_insert_of_ne hname, List.map_cons]
      simp [hname]

theorem get_declaredSources :
    Dict.get name (declaredSources targets) =
      if name ∈ targets.map ReleaseTarget.key then some .declared else none := by
  have hfold : ∀ sources : Dict Text TargetSource,
      Dict.get name (targets.foldl
        (fun sources target => Dict.insert target.key .declared sources) sources) =
        if name ∈ targets.map ReleaseTarget.key then some .declared
        else Dict.get name sources := by
    induction targets with
    | nil => simp
    | cons target rest ih =>
      intro sources
      rw [List.foldl_cons, ih]
      by_cases hname : name = target.key
      · simp [hname, Dict.get_insert_self]
      · rw [Dict.get_insert_of_ne hname]
        simp [hname]
  rw [declaredSources, hfold]
  rfl

variable {rule : Option (ReleaseRule minijinja)} {declaration : DeclarationSource minijinja}

/-- The producer's targets in its order, each as the host overrides it, and then the host's own. -/
theorem resolve_targets (hproduced : ((declaredLayer rule declaration).map ReleaseTarget.key).Nodup)
    (hnamed : ((hostLayer rule).map ReleaseTarget.key).Nodup) :
    (resolve rule declaration).1 =
      (declaredLayer rule declaration).map (overriding ReleaseTarget.key (hostLayer rule)) ++
        (hostLayer rule).filter fun target =>
          target.key ∉ (declaredLayer rule declaration).map ReleaseTarget.key := by
  rw [resolve, foldl_resolveOne_targets, overlay_eq hproduced hnamed]
  refine congrArg _ (List.filter_congr fun target _ => ?_)
  exact decide_eq_decide.mpr Iff.rfl

theorem get_sources (hnamed : ((hostLayer rule).map ReleaseTarget.key).Nodup) :
    Dict.get name (resolve rule declaration).2 =
      if name ∈ (hostLayer rule).map ReleaseTarget.key then
        some (hostSource (declaredLayer rule declaration) name)
      else if name ∈ (declaredLayer rule declaration).map ReleaseTarget.key then some .declared
      else none := by
  rw [resolve, get_foldl_resolveOne hnamed, get_declaredSources]

end Resolved

section Result

variable {repositories : List (ReleaseRule minijinja)} {applies : ReleaseRule minijinja → Bool}
variable {declaration : DeclarationSource minijinja}

/-- The targets a repository declares, as a host can ask about them. -/
def produced (declaration : DeclarationSource minijinja) : List (ReleaseTarget minijinja) :=
  (declaration.declaration.map fun declared =>
    declared.targets.map (fromDeclaration declared)).getD []

theorem declaredLayer_merge {rule : Option (ReleaseRule minijinja)} (h : policyOf rule = .merge) :
    declaredLayer rule declaration = produced declaration := by
  rw [declaredLayer, produced, h]
  cases declaration.declaration with
  | none => rfl
  | some declared => rfl

theorem declaredLayer_ignore {rule : Option (ReleaseRule minijinja)}
    (h : policyOf rule = .ignore) : declaredLayer rule declaration = [] := by
  rw [declaredLayer, h]

theorem nodup_produced
    (h : ∀ declared, declaration.declaration = some declared →
      Declared.validate declared = .ok ()) :
    ((produced declaration).map ReleaseTarget.key).Nodup := by
  unfold produced
  cases hdeclared : declaration.declaration with
  | none => exact List.nodup_nil
  | some declared => exact nodup_declared (h declared hdeclared)

theorem nodup_declaredLayer {rule : Option (ReleaseRule minijinja)}
    (h : ((produced declaration).map ReleaseTarget.key).Nodup) :
    ((declaredLayer rule declaration).map ReleaseTarget.key).Nodup := by
  cases hpolicy : policyOf rule with
  | merge => rwa [declaredLayer_merge hpolicy]
  | ignore =>
    rw [declaredLayer_ignore hpolicy]
    exact List.nodup_nil

/-- For every release-targets file and declaration that are accepted: no name is taken twice; where
the declaration is merged, its targets keep their order, each replaced in place by the one that
overrides it, and the host's own follow; where it is ignored, the host's targets are all there are;
and the names with a source are exactly those of the targets. -/
theorem resolve_lays_over (hfile : validate repositories = .ok ())
    (hdeclared : ∀ declared, declaration.declaration = some declared →
      Declared.validate declared = .ok ()) :
    let rule := firstMatch applies repositories
    let targets := (resolve rule declaration).1
    let sources := (resolve rule declaration).2
    (targets.map ReleaseTarget.key).Nodup ∧
      (policyOf rule = .merge →
        targets = (produced declaration).map (overriding ReleaseTarget.key (hostLayer rule)) ++
            (hostLayer rule).filter
              (fun target => target.key ∉ (produced declaration).map ReleaseTarget.key) ∧
          (targets.map ReleaseTarget.key).take (produced declaration).length =
            (produced declaration).map ReleaseTarget.key) ∧
      (policyOf rule = .ignore → targets = hostLayer rule) ∧
      ∀ name, (Dict.get name sources).isSome = true ↔ name ∈ targets.map ReleaseTarget.key := by
  intro rule targets sources
  have hnamed : ((hostLayer rule).map ReleaseTarget.key).Nodup := nodup_hostLayer hfile
  have hlayer : ((declaredLayer rule declaration).map ReleaseTarget.key).Nodup :=
    nodup_declaredLayer (nodup_produced hdeclared)
  have htargets : targets = _ := resolve_targets hlayer hnamed
  have hkeys : targets.map ReleaseTarget.key =
      (declaredLayer rule declaration).map ReleaseTarget.key ++
        ((hostLayer rule).filter fun target =>
          target.key ∉ (declaredLayer rule declaration).map ReleaseTarget.key).map
            ReleaseTarget.key := by
    rw [htargets, List.map_append, List.map_map]
    refine congrArg (· ++ _) (List.map_congr_left fun target _ => ?_)
    exact key_overriding
  refine ⟨?_, ?_, ?_, ?_⟩
  · have hoverlay : targets = overlay ReleaseTarget.key (declaredLayer rule declaration)
        (hostLayer rule) := foldl_resolveOne_targets
    rw [hoverlay]
    exact nodup_overlay hlayer hnamed
  · intro hmerge
    rw [hkeys, htargets, declaredLayer_merge hmerge]
    refine ⟨rfl, ?_⟩
    rw [List.take_left' (List.length_map _)]
  · intro hignore
    rw [htargets, declaredLayer_ignore hignore]
    simp
  · intro name
    have hsource : Dict.get name sources = _ := get_sources hnamed
    rw [hsource, hkeys]
    by_cases hhost : name ∈ (hostLayer rule).map ReleaseTarget.key
    · rw [if_pos hhost]
      obtain ⟨target, htarget, rfl⟩ := List.mem_map.mp hhost
      by_cases hproduced : target.key ∈ (declaredLayer rule declaration).map ReleaseTarget.key
      · simp [hproduced]
      · simp only [Option.isSome_some, true_iff, List.mem_append]
        refine .inr (List.mem_map.mpr ⟨target, ?_, rfl⟩)
        simpa [htarget] using hproduced
    · rw [if_neg hhost]
      have hnot : name ∉ ((hostLayer rule).filter fun target =>
          target.key ∉ (declaredLayer rule declaration).map ReleaseTarget.key).map
            ReleaseTarget.key := fun hmem =>
        hhost ((List.filter_sublist.map ReleaseTarget.key).subset hmem)
      by_cases hproduced : name ∈ (declaredLayer rule declaration).map ReleaseTarget.key
      · simp [hproduced]
      · rw [if_neg hproduced, List.mem_append]
        refine ⟨nofun, ?_⟩
        rintro (hmem | hmem)
        · exact absurd hmem hproduced
        · exact absurd hmem hnot

end Result

def anyTemplate : Text → Except Text Unit := fun _ => .ok ()

def declaredCrate : DeclaredTarget anyTemplate where
  id := ⟨"cargo:onevcs".toList, by decide +kernel⟩
  name := ⟨"crate".toList, by decide +kernel⟩
  what := ⟨"the crate".toList, by decide +kernel⟩
  publishedBy := ⟨"a tag".toList, by decide +kernel⟩
  manifest := none
  covers := []
  adoptionInstructions := none

def oneCrate : DeclarationSource anyTemplate :=
  .declared "release.toml".toList ⟨3, none, [declaredCrate], []⟩

/-- The crate as a host names it. -/
def hostCrate : ReleaseTarget anyTemplate :=
  ⟨declaredCrate.name, .humanStep "publish it".toList, none⟩

def overridesCrate : ReleaseRule anyTemplate := ⟨none, none, [hostCrate]⟩

/-- A rule that ignores what its repository declares. -/
def ignoresDeclaration : ReleaseRule anyTemplate := ⟨none, some .ignore, []⟩

theorem validate_oneCrate :
    ∀ declared, oneCrate.declaration = some declared → Declared.validate declared = .ok () := by
  rintro declared ⟨⟩
  decide +kernel

/-- The crate keeps its place where the host overrides it. -/
theorem crate_overridden :
    (resolve (some overridesCrate) oneCrate).1 = [hostCrate] ∧
      Dict.get hostCrate.key (resolve (some overridesCrate) oneCrate).2 = some .override ∧
      ((resolve (firstMatch (fun _ => true) [overridesCrate]) oneCrate).1.map
        ReleaseTarget.key).Nodup :=
  ⟨by decide +kernel, by decide +kernel,
    (@resolve_lays_over anyTemplate [overridesCrate] (fun _ => true) oneCrate (by decide +kernel)
      validate_oneCrate).1⟩

/-- A rule that ignores the declaration leaves nothing of it. -/
theorem declaration_ignored :
    validate [ignoresDeclaration] = .ok () ∧
      firstMatch (fun _ => true) [ignoresDeclaration] = some ignoresDeclaration ∧
      (produced oneCrate).map ReleaseTarget.key = ["crate".toList] ∧
      (resolve (some ignoresDeclaration) oneCrate).1 = [] :=
  ⟨by decide +kernel, by decide +kernel, by decide +kernel, by decide +kernel⟩

end Onevcs.Release
