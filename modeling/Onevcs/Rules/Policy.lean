import Mathlib.Data.Rat.Defs

/-!
# Rules files and the policy they resolve to

The typed shape of a rules file (`rules.rs`), the checks a loaded file is held to
(`policy::validate`), and the resolution of one repository against it
(`policy::resolve`): the first rule that matches wins, and what it leaves unset comes
from the file's default.

Reading the YAML text into this shape is not modelled.
-/

namespace Onevcs.Rules

/-- How a change reaches the base branch. -/
inductive MergePolicy
  | localDirect
  | changeOpen
  | changeAuto
  | changeDirect
  deriving DecidableEq

/-- Whether a change needs someone else's approval before it may merge. -/
inductive Approvals
  | required
  | none
  deriving DecidableEq

/-- When a moved base is merged into a branch that already exists. -/
inductive BaseMerge
  | always
  | onConflict
  deriving DecidableEq

/-- A repository's visibility as a rule declares it. -/
inductive DeclaredVisibility
  | declaredPublic
  | declaredPrivate
  deriving DecidableEq

/-- The `drafts:` mapping. -/
structure Drafts where
  disabled : Option Bool := none
  warnOnEarlyLift : Option Bool := none
  deriving DecidableEq

/-- A wait in seconds: above zero, and at most a billion. -/
structure WaitSeconds where
  seconds : Rat
  positive : 0 < seconds
  bounded : seconds ≤ 1000000000
  deriving DecidableEq

/-- The shipped `checks.wait_seconds`. -/
def WaitSeconds.shipped : WaitSeconds := ⟨3600, by decide, by decide⟩

/-- The `checks:` mapping. -/
structure Checks where
  waitSeconds : Option WaitSeconds := none
  deriving DecidableEq

/-- What a rule applies to. -/
structure RuleMatch where
  host : Option String := none
  owner : Option String := none
  name : Option String := none
  path : Option String := none
  deriving DecidableEq

/-- One rule: what it matches, and which parts of the policy it sets. -/
structure Rule where
  criteria : RuleMatch
  publication : Option MergePolicy := none
  approvals : Option Approvals := none
  drafts : Option Drafts := none
  visibility : Option DeclaredVisibility := none
  baseMerge : Option BaseMerge := none
  checks : Option Checks := none

structure Policy where
  publication : MergePolicy
  approvals : Approvals
  drafts : Option Drafts := none
  baseMerge : Option BaseMerge := none
  checks : Option Checks := none
  deriving DecidableEq

/-- A rules file, as it is stored on disk. -/
structure RulesFile where
  version : Nat
  trailerPrefix : Option String
  rules : List Rule
  default : Policy

/-! ## The checks a rules file is held to -/

/-- Where a refusal finds what it refuses. -/
inductive Place
  | default
  | rule (position : Nat)
  deriving DecidableEq

/-- Why a rules file is refused, with what the refusal names. -/
inductive Refusal
  | overlayTooOld (version : Nat)
  | trailerPrefixTooEarly (version : Nat)
  | draftsTooEarly (version : Nat) (place : Place)
  | visibilityTooEarly (version : Nat) (position : Nat)
  | approvalNeverSought (place : Place) (publication : MergePolicy)
  deriving DecidableEq

/-- The oldest version this build still reads. -/
def oldestVersion : Nat := 1

/-- The version at which the file gained a configurable trailer prefix. -/
def trailerPrefixVersion : Nat := 2

/-- The version from which a rule and the default may carry `drafts:`. -/
def draftsVersion : Nat := 3

/-- The version at which a rule may declare `visibility:`. -/
def visibilityVersion : Nat := 4

/-- How much review a publication policy leaves in the path. -/
def reviewRank : MergePolicy → Nat
  | .localDirect => 0
  | .changeDirect => 1
  | .changeAuto => 2
  | .changeOpen => 3

/-- Where `drafts:` is first named: the default, and then the rules in order. -/
def namedDrafts (file : RulesFile) : Option Place :=
  if file.default.drafts.isSome then some .default
  else (file.rules.findIdx? fun rule => rule.drafts.isSome).map fun index => .rule (index + 1)

/-- Each pairing of publication and approvals the file can resolve to, with its place. -/
def pairings (file : RulesFile) : List (Place × MergePolicy × Approvals) :=
  (.default, file.default.publication, file.default.approvals) ::
    file.rules.mapIdx fun index rule =>
      (.rule (index + 1), rule.publication.getD file.default.publication,
        rule.approvals.getD file.default.approvals)

/-- The first pairing that merges without the host ever evaluating an approval it requires. -/
def unsought (file : RulesFile) : Option (Place × MergePolicy × Approvals) :=
  (pairings file).find? fun pairing =>
    pairing.2.2 == .required && decide (reviewRank pairing.2.1 < reviewRank .changeAuto)

def validate (file : RulesFile) : Except Refusal Unit := do
  if file.version < trailerPrefixVersion ∧ file.trailerPrefix.isSome then
    throw (.trailerPrefixTooEarly file.version)
  if file.version < draftsVersion then
    if let some place := namedDrafts file then
      throw (.draftsTooEarly file.version place)
  if file.version < visibilityVersion then
    if let some index := file.rules.findIdx? fun rule => rule.visibility.isSome then
      throw (.visibilityTooEarly file.version (index + 1))
  if let some (place, publication, _) := unsought file then
    throw (.approvalNeverSought place publication)

structure Hosted where
  host : String
  owner : String
  name : String
  deriving DecidableEq

/-- An identity, and where it is hosted when it is hosted anywhere. -/
structure Normalized where
  key : String
  hosted : Option Hosted
  deriving DecidableEq

/-- What follows the first occurrence of `part`. -/
def afterFirst (part : List Char) : List Char → Option (List Char)
  | [] => if part.isEmpty then some [] else none
  | c :: rest =>
    if part.isPrefixOf (c :: rest) then some ((c :: rest).drop part.length)
    else afterFirst part rest

/-- The parts of a pattern after its literal prefix: each but the last is found in order,
and the last ends what is left. -/
def globParts : List (List Char) → List Char → Bool
  | [], rest => rest.isEmpty
  | [last], rest => last.isSuffixOf rest
  | part :: parts, rest =>
    match afterFirst part rest with
    | some rest => globParts parts rest
    | none => false

/-- `policy::glob`: `*` matches any run of characters, and everything else is literal. -/
def glob (pattern value : String) : Bool :=
  match pattern.toList.splitOn '*' with
  | [] => value.isEmpty
  | first :: parts =>
    first.isPrefixOf value.toList && globParts parts (value.toList.drop first.length)

/-- `home::expand_tilde`, under the home directory of the process. -/
def expandTilde (home : Option String) (value : String) : String :=
  match home with
  | some home =>
    if value.startsWith "~/" then home ++ "/" ++ (value.drop 2).toString else value
  | none => value

/-- `policy::matches`: whether every field a rule sets matches this repository. -/
def ruleMatches (home : Option String) (criteria : RuleMatch) (identity : Normalized)
    (checkout : String) : Bool :=
  let hosted := fun (part : Hosted → String) (want : String) =>
    identity.hosted.any fun hosted => glob want (part hosted)
  criteria.host.all (hosted Hosted.host) && criteria.owner.all (hosted Hosted.owner) &&
    criteria.name.all (hosted Hosted.name) &&
    criteria.path.all fun want => glob (expandTilde home want) checkout

/-! ## Resolving -/

structure Matched where
  index : Nat
  criteria : RuleMatch
  deriving DecidableEq

inductive Layer
  | rule (index : Nat)
  | default
  | shippedDefault
  | publication (policy : MergePolicy)
  deriving DecidableEq

/-- One resolved value, beside the layer that decided it. -/
structure Decided (α : Type*) where
  value : α
  source : Layer
  deriving DecidableEq

/-- The two `drafts:` keys as one repository resolves them. -/
structure DraftLifecycle where
  disabled : Decided Bool
  warnOnEarlyLift : Decided Bool
  deriving DecidableEq

/-- The policy a repository resolves to, and the reasoning that produced it. -/
structure Resolved where
  policy : Policy
  matched : Option Matched
  publicationFrom : Layer
  approvalsFrom : Layer
  drafts : DraftLifecycle
  visibility : Option DeclaredVisibility
  baseMerge : Decided BaseMerge
  checksWait : Decided WaitSeconds
  deriving DecidableEq

/-- The base-merge value a publication implies. -/
def derivedBaseMerge : MergePolicy → BaseMerge
  | .localDirect => .always
  | .changeOpen | .changeAuto | .changeDirect => .onConflict

/-- The matched rule's value, then the default's, then what is left. -/
def decideValue {α : Type*} (index : Nat) (ofRule ofDefault : Option α) (otherwise : Decided α) :
    Decided α :=
  match ofRule, ofDefault with
  | some value, _ => ⟨value, .rule index⟩
  | none, some value => ⟨value, .default⟩
  | none, none => otherwise

def resolveBaseMerge (index : Nat) (rule default : Option BaseMerge) (publication : MergePolicy) :
    Decided BaseMerge :=
  decideValue index rule default ⟨derivedBaseMerge publication, .publication publication⟩

def resolveChecksWait (index : Nat) (rule default : Option Checks) : Decided WaitSeconds :=
  decideValue index (rule.bind Checks.waitSeconds) (default.bind Checks.waitSeconds)
    ⟨.shipped, .shippedDefault⟩

def resolveDrafts (index : Nat) (rule default : Option Drafts) : DraftLifecycle where
  disabled :=
    decideValue index (rule.bind Drafts.disabled) (default.bind Drafts.disabled)
      ⟨false, .shippedDefault⟩
  warnOnEarlyLift :=
    decideValue index (rule.bind Drafts.warnOnEarlyLift) (default.bind Drafts.warnOnEarlyLift)
      ⟨true, .shippedDefault⟩

def fieldSource (index : Nat) (fromRule : Bool) : Layer :=
  if fromRule then .rule index else .default

/-- What a repository resolves to under the rule at `index` that it matched. -/
def resolveRule (file : RulesFile) (index : Nat) (rule : Rule) : Resolved :=
  let publication := rule.publication.getD file.default.publication
  { policy :=
      { publication := publication
        approvals := rule.approvals.getD file.default.approvals
        drafts := rule.drafts.or file.default.drafts
        baseMerge := rule.baseMerge.or file.default.baseMerge
        checks := rule.checks.or file.default.checks }
    matched := some ⟨index, rule.criteria⟩
    publicationFrom := fieldSource index rule.publication.isSome
    approvalsFrom := fieldSource index rule.approvals.isSome
    drafts := resolveDrafts index rule.drafts file.default.drafts
    visibility := rule.visibility
    baseMerge := resolveBaseMerge index rule.baseMerge file.default.baseMerge publication
    checksWait := resolveChecksWait index rule.checks file.default.checks }

/-- What a repository resolves to when no rule matches it. -/
def resolveDefault (file : RulesFile) : Resolved where
  policy := file.default
  matched := none
  publicationFrom := .default
  approvalsFrom := .default
  drafts := resolveDrafts 0 none file.default.drafts
  visibility := none
  baseMerge := resolveBaseMerge 0 none file.default.baseMerge file.default.publication
  checksWait := resolveChecksWait 0 none file.default.checks

/-- The loop over the rules: the first that matches, with its position. -/
def firstMatch (home : Option String) (identity : Normalized) (checkout : String) :
    Nat → List Rule → Option (Nat × Rule)
  | _, [] => none
  | index, rule :: rest =>
    if ruleMatches home rule.criteria identity checkout then some (index, rule)
    else firstMatch home identity checkout (index + 1) rest

/-- `policy::resolve`: the first matching rule wins. -/
def resolve (home : Option String) (file : RulesFile) (identity : Normalized)
    (checkout : String) : Resolved :=
  match firstMatch home identity checkout 1 file.rules with
  | some (index, rule) => resolveRule file index rule
  | none => resolveDefault file

end Onevcs.Rules
