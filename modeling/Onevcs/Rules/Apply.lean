import Onevcs.Rules.Policy

/-!
# Composing a rules file with overlays

`rules_apply.rs`: a base rules file, and overlays laid over it in order. An overlay
rule whose match is an earlier rule's is laid over the first such rule in its place;
one that matches something no earlier rule does goes in front of every earlier rule.

`lay` follows the source field by field, in what it takes from an overlay rule as in
what it leaves.
-/

namespace Onevcs.Rules

/-- An overlay's `default:`: each field it sets replaces the composed default's. -/
structure DefaultPatch where
  publication : Option MergePolicy := none
  approvals : Option Approvals := none
  drafts : Option Drafts := none

/-- An overlay: a declared version and, optionally, the other keys a rules file has. -/
structure Overlay where
  version : Nat
  trailerPrefix : Option String := none
  rules : List Rule := []
  default : Option DefaultPatch := none

/-- Each key a later `drafts:` sets replaces the earlier one's. -/
def Drafts.over (later earlier : Drafts) : Drafts where
  disabled := later.disabled.or earlier.disabled
  warnOnEarlyLift := later.warnOnEarlyLift.or earlier.warnOnEarlyLift

/-- The `drafts:` of a rule laid over an earlier one. -/
def laidDrafts : Option Drafts → Option Drafts → Option Drafts
  | some later, some merged => some (later.over merged)
  | later, earlier => later.or earlier

/-- What `lay` makes of an earlier rule that `rule` is laid over. -/
def layRule (earlier rule : Rule) : Rule :=
  { earlier with
    publication := rule.publication.or earlier.publication
    approvals := rule.approvals.or earlier.approvals
    visibility := rule.visibility.or earlier.visibility
    drafts := laidDrafts rule.drafts earlier.drafts }

/-- Lay a rule over the first of the composed rules with its match, where one has it. -/
def layOverFirst (rule : Rule) : List Rule → Option (List Rule)
  | [] => none
  | earlier :: rest =>
    if earlier.criteria = rule.criteria then some (layRule earlier rule :: rest)
    else (layOverFirst rule rest).map (earlier :: ·)

/-- The loop over an overlay's rules: the composed rules with those that match one laid
over it, and the ones that go ahead of them. -/
def layRules : List Rule → List Rule → List Rule × List Rule
  | composed, [] => (composed, [])
  | composed, rule :: rest =>
    match layOverFirst rule composed with
    | some laid => layRules laid rest
    | none => ((layRules composed rest).1, rule :: (layRules composed rest).2)

/-- An overlay's `default:` laid over the composed one. -/
def layDefault (default : Policy) : Option DefaultPatch → Policy
  | none => default
  | some patch =>
    { default with
      publication := patch.publication.getD default.publication
      approvals := patch.approvals.getD default.approvals
      drafts :=
        match patch.drafts with
        | none => default.drafts
        | some drafts => some (drafts.over (default.drafts.getD {})) }

/-- Lay one overlay over the composition so far. -/
def lay (composed : RulesFile) (overlay : Overlay) : Except Refusal RulesFile := do
  if overlay.version < oldestVersion then
    throw (.overlayTooOld overlay.version)
  -- held to its own version's keys before it is laid, as if it were a whole file
  validate
    { version := overlay.version
      trailerPrefix := overlay.trailerPrefix
      rules := overlay.rules
      default := composed.default }
  let laid := layRules composed.rules overlay.rules
  return {
    version := max composed.version overlay.version
    trailerPrefix := overlay.trailerPrefix.or composed.trailerPrefix
    rules := laid.2 ++ laid.1
    default := layDefault composed.default overlay.default }

def layAll : RulesFile → List Overlay → Except Refusal RulesFile
  | composed, [] => .ok composed
  | composed, overlay :: rest => do
    let laid ← lay composed overlay
    layAll laid rest

/-- `rules_apply`, from the files as they are typed to the composition it installs. -/
def rulesApply (base : RulesFile) (overlays : List Overlay) : Except Refusal RulesFile := do
  validate base
  let composed ← layAll base overlays
  validate composed
  return composed

end Onevcs.Rules
