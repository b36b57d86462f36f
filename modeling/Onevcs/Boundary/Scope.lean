import Mathlib
import Onevcs.Boundary.Levels

/-!
# Merging the chains of a scope

`merge` of `boundary/scope.rs`: every checkout's chain of levels is resolved with the
caller's replacements, and the resolutions are merged rule by rule, a rule being one by its
mode, its case and the key of its term.

Resolving one chain is the declarations crate's, and comes in as a function. So do the two
parts of a term's key that are Unicode's: the normal form of text that is not ASCII, and
its lower case.
-/

namespace Onevcs.Boundary

inductive TermMode
  | substring
  | wholeWord
  | ownerNameOnly
  deriving DecidableEq

structure TermRule where
  term : String
  mode : TermMode
  caseSensitive : Bool

/-- `Action`: what a hit of a rule gets. -/
inductive Action
  | reject
  | replace (word : String)
  deriving DecidableEq

/-- `Replacement`: a term, and what an entry has it get. -/
structure Replacement where
  term : String
  action : Action

/-- The part of a level's declaration that merging reads. -/
structure Declaration where
  terms : List String
  replacements : List Replacement
  phrases : List String

structure ResolvedRule where
  rule : TermRule
  action : Action
  origin : String

/-- One checkout's view: whose rules, and its levels nearest first. -/
structure Chain where
  identity : Option String
  rules : List TermRule
  levels : List (Level String Declaration)

/-- What one identity's chains made of a rule. -/
inductive Decision
  | unnamed
  | named (action : Action)
  deriving DecidableEq

def isAscii (text : String) : Bool := text.toList.all fun c => c.toNat < 128

/-- What a term's key takes from Unicode: the normal form with every ignorable code point
removed, and the lower case. -/
structure Unicode where
  stripped : String → String
  lowercase : String → String

namespace Unicode

variable (unicode : Unicode)

/-- `normalize`: ASCII is in normal form already. -/
def normalize (text : String) : String := if isAscii text then text else unicode.stripped text

def fold (normalized : String) : String :=
  if isAscii normalized then .ofList (normalized.toList.map Char.toLower)
  else unicode.lowercase normalized

def termKey (term : String) : String := unicode.fold (unicode.normalize term)

def ruleKey (term : String) (caseSensitive : Bool) : String :=
  if caseSensitive then unicode.normalize term else unicode.termKey term

end Unicode

/-- What a rule is one rule by. -/
structure RuleKey where
  mode : TermMode
  caseSensitive : Bool
  key : String
  deriving DecidableEq

def TermRule.keyOf (unicode : Unicode) (rule : TermRule) : RuleKey :=
  ⟨rule.mode, rule.caseSensitive, unicode.ruleKey rule.term rule.caseSensitive⟩

/-- The key of the terms a rule's key stands for. -/
def RuleKey.termKey (unicode : Unicode) (key : RuleKey) : String :=
  if key.caseSensitive then unicode.fold key.key else key.key

/-! ## What a chain says of a rule -/

/-- A level has a replacement entry for the term of this key. -/
def Level.replaces (unicode : Unicode) (key : String) (level : Level String Declaration) : Bool :=
  level.declaration.replacements.any fun entry => unicode.termKey entry.term == key

/-- `names`, of the key of a term. -/
def Chain.names (unicode : Unicode) (caller : List Replacement) (chain : Chain) (key : String) :
    Bool :=
  caller.any (fun entry => unicode.termKey entry.term == key) ||
    chain.levels.any (Level.replaces unicode key)

/-- `Path::display`, of a directory. -/
def display (dir : Dir String) : String := "/" ++ "/".intercalate dir.reverse

/-- `LevelKind::name`. -/
def LevelKind.spell : LevelKind → String
  | .repository => "repository"
  | .directory => "directory"
  | .fallback => "fallback"

def evidenceIdentity (unicode : Unicode) (rule : ResolvedRule) (chain : Chain) : String :=
  let identity := chain.identity.getD ""
  if rule.origin = "caller" then "caller"
  else if rule.origin = "repository" then identity
  else if rule.origin = "directory" ∨ rule.origin = "fallback" then
    let key := unicode.termKey rule.rule.term
    let naming := (chain.levels.filter fun level => level.kind.spell == rule.origin).find?
      fun level => level.declaration.terms.any (fun term => unicode.termKey term == key) ||
        level.replaces unicode key
    (naming.map fun level => display level.dir).getD rule.origin
  else identity

namespace Decision

def action : Decision → Action
  | .unnamed => .reject
  | .named action => action

/-- The action, where somebody named the term. -/
def isNamed : Decision → Option Action
  | .named action => some action
  | .unnamed => none

/-- A decision beside the one an identity's checkouts had come to. -/
def meet (seen decision : Decision) : Decision :=
  if seen.action ≠ decision.action then .named .reject
  else
    match decision with
    | .named _ => decision
    | .unnamed => seen

end Decision

/-- One rule, and what each identity's chains resolved it to. -/
structure Merged where
  rule : ResolvedRule
  identity : String
  decisions : AList fun _ : String => Decision

namespace Merged

def decide (merged : Merged) (identity : String) (decision : Decision) : Merged :=
  { merged with
    decisions :=
      match merged.decisions.lookup identity with
      | none => merged.decisions.insert identity decision
      | some seen => merged.decisions.insert identity (seen.meet decision) }

/-- The action of a rule across identities: the published one's own, where it names the
term; otherwise the one that all who name it agree on. -/
def action (merged : Merged) (published : Option String) : Action :=
  match (published.bind fun key => merged.decisions.lookup key).bind Decision.isNamed with
  | some action => action
  | none =>
    match merged.decisions.entries.filterMap fun entry => entry.2.isNamed with
    | first :: rest => if rest.all fun other => other == first then first else .reject
    | [] => .reject

def resolved (merged : Merged) (published : Option String) : ResolvedRule × String :=
  ({ merged.rule with action := merged.action published }, merged.identity)

end Merged

/-! ## Merging -/

/-- Why a scope's terms are not available: a chain's levels do not resolve. -/
inductive Failed (ε : Type)
  | levelsDoNotResolve (refused : ε)

/-- What merging the chains yields: the rules, what each one's evidence names, and every
phrase the levels declare. -/
structure MergedScope where
  rules : List ResolvedRule
  identities : List String
  phrases : List String

/-- One rule of one chain's resolution, on its way into the merge. -/
structure Vote where
  rule : ResolvedRule
  evidence : String
  origin : String
  decision : Decision

/-- The rules of the merge so far, and the phrases. -/
structure Merging where
  merged : List Merged
  phrases : List String

section Merging

variable {ε : Type} (unicode : Unicode)
  (resolve : List (TermRule × String) → List (Level String Declaration) → List Replacement →
    Except ε (List ResolvedRule))
  (caller : List Replacement)

/-- What one rule of a chain's resolution brings. -/
def Chain.vote (chain : Chain) (rule : ResolvedRule) : Vote where
  rule := rule
  evidence := evidenceIdentity unicode rule chain
  origin := chain.identity.getD ""
  decision :=
    if chain.names unicode caller (unicode.termKey rule.rule.term) then .named rule.action
    else .unnamed

/-- A rule is entered once, where it is met first, and decided wherever it is met. -/
def enter (merged : List Merged) (vote : Vote) : List Merged :=
  match merged with
  | [] => [Merged.decide ⟨vote.rule, vote.evidence, ∅⟩ vote.origin vote.decision]
  | first :: rest =>
    if first.rule.rule.keyOf unicode = vote.rule.rule.keyOf unicode then
      first.decide vote.origin vote.decision :: rest
    else first :: enter rest vote

def Chain.resolution (chain : Chain) : Except ε (List ResolvedRule) :=
  resolve (chain.rules.map fun rule => (rule, chain.identity.getD "")) chain.levels caller

/-- The loop of `merge`, over the chains. -/
def mergeChains : List Chain → Merging → Except (Failed ε) Merging
  | [], merging => .ok merging
  | chain :: rest, merging =>
    match chain.resolution resolve caller with
    | .error refused => .error (.levelsDoNotResolve refused)
    | .ok resolved =>
      mergeChains rest
        { merged := resolved.foldl
            (fun merged rule => enter unicode merged (chain.vote unicode caller rule))
            merging.merged
          phrases := merging.phrases ++
            chain.levels.flatMap fun level => level.declaration.phrases }

def merge (chains : List Chain) (published : Option String) : Except (Failed ε) MergedScope :=
  match mergeChains unicode resolve caller chains ⟨[], []⟩ with
  | .error failed => .error failed
  | .ok merging =>
    let resolved := merging.merged.map fun merged => merged.resolved published
    .ok ⟨resolved.map Prod.fst, resolved.map Prod.snd, merging.phrases⟩

/-- The action a merge has of the rule of a key. -/
def MergedScope.actionOf (merged : MergedScope) (key : RuleKey) : Option Action :=
  (merged.rules.find? fun rule => decide (rule.rule.keyOf unicode = key)).map ResolvedRule.action

end Merging

end Onevcs.Boundary
