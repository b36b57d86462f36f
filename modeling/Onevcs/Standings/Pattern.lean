import Onevcs.Foundations.Lines
import Onevcs.Foundations.Outcome

/-!
# Branch patterns

`standings/github/pattern.rs`: a host's branch patterns, parsed into tokens and matched against
a name segment by segment. A pattern that cannot be evaluated says so.
-/

namespace Onevcs.Standings

open Foundations (Text bind_eq_ok)

/-- `Token`: one piece of a parsed pattern. -/
inductive Token
  | literal (c : Char)
  | one
  | segment
  | anything
  | segments
  | class (ranges : List (Char × Char)) (negated : Bool)
  deriving DecidableEq

/-- Why a pattern cannot be evaluated. -/
inductive Unevaluable
  | brace
  | escape
  | unclosedClass
  | emptyClass
  deriving DecidableEq

def classRanges : Text → List (Char × Char)
  | low :: '-' :: high :: rest => (low, high) :: classRanges rest
  | c :: rest => (c, c) :: classRanges rest
  | [] => []

/-- What a class lists, and the text behind it. -/
def readListed (negated : Bool) (inside : Text) : Except Unevaluable (Token × Text) :=
  if ']' ∉ inside then .error .unclosedClass
  else
    let listed := inside.takeWhile (· != ']')
    if listed.isEmpty then .error .emptyClass
    else .ok (.class (classRanges listed) negated, inside.drop (listed.length + 1))

/-- A class, after its bracket, and the text behind it. -/
def readClass (text : Text) : Except Unevaluable (Token × Text) :=
  if text.head? == some '!' || text.head? == some '^' then readListed true (text.drop 1)
  else readListed false text

/-- The first token of a pattern that starts with `c`, and the text behind it. -/
def readToken (c : Char) (rest : Text) : Except Unevaluable (Token × Text) :=
  if c = '*' then
    match rest with
    | '*' :: '/' :: rest => .ok (.segments, rest)
    | '*' :: rest => .ok (.anything, rest)
    | rest => .ok (.segment, rest)
  else if c = '?' then .ok (.one, rest)
  else if c = '{' ∨ c = '}' then .error .brace
  else if c = '\\' then .error .escape
  else if c = '[' then readClass rest
  else .ok (.literal c, rest)

/-- The tokens of a text, at most so many. -/
def readTokens : Nat → Text → Except Unevaluable (List Token)
  | _, [] => .ok []
  | 0, _ :: _ => .ok []
  | fuel + 1, c :: rest => do
    let (token, rest) ← readToken c rest
    let tokens ← readTokens fuel rest
    pure (token :: tokens)

/-- `Pattern::parse`: a token takes at least one character. -/
def parse (spelled : Text) : Except Unevaluable (List Token) := readTokens spelled.length spelled

/-- A token that is a character. -/
def Token.isLiteral : Token → Bool
  | .literal _ => true
  | .one | .segment | .anything | .segments | .class _ _ => false

/-- `Pattern::exact`: whether a pattern has no wildcard. -/
def exact (tokens : List Token) : Bool := tokens.all Token.isLiteral

/-- What is left of a name after each run of characters within its first segment. -/
def withinSegment : Text → List Text
  | [] => [[]]
  | c :: rest => (c :: rest) :: if c = '/' then [] else withinSegment rest

/-- What is behind each slash of a name. -/
def afterSlashes : Text → List Text
  | [] => []
  | c :: rest => if c = '/' then rest :: afterSlashes rest else afterSlashes rest

/-- The first character of a name is in the class, and is no slash. -/
def inClass (ranges : List (Char × Char)) (negated : Bool) (c : Char) : Bool :=
  (ranges.any fun (low, high) => decide (low ≤ c) && decide (c ≤ high)) != negated

/-- `matches`: whether a name is one the tokens match. -/
def matchesName : List Token → Text → Bool
  | [], name => name.isEmpty
  | .literal c :: rest, name =>
    match name with
    | first :: tail => first == c && matchesName rest tail
    | [] => false
  | .one :: rest, name =>
    match name with
    | first :: tail => first != '/' && matchesName rest tail
    | [] => false
  | .class ranges negated :: rest, name =>
    match name with
    | first :: tail => first != '/' && inClass ranges negated first && matchesName rest tail
    | [] => false
  | .segment :: rest, name => (withinSegment name).any fun left => matchesName rest left
  | .anything :: rest, name => name.tails.any fun left => matchesName rest left
  | .segments :: rest, name =>
    matchesName rest name || (afterSlashes name).any fun left => matchesName rest left

variable {fuel : Nat} {c : Char} {text rest spelled : Text} {token : Token} {tokens : List Token}

theorem readListed_not_literal {negated : Bool} (h : readListed negated text = .ok (token, rest)) :
    token.isLiteral = false := by
  unfold readListed at h
  split at h
  · cases h
  · dsimp only at h
    split at h
    · cases h
    · obtain ⟨rfl, rfl⟩ := Prod.mk.inj (Except.ok.inj h)
      rfl

theorem readClass_not_literal (h : readClass text = .ok (token, rest)) :
    token.isLiteral = false := by
  unfold readClass at h
  split at h
  · exact readListed_not_literal h
  · exact readListed_not_literal h

theorem readToken_literal (h : readToken c text = .ok (token, rest))
    (hliteral : token.isLiteral = true) : token = .literal c ∧ rest = text := by
  unfold readToken at h
  split at h
  · split at h
    all_goals
      obtain ⟨rfl, rfl⟩ := Prod.mk.inj (Except.ok.inj h)
      cases hliteral
  · split at h
    · obtain ⟨rfl, rfl⟩ := Prod.mk.inj (Except.ok.inj h)
      cases hliteral
    · split at h
      · cases h
      · split at h
        · cases h
        · split at h
          · rw [readClass_not_literal h] at hliteral
            cases hliteral
          · obtain ⟨rfl, rfl⟩ := Prod.mk.inj (Except.ok.inj h)
            exact ⟨rfl, rfl⟩

theorem readTokens_exact (hfuel : text.length ≤ fuel) (h : readTokens fuel text = .ok tokens)
    (hexact : exact tokens = true) : tokens = text.map .literal := by
  induction text generalizing fuel tokens with
  | nil =>
    obtain rfl : [] = tokens := by
      cases fuel <;> exact Except.ok.inj h
    rfl
  | cons c text ih =>
    cases fuel with
    | zero => simp at hfuel
    | succ fuel =>
      rw [readTokens, bind_eq_ok] at h
      obtain ⟨⟨token, left⟩, hread, h⟩ := h
      dsimp only at h
      rw [bind_eq_ok] at h
      obtain ⟨later, hlater, h⟩ := h
      obtain rfl := Except.ok.inj h
      simp only [exact, List.all_cons, Bool.and_eq_true] at hexact
      obtain ⟨rfl, rfl⟩ := readToken_literal hread hexact.1
      rw [ih (Nat.le_of_succ_le_succ hfuel) hlater hexact.2, List.map_cons]

theorem parse_exact (h : parse spelled = .ok tokens) (hexact : exact tokens = true) :
    tokens = spelled.map .literal :=
  readTokens_exact (Nat.le_refl _) h hexact

theorem matchesName_map_literal (spelled name : Text) :
    matchesName (spelled.map .literal) name = true ↔ spelled = name := by
  induction spelled generalizing name with
  | nil => cases name <;> simp [matchesName]
  | cons c spelled ih =>
    cases name with
    | nil => simp [matchesName]
    | cons first tail =>
      simp only [List.map_cons, matchesName, Bool.and_eq_true, beq_iff_eq, ih, List.cons.injEq]
      exact and_congr_left fun _ => eq_comm

theorem matches_of_exact (h : parse spelled = .ok tokens) (hexact : exact tokens = true)
    (name : Text) : matchesName tokens name = true ↔ spelled = name := by
  rw [parse_exact h hexact]
  exact matchesName_map_literal spelled name

end Onevcs.Standings
