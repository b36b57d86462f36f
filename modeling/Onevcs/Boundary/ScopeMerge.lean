import Onevcs.Boundary.Scope
import Onevcs.Foundations.Agreement

/-!
# What merging a scope's chains comes to

The action a rule has after the merge, in terms of what each chain says of it. A chain rules
on a rule where its resolution has it, and names it where besides it, or the caller, has a
replacement entry for the term.

An identity's decisions are their agreement, with a refusal at the bottom, and so are the
actions of the identities; an agreement takes no notice of order.
-/

namespace Onevcs.Boundary

open Foundations (agree agreeWith agreement)

section Merging

variable {ε : Type} {unicode : Unicode}
  {resolve : List (TermRule × String) → List (Level String Declaration) → List Replacement →
    Except ε (List ResolvedRule)}
  {caller : List Replacement} {key : RuleKey}

theorem Decision.meet_eq (seen decision : Decision) :
    seen.meet decision = agree (.named .reject) seen decision := by
  unfold agree
  by_cases heq : seen = decision
  · subst heq
    cases seen <;> simp [Decision.meet]
  · rw [if_neg heq]
    cases seen with
    | unnamed =>
      cases decision with
      | unnamed => exact absurd rfl heq
      | named action => cases action <;> simp [Decision.meet, Decision.action]
    | named seen =>
      cases decision with
      | unnamed => cases seen <;> simp [Decision.meet, Decision.action]
      | named action =>
        have hne : seen ≠ action := fun h => heq (congrArg Decision.named h)
        simp [Decision.meet, Decision.action, hne]

/-- A term that one checkout replaces and another leaves unnamed is rejected. -/
example : (Decision.named (.replace "lantern")).meet .unnamed = .named .reject := by decide +kernel

theorem Merged.lookup_decide (merged : Merged) (identity other : String) (decision : Decision) :
    (merged.decide identity decision).decisions.lookup other =
      if other = identity then
        some (agreeWith (.named .reject) (merged.decisions.lookup identity) decision)
      else merged.decisions.lookup other := by
  unfold Merged.decide
  by_cases hother : other = identity
  · subst hother
    cases merged.decisions.lookup other with
    | none => simp [agreeWith]
    | some seen => simp [agreeWith, Decision.meet_eq]
  · cases merged.decisions.lookup identity with
    | none => simp [hother, AList.lookup_insert_ne hother]
    | some seen => simp [hother, AList.lookup_insert_ne hother]

/-! ### Entering -/

/-- The rule of a key in the merge so far. -/
def entered (unicode : Unicode) (merged : List Merged) (key : RuleKey) : Option Merged :=
  merged.find? fun merged => merged.rule.rule.keyOf unicode = key

/-- What an identity has come to on the rule of a key. -/
def standing (unicode : Unicode) (merged : List Merged) (key : RuleKey) (origin : String) :
    Option Decision :=
  (entered unicode merged key).bind fun merged => merged.decisions.lookup origin

/-- The vote is on the rule of the key. -/
def Vote.on (unicode : Unicode) (key : RuleKey) (vote : Vote) : Prop :=
  vote.rule.rule.keyOf unicode = key

instance (key : RuleKey) (vote : Vote) : Decidable (vote.on unicode key) :=
  inferInstanceAs (Decidable (_ = key))

theorem entered_enter (merged : List Merged) (vote : Vote) :
    entered unicode (enter unicode merged vote) key =
      if vote.on unicode key then
        some (((entered unicode merged key).getD ⟨vote.rule, vote.evidence, ∅⟩).decide vote.origin
          vote.decision)
      else entered unicode merged key := by
  induction merged with
  | nil =>
    by_cases hon : vote.on unicode key
    · simp [enter, entered, hon, Merged.decide, show vote.rule.rule.keyOf unicode = key from hon]
    · simp [enter, entered, hon, Merged.decide,
        show ¬vote.rule.rule.keyOf unicode = key from hon]
  | cons first rest ih =>
    unfold enter
    by_cases hfirst : first.rule.rule.keyOf unicode = vote.rule.rule.keyOf unicode
    · rw [if_pos hfirst]
      by_cases hon : vote.on unicode key
      · have hkey : first.rule.rule.keyOf unicode = key := hfirst.trans hon
        simp [entered, hon, hkey, Merged.decide]
      · have hkey : ¬first.rule.rule.keyOf unicode = key := fun h => hon (hfirst.symm.trans h)
        simp [entered, hon, hkey, Merged.decide]
    · rw [if_neg hfirst]
      by_cases hkey : first.rule.rule.keyOf unicode = key
      · have hon : ¬vote.on unicode key := fun h => hfirst (hkey.trans h.symm)
        simp [entered, hkey, hon]
      · have hskip : ∀ merged : List Merged,
            entered unicode (first :: merged) key = entered unicode merged key := by
          intro merged
          simp [entered, hkey]
        rw [hskip, hskip, ih]

theorem standing_enter (merged : List Merged) (vote : Vote) (origin : String) :
    standing unicode (enter unicode merged vote) key origin =
      if vote.on unicode key ∧ vote.origin = origin then
        some (agreeWith (.named .reject) (standing unicode merged key origin) vote.decision)
      else standing unicode merged key origin := by
  unfold standing
  rw [entered_enter]
  by_cases hon : vote.on unicode key
  · rw [if_pos hon, Option.bind_some, Merged.lookup_decide]
    by_cases horigin : vote.origin = origin
    · subst horigin
      rw [if_pos rfl, if_pos ⟨hon, rfl⟩]
      cases entered unicode merged key <;> rfl
    · rw [if_neg (Ne.symm horigin), if_neg fun h => horigin h.2]
      cases entered unicode merged key <;> rfl
  · rw [if_neg hon, if_neg fun h => hon h.1]

/-- The decisions on a key of an identity, among votes. -/
def decisionsOf (unicode : Unicode) (key : RuleKey) (origin : String) (votes : List Vote) :
    List Decision :=
  (votes.filter fun vote => vote.on unicode key ∧ vote.origin = origin).map Vote.decision

theorem standing_enter_all (votes : List Vote) (origin : String) :
    standing unicode (votes.foldl (enter unicode) []) key origin =
      agreement (.named .reject) (decisionsOf unicode key origin votes) := by
  induction votes using List.reverseRecOn with
  | nil => rfl
  | append_singleton votes vote ih =>
    rw [List.foldl_concat, standing_enter, ih]
    unfold decisionsOf
    rw [List.filter_append, List.map_append]
    by_cases hvote : vote.on unicode key ∧ vote.origin = origin
    · rw [if_pos hvote]
      simp only [hvote, and_self, decide_true, List.filter_cons_of_pos, List.filter_nil,
        List.map_cons, List.map_nil]
      rw [Foundations.agreement_concat]
    · rw [if_neg hvote, List.filter_cons_of_neg (by simpa using hvote)]
      simp

theorem entered_isSome_iff (votes : List Vote) :
    (entered unicode (votes.foldl (enter unicode) []) key).isSome = true ↔
      ∃ vote ∈ votes, vote.on unicode key := by
  induction votes using List.reverseRecOn with
  | nil => simp [entered]
  | append_singleton votes vote ih =>
    rw [List.foldl_concat, entered_enter]
    by_cases hon : vote.on unicode key
    · simp [hon]
    · rw [if_neg hon, ih]
      simp [hon]

theorem agreement_getD (actions : List Action) :
    (match actions with
      | first :: rest => if rest.all fun other => other == first then first else .reject
      | [] => .reject) = (agreement .reject actions).getD .reject := by
  cases actions with
  | nil => rfl
  | cons first rest =>
    by_cases hall : ∀ other ∈ rest, other = first
    · have hrest : (rest.all fun other => other == first) = true := by simpa using hall
      simp only [hrest, if_true, agreement, Option.getD_some]
      exact (Foundations.foldl_agree_of_forall hall).symm
    · have hrest : ¬(rest.all fun other => other == first) = true := by simpa using hall
      simp only [hrest, agreement, Option.getD_some]
      push Not at hall
      obtain ⟨other, hother, hne⟩ := hall
      exact (Foundations.foldl_agree_of_ne hother hne).symm

namespace Merged

variable {merged merged' : Merged} {published : Option String}

theorem mem_named_iff (merged : Merged) (action : Action) :
    action ∈ (merged.decisions.entries.filterMap fun entry => entry.2.isNamed) ↔
      ∃ origin, merged.decisions.lookup origin = some (.named action) := by
  rw [List.mem_filterMap]
  constructor
  · rintro ⟨⟨origin, decision⟩, hmem, hnamed⟩
    refine ⟨origin, AList.mem_lookup_iff.mpr ?_⟩
    cases decision with
    | unnamed => cases hnamed
    | named found =>
      obtain rfl := Option.some.inj hnamed
      exact hmem
  · rintro ⟨origin, hlookup⟩
    exact ⟨⟨origin, .named action⟩, AList.mem_lookup_iff.mp hlookup, rfl⟩

theorem action_eq (merged : Merged) (published : Option String) :
    merged.action published =
      match (published.bind fun key => merged.decisions.lookup key).bind Decision.isNamed with
      | some action => action
      | none => (agreement .reject
          (merged.decisions.entries.filterMap fun entry => entry.2.isNamed)).getD .reject := by
  unfold Merged.action
  cases (published.bind fun key => merged.decisions.lookup key).bind Decision.isNamed with
  | some action => rfl
  | none => exact agreement_getD _

theorem action_congr
    (h : ∀ origin, merged.decisions.lookup origin = merged'.decisions.lookup origin) :
    merged.action published = merged'.action published := by
  have hactions : ∀ action,
      action ∈ (merged.decisions.entries.filterMap fun entry => entry.2.isNamed) ↔
        action ∈ (merged'.decisions.entries.filterMap fun entry => entry.2.isNamed) := by
    intro action
    rw [mem_named_iff, mem_named_iff]
    simp only [h]
  rw [action_eq, action_eq, Foundations.agreement_congr hactions]
  simp only [h]

/-- The published identity's own replacement, where it names the term; otherwise the one
everybody who names it has. -/
theorem action_eq_replace_iff (merged : Merged) (published : Option String) (word : String) :
    merged.action published = .replace word ↔
      (∃ own ∈ published, merged.decisions.lookup own = some (.named (.replace word))) ∨
      (∀ own ∈ published, ∀ action, merged.decisions.lookup own ≠ some (.named action)) ∧
        (∃ origin, merged.decisions.lookup origin = some (.named (.replace word))) ∧
        ∀ origin action, merged.decisions.lookup origin = some (.named action) →
          action = .replace word := by
  rw [action_eq]
  cases hown : (published.bind fun key => merged.decisions.lookup key).bind Decision.isNamed with
  | some action =>
    obtain ⟨decision, hdecision, hnamed⟩ := Option.bind_eq_some_iff.mp hown
    obtain ⟨own, hpublished, hlookup⟩ := Option.bind_eq_some_iff.mp hdecision
    obtain rfl : decision = .named action := by
      cases decision with
      | unnamed => cases hnamed
      | named found => rw [Option.some.inj hnamed]
    constructor
    · intro h
      obtain rfl : action = .replace word := h
      exact .inl ⟨own, hpublished, hlookup⟩
    · rintro (⟨other, hother, hfound⟩ | ⟨hnone, -⟩)
      · obtain rfl : own = other := Option.some.inj (hpublished.symm.trans hother)
        exact Decision.named.inj (Option.some.inj (hlookup.symm.trans hfound))
      · exact absurd hlookup (hnone own hpublished action)
  | none =>
    have hnone : ∀ own ∈ published, ∀ action,
        merged.decisions.lookup own ≠ some (.named action) := by
      intro own hpublished action hlookup
      rw [Option.mem_def.mp hpublished, Option.bind_some, hlookup] at hown
      cases hown
    have hagree : ∀ actions : List Action,
        (agreement .reject actions).getD .reject = .replace word ↔
          .replace word ∈ actions ∧ ∀ action ∈ actions, action = .replace word := by
      intro actions
      have hiff : agreement Action.reject actions = some (.replace word) ↔ _ :=
        Foundations.agreement_eq_some_iff (by rintro ⟨⟩)
      rw [← hiff]
      cases agreement Action.reject actions with
      | none => simp
      | some action => simp
    rw [hagree, mem_named_iff]
    simp only [mem_named_iff]
    constructor
    · rintro ⟨hsome, hall⟩
      exact .inr ⟨hnone, hsome, fun origin action h => hall action ⟨origin, h⟩⟩
    · rintro (⟨own, hpublished, hlookup⟩ | ⟨-, hsome, hall⟩)
      · exact absurd hlookup (hnone own hpublished _)
      · exact ⟨hsome, fun action ⟨origin, h⟩ => hall origin action h⟩

end Merged

/-! ### Chains -/

theorem TermRule.termKey_keyOf (rule : TermRule) :
    (rule.keyOf unicode).termKey unicode = unicode.termKey rule.term := by
  unfold TermRule.keyOf RuleKey.termKey Unicode.ruleKey
  by_cases hcase : rule.caseSensitive <;> simp [hcase, Unicode.termKey]

namespace Chain

def owner (chain : Chain) : String := chain.identity.getD ""

section Rulings

variable (unicode resolve caller)

/-- The actions the resolution of a chain has for the rule of a key. -/
def rulings (chain : Chain) (key : RuleKey) : List Action :=
  (((chain.resolution resolve caller).toOption.getD []).filter
    fun rule => rule.rule.keyOf unicode = key).map ResolvedRule.action

/-- The chain rules on the key, and names its term. -/
def NamesRule (chain : Chain) (key : RuleKey) : Prop :=
  chain.rulings unicode resolve caller key ≠ [] ∧
    chain.names unicode caller (key.termKey unicode) = true

/-- Where the chain rules on the key, it names its term and has it replaced by the word. -/
def Replaces (chain : Chain) (key : RuleKey) (word : String) : Prop :=
  ∀ action ∈ chain.rulings unicode resolve caller key,
    chain.names unicode caller (key.termKey unicode) = true ∧ action = .replace word

def resolves (chain : Chain) : Bool := (chain.resolution resolve caller).toOption.isSome

/-- What a chain brings to the merge. -/
def votes (chain : Chain) : List Vote :=
  ((chain.resolution resolve caller).toOption.getD []).map (chain.vote unicode caller)

end Rulings

theorem mem_votes_iff (chain : Chain) (key : RuleKey) (decision : Decision) :
    (∃ vote ∈ chain.votes unicode resolve caller,
        vote.on unicode key ∧ vote.decision = decision) ↔
      ∃ action ∈ chain.rulings unicode resolve caller key,
        decision =
          if chain.names unicode caller (key.termKey unicode) then .named action
          else .unnamed := by
  unfold votes rulings
  constructor
  · rintro ⟨vote, hvote, hon, rfl⟩
    obtain ⟨rule, hrule, rfl⟩ := List.mem_map.mp hvote
    have hkey : rule.rule.keyOf unicode = key := hon
    refine ⟨rule.action, List.mem_map.mpr ⟨rule, List.mem_filter.mpr ⟨hrule, ?_⟩, rfl⟩, ?_⟩
    · exact decide_eq_true hkey
    · rw [← hkey, TermRule.termKey_keyOf]
      rfl
  · rintro ⟨action, haction, rfl⟩
    obtain ⟨rule, hrule, rfl⟩ := List.mem_map.mp haction
    obtain ⟨hmem, hkey⟩ := List.mem_filter.mp hrule
    have hkey : rule.rule.keyOf unicode = key := of_decide_eq_true hkey
    refine ⟨chain.vote unicode caller rule, List.mem_map_of_mem hmem, hkey, ?_⟩
    rw [← hkey, TermRule.termKey_keyOf]
    rfl

/-- A chain of no identity votes under the empty name. -/
example : Chain.owner ⟨none, [], []⟩ = "" := by decide +kernel

end Chain

section Named

variable (unicode resolve caller)

/-- Some chain of the identity names the term. -/
def NamedBy (chains : List Chain) (key : RuleKey) (owner : String) : Prop :=
  ∃ chain ∈ chains, chain.owner = owner ∧ chain.NamesRule unicode resolve caller key

/-- Every chain of the identity that rules on the key has the term replaced by the word. -/
def AllReplace (chains : List Chain) (key : RuleKey) (owner word : String) : Prop :=
  ∀ chain ∈ chains, chain.owner = owner → chain.Replaces unicode resolve caller key word

/-- The published identity names the term and has it replaced; or it does not name it, and
everybody who does has it replaced. -/
def ReplacedBy (chains : List Chain) (published : Option String) (key : RuleKey)
    (word : String) : Prop :=
  (∃ own ∈ published, NamedBy unicode resolve caller chains key own ∧
    AllReplace unicode resolve caller chains key own word) ∨
  (∀ own ∈ published, ¬NamedBy unicode resolve caller chains key own) ∧
    (∃ owner, NamedBy unicode resolve caller chains key owner) ∧
    ∀ owner, NamedBy unicode resolve caller chains key owner →
      AllReplace unicode resolve caller chains key owner word

def allVotes (chains : List Chain) : List Vote :=
  chains.flatMap fun chain => chain.votes unicode resolve caller

end Named

variable (unicode resolve caller) in
/-- Where every chain resolves, merging them enters their votes. -/
theorem mergeChains_cases (chains : List Chain) (merging : Merging) :
    (∃ phrases, mergeChains unicode resolve caller chains merging =
        .ok ⟨(allVotes unicode resolve caller chains).foldl (enter unicode) merging.merged,
          phrases⟩) ∧
        chains.all (Chain.resolves resolve caller) = true ∨
      (∃ failed, mergeChains unicode resolve caller chains merging = .error failed) ∧
        chains.all (Chain.resolves resolve caller) = false := by
  induction chains generalizing merging with
  | nil => exact .inl ⟨⟨merging.phrases, rfl⟩, rfl⟩
  | cons chain rest ih =>
    cases hresolved : chain.resolution resolve caller with
    | error refused =>
      refine .inr ⟨⟨.levelsDoNotResolve refused, ?_⟩, ?_⟩
      · simp only [mergeChains, hresolved]
      · simp [Chain.resolves, hresolved, Except.toOption]
    | ok rules =>
      have hvotes : rules.foldl
          (fun merged rule => enter unicode merged (chain.vote unicode caller rule))
          merging.merged =
            (chain.votes unicode resolve caller).foldl (enter unicode) merging.merged := by
        simp [Chain.votes, hresolved, Except.toOption, List.foldl_map]
      have hstep := ih
        ⟨(chain.votes unicode resolve caller).foldl (enter unicode) merging.merged,
          merging.phrases ++ chain.levels.flatMap fun level => level.declaration.phrases⟩
      simp only [mergeChains, hresolved, hvotes]
      have hchain : chain.resolves resolve caller = true := by
        simp [Chain.resolves, hresolved, Except.toOption]
      rw [List.all_cons, hchain, Bool.true_and]
      rcases hstep with ⟨⟨phrases, hmerged⟩, hall⟩ | hfailed
      · refine .inl ⟨⟨phrases, ?_⟩, hall⟩
        rw [hmerged]
        simp [allVotes, List.foldl_append]
      · exact .inr hfailed

/-- What an identity decided, among the votes of all the chains. -/
theorem mem_decisionsOf_allVotes (chains : List Chain) (owner : String) (decision : Decision) :
    decision ∈ decisionsOf unicode key owner (allVotes unicode resolve caller chains) ↔
      ∃ chain ∈ chains, chain.owner = owner ∧
        ∃ action ∈ chain.rulings unicode resolve caller key,
          decision =
            if chain.names unicode caller (key.termKey unicode) then .named action
            else .unnamed := by
  have horigin : ∀ (chain : Chain) (vote : Vote),
      vote ∈ chain.votes unicode resolve caller → vote.origin = chain.owner := by
    intro chain vote hvote
    obtain ⟨rule, -, rfl⟩ := List.mem_map.mp hvote
    rfl
  constructor
  · intro hmem
    obtain ⟨vote, hvote, rfl⟩ := List.mem_map.mp hmem
    obtain ⟨hvote, hkey⟩ := List.mem_filter.mp hvote
    obtain ⟨hon, howner⟩ := of_decide_eq_true hkey
    obtain ⟨chain, hchain, hvote⟩ := List.mem_flatMap.mp hvote
    refine ⟨chain, hchain, (horigin chain vote hvote).symm.trans howner, ?_⟩
    exact (chain.mem_votes_iff key vote.decision).mp ⟨vote, hvote, hon, rfl⟩
  · rintro ⟨chain, hchain, rfl, hruled⟩
    obtain ⟨vote, hvote, hon, rfl⟩ := (chain.mem_votes_iff key decision).mpr hruled
    apply List.mem_map_of_mem
    apply List.mem_filter.mpr
    exact ⟨List.mem_flatMap.mpr ⟨chain, hchain, hvote⟩,
      decide_eq_true ⟨hon, horigin chain vote hvote⟩⟩

theorem entered_allVotes_eq_none_iff (chains : List Chain) :
    entered unicode ((allVotes unicode resolve caller chains).foldl (enter unicode) []) key =
        none ↔
      ∀ chain ∈ chains, chain.rulings unicode resolve caller key = [] := by
  rw [← Option.not_isSome_iff_eq_none, entered_isSome_iff]
  constructor
  · intro hnone chain hchain
    apply List.eq_nil_iff_forall_not_mem.mpr
    intro action haction
    obtain ⟨vote, hvote, hon, -⟩ := (chain.mem_votes_iff key _).mpr ⟨action, haction, rfl⟩
    exact hnone ⟨vote, List.mem_flatMap.mpr ⟨chain, hchain, hvote⟩, hon⟩
  · rintro hnil ⟨vote, hvote, hon⟩
    obtain ⟨chain, hchain, hvote⟩ := List.mem_flatMap.mp hvote
    obtain ⟨action, haction, -⟩ := (chain.mem_votes_iff key _).mp ⟨vote, hvote, hon, rfl⟩
    rw [hnil chain hchain] at haction
    cases haction

/-- An identity has come to an action where one of its chains names the rule. -/
theorem standing_named_iff (chains : List Chain) (owner : String) :
    (∃ action, standing unicode ((allVotes unicode resolve caller chains).foldl (enter unicode) [])
        key owner = some (.named action)) ↔
      NamedBy unicode resolve caller chains key owner := by
  rw [standing_enter_all]
  constructor
  · rintro ⟨action, hagreed⟩
    -- a list of refusals nobody named does not come to a named action
    by_contra hunnamed
    have hall : ∀ decision ∈ decisionsOf unicode key owner
        (allVotes unicode resolve caller chains), decision = .unnamed := by
      intro decision hmem
      obtain ⟨chain, hchain, howner, ruling, hruling, rfl⟩ :=
        (mem_decisionsOf_allVotes chains owner decision).mp hmem
      apply if_neg
      intro hnames
      exact hunnamed ⟨chain, hchain, howner, List.ne_nil_of_mem hruling, hnames⟩
    by_cases hnil : decisionsOf unicode key owner (allVotes unicode resolve caller chains) = []
    · rw [hnil] at hagreed
      cases hagreed
    · obtain ⟨decision, hmem⟩ := List.exists_mem_of_ne_nil _ hnil
      obtain rfl := hall decision hmem
      rw [Foundations.agreement_of_forall hmem hall] at hagreed
      cases hagreed
  · rintro ⟨chain, hchain, howner, hruled, hnames⟩
    obtain ⟨ruling, hruling⟩ := List.exists_mem_of_ne_nil _ hruled
    have hmem : Decision.named ruling ∈ decisionsOf unicode key owner
        (allVotes unicode resolve caller chains) :=
      (mem_decisionsOf_allVotes chains owner _).mpr
        ⟨chain, hchain, howner, ruling, hruling, (if_pos hnames).symm⟩
    rcases Foundations.agreement_cases (.named .reject) (List.ne_nil_of_mem hmem)
      with hbot | ⟨decision, -, hagreed, hall⟩
    · exact ⟨.reject, hbot⟩
    · rw [← hall _ hmem] at hagreed
      exact ⟨ruling, hagreed⟩

/-- An identity has come to a replacement where one of its chains names the rule, and every
one that has the rule replaces the term. -/
theorem standing_replace_iff (chains : List Chain) (owner word : String) :
    standing unicode ((allVotes unicode resolve caller chains).foldl (enter unicode) []) key owner =
        some (.named (.replace word)) ↔
      NamedBy unicode resolve caller chains key owner ∧
        AllReplace unicode resolve caller chains key owner word := by
  rw [standing_enter_all]
  have hagreed : ∀ decisions : List Decision,
      agreement (.named .reject) decisions = some (.named (.replace word)) ↔
        .named (.replace word) ∈ decisions ∧
          ∀ decision ∈ decisions, decision = .named (.replace word) :=
    fun decisions => Foundations.agreement_eq_some_iff (by rintro ⟨⟩)
  constructor
  · intro hstanding
    refine ⟨(standing_named_iff chains owner).mp ⟨_, (standing_enter_all _ owner).trans hstanding⟩,
      ?_⟩
    intro chain hchain howner ruling hruling
    have hdecided := ((hagreed _).mp hstanding).2 _
      ((mem_decisionsOf_allVotes chains owner _).mpr
        ⟨chain, hchain, howner, ruling, hruling, rfl⟩)
    by_cases hnames : chain.names unicode caller (key.termKey unicode) = true
    · rw [if_pos hnames] at hdecided
      exact ⟨hnames, Decision.named.inj hdecided⟩
    · rw [if_neg hnames] at hdecided
      cases hdecided
  · rintro ⟨⟨chain, hchain, howner, hruled, -⟩, hall⟩
    obtain ⟨ruling, hruling⟩ := List.exists_mem_of_ne_nil _ hruled
    have hdecides : ∀ decision ∈ decisionsOf unicode key owner
        (allVotes unicode resolve caller chains), decision = .named (.replace word) := by
      intro decision hmem
      obtain ⟨other, hother, howner, action, haction, rfl⟩ :=
        (mem_decisionsOf_allVotes chains owner decision).mp hmem
      obtain ⟨hnames, rfl⟩ := hall other hother howner action haction
      exact if_pos hnames
    have hmem := (mem_decisionsOf_allVotes chains owner _).mpr
      ⟨chain, hchain, howner, ruling, hruling, rfl⟩
    exact (hagreed _).mpr ⟨hdecides _ hmem ▸ hmem, hdecides⟩

variable (unicode resolve caller key) in
theorem standing_perm {chains chains' : List Chain} (hperm : chains.Perm chains')
    (owner : String) :
    standing unicode ((allVotes unicode resolve caller chains).foldl (enter unicode) []) key owner =
      standing unicode ((allVotes unicode resolve caller chains').foldl (enter unicode) []) key
        owner := by
  rw [standing_enter_all, standing_enter_all]
  apply Foundations.agreement_congr
  intro decision
  rw [mem_decisionsOf_allVotes, mem_decisionsOf_allVotes]
  simp only [hperm.mem_iff]

/-! ### The merge -/

theorem actionOf_resolved (merged : List Merged) (published : Option String) (key : RuleKey)
    (identities phrases : List String) :
    MergedScope.actionOf unicode
        ⟨(merged.map fun merged => merged.resolved published).map Prod.fst, identities, phrases⟩
        key =
      (entered unicode merged key).map fun merged => merged.action published := by
  unfold MergedScope.actionOf entered
  rw [List.map_map, List.find?_map, Option.map_map]
  rfl

variable (unicode resolve caller) in
theorem merge_actionOf (chains : List Chain) (published : Option String) (key : RuleKey) :
    (merge unicode resolve caller chains published).toOption.map
        (fun merged => merged.actionOf unicode key) =
      if chains.all (Chain.resolves resolve caller) then
        some ((entered unicode
          ((allVotes unicode resolve caller chains).foldl (enter unicode) []) key).map
            fun merged => merged.action published)
      else none := by
  unfold merge
  rcases mergeChains_cases unicode resolve caller chains ⟨[], []⟩ with
    ⟨⟨phrases, hok⟩, hall⟩ | ⟨⟨failed, herror⟩, hrefused⟩
  · rw [if_pos hall, hok]
    exact congrArg some (actionOf_resolved _ published key _ _)
  · rw [hrefused, herror]
    rfl

theorem actionOf_of_ok {chains : List Chain} {published : Option String} {scope : MergedScope}
    (hscope : merge unicode resolve caller chains published = .ok scope) (key : RuleKey) :
    scope.actionOf unicode key =
      (entered unicode
        ((allVotes unicode resolve caller chains).foldl (enter unicode) []) key).map
          fun merged => merged.action published := by
  have hactionOf := merge_actionOf unicode resolve caller chains published key
  rw [hscope] at hactionOf
  split at hactionOf
  · exact Option.some.inj hactionOf
  · cases hactionOf

/-- What a merged rule is decided by is what its chains say of it. -/
theorem action_entered_iff {merged : Merged} {chains : List Chain}
    (hmerged : entered unicode
      ((allVotes unicode resolve caller chains).foldl (enter unicode) []) key = some merged)
    (published : Option String) (word : String) :
    merged.action published = .replace word ↔
      ReplacedBy unicode resolve caller chains published key word := by
  have hlookup : ∀ owner, merged.decisions.lookup owner = standing unicode
      ((allVotes unicode resolve caller chains).foldl (enter unicode) []) key owner := by
    intro owner
    simp only [standing, hmerged, Option.bind_some]
  have hnamed : ∀ owner, (∃ action, merged.decisions.lookup owner = some (.named action)) ↔
      NamedBy unicode resolve caller chains key owner := by
    intro owner
    simp only [hlookup]
    exact standing_named_iff chains owner
  have hreplace : ∀ owner, merged.decisions.lookup owner = some (.named (.replace word)) ↔
      NamedBy unicode resolve caller chains key owner ∧
        AllReplace unicode resolve caller chains key owner word := by
    intro owner
    rw [hlookup]
    exact standing_replace_iff chains owner word
  rw [merged.action_eq_replace_iff published word]
  unfold ReplacedBy
  apply or_congr
  · simp only [hreplace]
  apply and_congr
  · apply forall₂_congr
    intro own _
    rw [← hnamed, not_exists]
  constructor
  · rintro ⟨⟨owner, hfound⟩, hall⟩
    refine ⟨⟨owner, ((hreplace owner).mp hfound).1⟩, fun other hother => ?_⟩
    obtain ⟨action, haction⟩ := (hnamed other).mpr hother
    rw [hall other action haction] at haction
    exact ((hreplace other).mp haction).2
  · rintro ⟨⟨owner, howner⟩, hall⟩
    refine ⟨⟨owner, (hreplace owner).mpr ⟨howner, hall owner howner⟩⟩, ?_⟩
    intro other action haction
    have hother := (hnamed other).mp ⟨action, haction⟩
    have hfound := (hreplace other).mpr ⟨hother, hall other hother⟩
    exact Decision.named.inj (Option.some.inj (haction.symm.trans hfound))

/-- The action of a rule does not depend on the order of the chains. -/
theorem action_entered_perm {chains chains' : List Chain} (hperm : chains.Perm chains')
    (published : Option String) :
    (entered unicode
        ((allVotes unicode resolve caller chains).foldl (enter unicode) []) key).map
          (fun merged => merged.action published) =
      (entered unicode
        ((allVotes unicode resolve caller chains').foldl (enter unicode) []) key).map
          (fun merged => merged.action published) := by
  have hrulings : (∀ chain ∈ chains, chain.rulings unicode resolve caller key = []) ↔
      ∀ chain ∈ chains', chain.rulings unicode resolve caller key = [] :=
    forall_congr' fun chain => by rw [hperm.mem_iff]
  rw [← entered_allVotes_eq_none_iff, ← entered_allVotes_eq_none_iff] at hrulings
  have hstanding := standing_perm unicode resolve caller key hperm
  unfold standing at hstanding
  cases hmerged : entered unicode
      ((allVotes unicode resolve caller chains).foldl (enter unicode) []) key with
  | none => rw [hrulings.mp hmerged]
  | some merged =>
    cases hmerged' : entered unicode
        ((allVotes unicode resolve caller chains').foldl (enter unicode) []) key with
    | none =>
      rw [hrulings.mpr hmerged'] at hmerged
      cases hmerged
    | some merged' =>
      apply congrArg some
      apply Merged.action_congr
      intro owner
      have howner := hstanding owner
      rwa [hmerged, hmerged', Option.bind_some, Option.bind_some] at howner

theorem Action.eq_reject_of_ne {action : Action} (h : ∀ word, action ≠ .replace word) :
    action = .reject := by
  cases action with
  | reject => rfl
  | replace word => exact absurd rfl (h word)

/-- The action of every rule is the same in whatever order the chains are merged. It is a
replacement where the published identity names the term and every chain of it that has the
rule replaces it, or where it does not name the term and the same holds of everybody who
does; where a chain names the term otherwise, it is a refusal. -/
theorem merge_agrees {chains chains' : List Chain} (hperm : chains.Perm chains')
    (published : Option String) (key : RuleKey) :
    (merge unicode resolve caller chains published).toOption.map
          (fun merged => merged.actionOf unicode key) =
        (merge unicode resolve caller chains' published).toOption.map
          (fun merged => merged.actionOf unicode key) ∧
      ∀ merged, merge unicode resolve caller chains published = .ok merged →
        (∀ word, merged.actionOf unicode key = some (.replace word) ↔
          ReplacedBy unicode resolve caller chains published key word) ∧
        ((∃ chain ∈ chains, chain.NamesRule unicode resolve caller key) →
          (∀ word, ¬ReplacedBy unicode resolve caller chains published key word) →
            merged.actionOf unicode key = some .reject) := by
  constructor
  · rw [merge_actionOf, merge_actionOf, hperm.all_eq, action_entered_perm hperm]
  · intro scope hscope
    rw [actionOf_of_ok hscope]
    cases hmerged : entered unicode
        ((allVotes unicode resolve caller chains).foldl (enter unicode) []) key with
    | none =>
      have hrulings := (entered_allVotes_eq_none_iff chains).mp hmerged
      have hunnamed : ∀ owner, ¬NamedBy unicode resolve caller chains key owner :=
        fun owner ⟨chain, hchain, _, hruled, _⟩ => hruled (hrulings chain hchain)
      constructor
      · intro word
        constructor
        · rintro ⟨⟩
        · rintro (⟨own, -, hnamed, -⟩ | ⟨-, ⟨owner, hnamed⟩, -⟩)
          · exact absurd hnamed (hunnamed own)
          · exact absurd hnamed (hunnamed owner)
      · rintro ⟨chain, hchain, hnames⟩
        exact absurd ⟨chain, hchain, rfl, hnames⟩ (hunnamed chain.owner)
    | some merged =>
      have hword : ∀ word, merged.action published = .replace word ↔
          ReplacedBy unicode resolve caller chains published key word :=
        action_entered_iff hmerged published
      constructor
      · intro word
        rw [Option.map_some, Option.some_inj]
        exact hword word
      · intro _ hnot
        apply congrArg some
        apply Action.eq_reject_of_ne
        intro word hreplaced
        exact hnot word ((hword word).mp hreplaced)

end Merging

section Sample

/-- A level's terms, and the terms its replacements name, each replaced as the nearest level
naming it says. -/
def nearest (_ : List (TermRule × String)) (levels : List (Level String Declaration))
    (_ : List Replacement) : Except Unit (List ResolvedRule) :=
  let entries := levels.flatMap fun level => level.declaration.replacements
  .ok (levels.flatMap fun level =>
    (level.declaration.terms ++ level.declaration.replacements.map Replacement.term).map
      fun term => {
        rule := ⟨term, .substring, false⟩
        action := ((entries.find? fun entry => entry.term == term).map
          Replacement.action).getD .reject
        origin := level.kind.spell })

/-- The checkout of `wharf` beneath a directory that has a name replaced. -/
def underLevel : Chain where
  identity := some "wharf"
  rules := []
  levels := [{
    kind := .directory
    dir := ["work", "home"]
    declaration := ⟨[], [⟨"lantern", .replace "a service"⟩], []⟩ }]

def elsewhere : Chain := ⟨some "wharf", [], []⟩

def lantern : RuleKey := ⟨.substring, false, "lantern"⟩

/-- The name is replaced, though not every checkout of the published identity has a rule
that replaces it. -/
theorem underLevel_replaces :
    ((merge ⟨id, id⟩ nearest [] [underLevel, elsewhere] (some "wharf")).toOption.bind
        fun merged => merged.actionOf ⟨id, id⟩ lantern) = some (.replace "a service") ∧
      underLevel.names ⟨id, id⟩ [] "lantern" = true ∧
      elsewhere.owner = "wharf" ∧
      elsewhere.rulings ⟨id, id⟩ nearest [] lantern = [] := by
  decide

/-- Either order of the two checkouts has the name replaced. -/
theorem merge_agrees_underLevel :
    (merge ⟨id, id⟩ nearest [] [elsewhere, underLevel] (some "wharf")).toOption.map
        (fun merged => merged.actionOf ⟨id, id⟩ lantern) =
      some (some (.replace "a service")) := by
  have hperm : [elsewhere, underLevel].Perm [underLevel, elsewhere] := .swap ..
  rw [(merge_agrees hperm (some "wharf") lantern).1]
  decide

end Sample

end Onevcs.Boundary
