import Onevcs.Retire.RunRootsExact

/-!
# What a sweep reads of one run root

The questions `judge` and `release` of `sweep.rs` ask of a run root: whether it is named as
this crate names one, whether its gate recorded a verdict, when anything under it was last
written, whether a removal may empty it, and which branches of its clone hold work that
neither reached the origin nor landed.

A read that may fail has its failures beside it. A failure of a name, of a mark or of a
verdict is an answer of no, and is left to the caller; the two walks over the tree are given
the failures they meet, each at the node it is met at.
-/

namespace Onevcs.Sweep

open Foundations (History)
open Retire (Clone Reads Counting unpublishedBranches)

/-- `Verb`: what cut a run root. -/
inductive Verb
  | recover
  | publishBranch
  deriving DecidableEq

/-- A run root: the family it is in, and its name there. -/
structure RunRoot where
  verb : Verb
  name : String
  deriving DecidableEq

/-- What stands before and after the last separator, where there is one. -/
def splitLast (separator : Char) : List Char → Option (List Char × List Char)
  | [] => none
  | c :: rest =>
    match splitLast separator rest with
    | some (before, after) => some (c :: before, after)
    | none => if c = separator then some ([], rest) else none

/-- `is_ascii_hexdigit`, of a `char`. -/
def isHex (c : Char) : Bool :=
  c.isDigit || ('a' ≤ c && c ≤ 'f') || ('A' ≤ c && c ≤ 'F')

/-- One part of a name that is written in hex. -/
def hexPart (part : List Char) : Bool := !part.isEmpty && part.all isHex

/-- `names_a_run`: a slug, then a process, a clock and a counter in hex. -/
def namesARun (name : String) : Bool :=
  ((splitLast '-' name.toList).bind fun (rest, counter) =>
    (splitLast '-' rest).bind fun (rest, nanos) =>
      (splitLast '-' rest).map fun (slug, pid) =>
        hexPart counter && hexPart nanos && hexPart pid && !slug.isEmpty).getD false

def stripPrefix (start text : List Char) : Option (List Char) :=
  if start.isPrefixOf text then some (text.drop start.length) else none

def stripSuffix (ending text : List Char) : Option (List Char) :=
  if ending.isSuffixOf text then some (text.take (text.length - ending.length)) else none

def number (digits : List Char) : Nat :=
  digits.foldl (fun n digit => 10 * n + (digit.toNat - '0'.toNat)) 0

/-- `attempt_number`: the attempt a log is of, by its name. -/
def attemptNumber (name : String) : Option Nat :=
  ((stripPrefix "gate-".toList name.toList).bind (stripSuffix ".log".toList)).bind fun digits =>
    if digits.length = 4 ∧ digits.all Char.isDigit ∧ 0 < number digits then some (number digits)
    else none

/-- What `has_recorded_verdict` reads: a directory a branch, with the names in it and which
are regular files. -/
abbrev Logs := List (List (String × Bool))

def hasRecordedVerdict (logs : Logs) : Bool :=
  logs.any fun branch => branch.any fun log => (attemptNumber log.1).isSome && log.2

/-! ## Its age -/

/-- What is under a run root, each with when it was modified. -/
inductive Tree
  | leaf (modified : Nat)
  | dir (modified : Nat) (entries : List Tree)

/-- Where something is under a run root: the way there, innermost step first. -/
abbrev Place := List Nat

/-- What a walk over the tree can fail at. -/
inductive Fault
  -- the entry is not named by the listing it is in
  | entry
  -- its clock cannot be read
  | clock
  -- what it is cannot be read
  | kind
  -- it cannot be listed
  | listing
  -- an entry of it is not shown to be this user's to unlink
  | unlink
  deriving DecidableEq

/-- The failures of one walk, each where it was met. -/
abbrev Faults := List (Place × Fault)

mutual

/-- When anything in the tree was last modified. -/
def Tree.newest : Tree → Nat
  | .leaf modified => modified
  | .dir modified entries => max modified (newestIn entries)

def newestIn : List Tree → Nat
  | [] => 0
  | entry :: rest => max entry.newest (newestIn rest)

end

/-- `modified`: what cannot be read is written now. -/
def modifiedAt (now : Nat) (faults : Faults) (place : Place) (modified : Nat) : Nat :=
  if (place, .clock) ∈ faults then now else modified

mutual

def lastWritten (now : Nat) (faults : Faults) (place : Place) : Tree → Nat
  | .leaf modified => modifiedAt now faults place modified
  | .dir modified entries =>
    if (place, .kind) ∈ faults then modifiedAt now faults place modified
    else if (place, .listing) ∈ faults then now
    else max (modifiedAt now faults place modified) (lastWrittenIn now faults place 0 entries)

/-- The entries of a listing: one that it could not name is passed by. -/
def lastWrittenIn (now : Nat) (faults : Faults) (place : Place) (i : Nat) : List Tree → Nat
  | [] => 0
  | entry :: rest =>
    max (if (i :: place, .entry) ∈ faults then 0 else lastWritten now faults (i :: place) entry)
      (lastWrittenIn now faults place (i + 1) rest)

end

mutual

theorem lastWritten_eq_newest (now : Nat) : ∀ (tree : Tree) (place : Place),
    lastWritten now [] place tree = tree.newest
  | .leaf modified, place => by simp [lastWritten, modifiedAt, Tree.newest]
  | .dir modified entries, place => by
    simp [lastWritten, modifiedAt, Tree.newest, lastWrittenIn_eq_newestIn now entries place 0]

theorem lastWrittenIn_eq_newestIn (now : Nat) : ∀ (entries : List Tree) (place : Place) (i : Nat),
    lastWrittenIn now [] place i entries = newestIn entries
  | [], place, i => rfl
  | entry :: rest, place, i => by
    simp [lastWrittenIn, newestIn, lastWritten_eq_newest now entry (i :: place),
      lastWrittenIn_eq_newestIn now rest place (i + 1)]

end

mutual

def showsItMayEmptyWithin (faults : Faults) (place : Place) : Tree → Bool
  | .leaf _ => (place, .kind) ∉ faults
  | .dir _ entries =>
    (place, .kind) ∉ faults && (place, .unlink) ∉ faults && (place, .listing) ∉ faults &&
      showEntries faults place 0 entries

def showEntries (faults : Faults) (place : Place) (i : Nat) : List Tree → Bool
  | [] => true
  | entry :: rest =>
    (i :: place, .entry) ∉ faults && showsItMayEmptyWithin faults (i :: place) entry &&
      showEntries faults place (i + 1) rest

end

/-- `shows_it_may_empty`: the family's directory is asked as well. -/
def showsItMayEmpty (family : Bool) (faults : Faults) (tree : Tree) : Bool :=
  family && showsItMayEmptyWithin faults [] tree

mutual

/-- Every directory of the tree was listed, every entry of it named, and each is shown to be
this user's to unlink. -/
inductive Shown (faults : Faults) : Place → Tree → Prop
  | leaf {place : Place} {modified : Nat} : (place, .kind) ∉ faults →
      Shown faults place (.leaf modified)
  | dir {place : Place} {modified : Nat} {entries : List Tree} : (place, .kind) ∉ faults →
      (place, .unlink) ∉ faults → (place, .listing) ∉ faults → ShownIn faults place 0 entries →
      Shown faults place (.dir modified entries)

inductive ShownIn (faults : Faults) : Place → Nat → List Tree → Prop
  | nil {place : Place} {i : Nat} : ShownIn faults place i []
  | cons {place : Place} {i : Nat} {entry : Tree} {rest : List Tree} :
      (i :: place, .entry) ∉ faults → Shown faults (i :: place) entry →
      ShownIn faults place (i + 1) rest → ShownIn faults place i (entry :: rest)

end

mutual

theorem shown_of_within (faults : Faults) : ∀ (tree : Tree) (place : Place),
    showsItMayEmptyWithin faults place tree = true → Shown faults place tree
  | .leaf modified, place, h => by
    simp only [showsItMayEmptyWithin, decide_eq_true_eq] at h
    exact .leaf h
  | .dir modified entries, place, h => by
    simp only [showsItMayEmptyWithin, Bool.and_eq_true, decide_eq_true_eq] at h
    obtain ⟨⟨⟨hkind, hunlink⟩, hlisting⟩, hentries⟩ := h
    exact .dir hkind hunlink hlisting (shownIn_of_entries faults entries place 0 hentries)

theorem shownIn_of_entries (faults : Faults) : ∀ (entries : List Tree) (place : Place) (i : Nat),
    showEntries faults place i entries = true → ShownIn faults place i entries
  | [], place, i, _ => .nil
  | entry :: rest, place, i, h => by
    simp only [showEntries, Bool.and_eq_true, decide_eq_true_eq] at h
    obtain ⟨⟨hentry, hfirst⟩, hrest⟩ := h
    exact .cons hentry (shown_of_within faults entry (i :: place) hfirst)
      (shownIn_of_entries faults rest place (i + 1) hrest)

end

theorem shown_of_showsItMayEmpty {family : Bool} {faults : Faults} {tree : Tree}
    (h : showsItMayEmpty family faults tree = true) : family = true ∧ Shown faults [] tree := by
  rw [showsItMayEmpty, Bool.and_eq_true] at h
  exact ⟨h.1, shown_of_within faults tree [] h.2⟩

/-! ## Its work -/

/-- What became of the reads `unpublished_work` makes: of the base, of the clone, and of
whether each branch landed, in full or not, where that was decided. -/
structure Work (κ : Type) where
  base : Bool
  reads : Reads κ
  decided : String → Option Bool

section Working

variable {κ : Type} [DecidableEq κ] (H : History κ)

/-- The branches that did not land in full, where each was decided. -/
def undecided (decided : String → Option Bool) : List String → Option (List String)
  | [] => some []
  | branch :: rest =>
    (decided branch).bind fun landed =>
      (undecided decided rest).map fun holding => if landed then holding else branch :: holding

/-- `unpublished_work`; `none` is a failure. -/
def unpublishedWork (clone : Clone κ) (work : Work κ) : Option (List String) :=
  if work.base then
    (unpublishedBranches H clone work.reads).toOption.bind (undecided work.decided)
  else none

/-- A branch holds commits that no origin ref has. -/
def Unpublished (clone : Clone κ) (branch : String) (tip : κ) : Prop :=
  clone.heads.lookup branch = some tip ∧ ¬ H.Reached clone.originTips tip

/-- Git never found a reference gone that it declined to count. -/
def Work.counts (clone : Clone κ) (work : Work κ) : Bool :=
  clone.heads.all fun branch => work.reads.counting branch.2 ≠ .gone

/-- What `release` reads of the checkout that preserves a branch: which tips of the clone it
finds, the refs of the checkout, and of which commits git says whether these reach them. -/
structure Checkout (κ : Type) where
  finds : String → Bool
  refs : List κ
  counts : κ → Bool

/-- The checkout reaches the tip of the branch: `git::tip`, then `git::refs_reach`. -/
def Checkout.preserves (checkout : Checkout κ) (clone : Clone κ) (branch : String) : Bool :=
  checkout.finds branch && (clone.heads.lookup branch).any fun tip =>
    checkout.counts tip && decide (H.Reached checkout.refs tip)

/-- The branches that hold a released run root: those with work that the checkout does not
reach. -/
def unpreserved (clone : Clone κ) (work : Work κ) (checkout : Checkout κ) :
    Option (List String) :=
  (unpublishedWork H clone work).map fun branches =>
    branches.filter fun branch => !checkout.preserves H clone branch

variable {H} {clone : Clone κ} {work : Work κ}

theorem mem_of_undecided {decided : String → Option Bool} {branches holding : List String}
    (h : undecided decided branches = some holding) {branch : String} (hmem : branch ∈ branches) :
    branch ∈ holding ∨ decided branch = some true := by
  induction branches generalizing holding with
  | nil => cases hmem
  | cons first rest ih =>
    obtain ⟨landed, hlanded, h⟩ := Option.bind_eq_some_iff.mp h
    obtain ⟨others, hothers, rfl⟩ := Option.map_eq_some_iff.mp h
    rcases List.mem_cons.mp hmem with rfl | hlater
    · cases landed with
      | true => exact .inr hlanded
      | false => exact .inl List.mem_cons_self
    · rcases ih hothers hlater with hheld | hdecided
      · cases landed with
        | true => exact .inl hheld
        | false => exact .inl (List.mem_cons_of_mem first hheld)
      · exact .inr hdecided

theorem unpublishedBranches_eq_ok {branches : List String}
    (h : unpublishedBranches H clone work.reads = .ok branches) :
    (∀ head ∈ clone.heads, head.2 ∉ clone.originTips →
      (work.reads.counting head.2).answered = true) ∧
    branches = (clone.heads.filter (clone.ahead H work.reads)).map Prod.fst := by
  unfold unpublishedBranches Retire.unpublishedBranchesAmong at h
  by_cases hlisting : work.reads.listing = true
  · rw [if_pos hlisting] at h
    by_cases hanswered : ∀ head ∈ clone.heads, head.2 ∉ clone.originTips →
        (work.reads.counting head.2).answered = true
    · rw [Retire.unpublishedAmong_answered clone.heads hanswered] at h
      exact ⟨hanswered, (Except.ok.inj h).symm⟩
    · push Not at hanswered
      obtain ⟨head, hhead, hoff, hunanswered⟩ := hanswered
      obtain ⟨why, hwhy⟩ := Retire.unpublishedAmong_unanswered clone.heads hhead hoff
        (Bool.eq_false_iff.mpr hunanswered)
      rw [hwhy] at h
      cases h
  · rw [if_neg hlisting] at h
    cases h

theorem unpublishedWork_eq_some {holding : List String}
    (h : unpublishedWork H clone work = some holding) :
    ∃ branches, unpublishedBranches H clone work.reads = .ok branches ∧
      undecided work.decided branches = some holding := by
  unfold unpublishedWork at h
  split at h
  · obtain ⟨branches, hbranches, h⟩ := Option.bind_eq_some_iff.mp h
    cases hlisted : unpublishedBranches H clone work.reads with
    | error why =>
      rw [hlisted] at hbranches
      cases hbranches
    | ok listed =>
      rw [hlisted] at hbranches
      obtain rfl : listed = branches := Option.some.inj hbranches
      exact ⟨listed, rfl, h⟩
  · cases h

/-- Where no count found its reference gone, every branch that holds commits no origin ref
has is listed. -/
theorem mem_unpublishedBranches {branches : List String}
    (h : unpublishedBranches H clone work.reads = .ok branches)
    (hcounts : work.counts clone = true) {branch : String} {tip : κ}
    (hholds : Unpublished H clone branch tip) : branch ∈ branches := by
  obtain ⟨htip, hnot⟩ := hholds
  have hmem : (branch, tip) ∈ clone.heads := by
    obtain ⟨earlier, later, heq, -⟩ := List.lookup_eq_some_iff.mp htip
    rw [heq]
    exact List.mem_append_right _ List.mem_cons_self
  have horigin : tip ∉ clone.originTips := fun hin => hnot (History.Reached.of_mem hin)
  obtain ⟨hanswered, rfl⟩ := unpublishedBranches_eq_ok h
  have hcounted : work.reads.counting tip = .counted := by
    have hone := hanswered (branch, tip) hmem horigin
    have hthere := List.all_eq_true.mp hcounts (branch, tip) hmem
    revert hone hthere
    cases work.reads.counting tip <;> simp [Counting.answered]
  refine List.mem_map.mpr ⟨(branch, tip), List.mem_filter.mpr ⟨hmem, ?_⟩, rfl⟩
  simp [Retire.Clone.ahead, horigin, hcounted, hnot]

theorem mem_branches_of_undecided {decided : String → Option Bool}
    {branches holding : List String} (h : undecided decided branches = some holding)
    {branch : String} (hmem : branch ∈ holding) :
    branch ∈ branches ∧ decided branch = some false := by
  induction branches generalizing holding with
  | nil =>
    obtain rfl : [] = holding := Option.some.inj h
    cases hmem
  | cons first rest ih =>
    obtain ⟨landed, hlanded, h⟩ := Option.bind_eq_some_iff.mp h
    obtain ⟨others, hothers, rfl⟩ := Option.map_eq_some_iff.mp h
    have hlater : branch ∈ others → branch ∈ first :: rest ∧ decided branch = some false :=
      fun hin => ⟨List.mem_cons_of_mem first (ih hothers hin).1, (ih hothers hin).2⟩
    cases landed with
    | true => exact hlater hmem
    | false =>
      rcases List.mem_cons.mp hmem with rfl | hin
      · exact ⟨List.mem_cons_self, hlanded⟩
      · exact hlater hin

/-- What is reported as work is a branch that holds commits no origin ref has and was decided
not to have landed in full. -/
theorem holds_of_unpublishedWork {holding : List String}
    (h : unpublishedWork H clone work = some holding) {branch : String}
    (hmem : branch ∈ holding) :
    (∃ tip, (branch, tip) ∈ clone.heads ∧ ¬ H.Reached clone.originTips tip) ∧
      work.decided branch = some false := by
  obtain ⟨branches, hlisted, h⟩ := unpublishedWork_eq_some h
  obtain ⟨hin, hdecided⟩ := mem_branches_of_undecided h hmem
  obtain ⟨-, rfl⟩ := unpublishedBranches_eq_ok hlisted
  obtain ⟨⟨name, tip⟩, hahead, rfl⟩ := List.mem_map.mp hin
  obtain ⟨hhead, hahead⟩ := List.mem_filter.mp hahead
  refine ⟨⟨tip, hhead, ?_⟩, hdecided⟩
  simp only [Retire.Clone.ahead, Bool.and_eq_true, Bool.not_eq_true',
    decide_eq_false_iff_not] at hahead
  exact hahead.2

/-- A branch that holds commits no origin ref has is reported, unless it is decided landed in
full. -/
theorem unpublishedWork_decided {holding : List String}
    (h : unpublishedWork H clone work = some holding) (hcounts : work.counts clone = true)
    {branch : String} {tip : κ} (hholds : Unpublished H clone branch tip) :
    branch ∈ holding ∨ work.decided branch = some true := by
  obtain ⟨branches, hlisted, h⟩ := unpublishedWork_eq_some h
  exact mem_of_undecided h (mem_unpublishedBranches hlisted hcounts hholds)

theorem reached_of_preserves {checkout : Checkout κ} {branch : String} {tip : κ}
    (h : checkout.preserves H clone branch = true)
    (htip : clone.heads.lookup branch = some tip) : H.Reached checkout.refs tip := by
  rw [Checkout.preserves, htip, Bool.and_eq_true] at h
  have hreached := h.2
  simp only [Option.any_some, Bool.and_eq_true, decide_eq_true_eq] at hreached
  exact hreached.2

end Working

end Onevcs.Sweep
