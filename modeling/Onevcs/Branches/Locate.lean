import Onevcs.Foundations.History

/-!
# Locating a branch

`locate` of `branch.rs`, with `carries_the_rest`, `carries_the_rest_but_base_merges`,
`only_clean_base_merges` and `keep_passed_over`, and `opened_at` of `workspace.rs`, which
decides between a checkout's copy and origin's the same way.

A checkout answers through its own object store, or with another's objects lent to it:
commits it does not have and questions git refuses are part of what it is. A copy of the
branch is read by its full ref name. What git makes of the plain name of the branch is the
same commit unless some other ref of that name comes first, as a tag does.
-/

namespace Onevcs.Branches

open Foundations (History)

/-- The commits of an identity, and the tree merging two of them cleanly writes. -/
structure Commits (κ τ : Type) where
  history : History κ
  tree : κ → τ
  cleanMerge : κ → κ → Option τ

/-- What is put to git about commits. -/
inductive Question (κ : Type)
  | differ (base named : κ)
  | isAncestor (ancestor descendant : κ)
  | commits (tip : κ) (notIn : List κ)
  | cleanMerge (first second : κ)
  | treeOf (commit : κ)
  | objectsDir
  | shape (commit : κ)

/-- A repository as it is asked: the commits it has, and what git says where it refuses. -/
structure View (κ : Type) where
  has : κ → Bool
  refuses : Question κ → Option String

structure Checkout (κ : Type) where
  path : String
  /-- The commit of `refs/heads/<branch>`, where this is a repository that has it. -/
  tip : Option κ
  /-- The commit of a ref of the same name that git resolves before `refs/heads`. -/
  shadow : Option κ
  /-- What its own base ref resolves to. -/
  base : Option κ
  /-- The checkout as it is asked, with the objects of a path lent to it. -/
  view : Option String → View κ

structure Copy (κ : Type) where
  checkout : Checkout κ
  tip : κ

inductive Holds
  | work
  | whatTheBaseHas
  deriving DecidableEq

structure Held (κ : Type) extends Copy κ where
  holds : Holds

/-- One search for a branch, over the checkouts of its identity. -/
structure Search (κ : Type) where
  branch : String
  checkouts : List (Checkout κ)
  publication : Checkout κ
  /-- The publication checkout's view of the base. -/
  current : Option κ
  /-- Origin's copy, as the publication checkout has it. -/
  hosted : Option κ
  /-- What git says where a copy cannot be fetched into the publication checkout. -/
  fetchFails : String → Option String
  /-- The publication checkout cannot name a commit by a ref. -/
  updateFails : κ → Bool

/-- Why nothing was located. -/
inductive Refusal (κ : Type)
  | git (said : String)
  | nowhere (searched : List String)
  | diverged (held : List (Copy κ × Holds)) (into differing : Copy κ)
  | notKept (path : String) (tip : κ)

/-- The passed-over refs of the branch in the publication checkout, by the commit each is
named for. -/
abbrev Kept (κ : Type) := κ → Option κ

section Questions

variable {κ τ : Type} [DecidableEq κ] [DecidableEq τ] (G : Commits κ τ)

/-- An answer, unless git refuses the question. -/
def View.ask {α : Type} (view : View κ) (question : Question κ) (answer : α) :
    Except (Refusal κ) α :=
  match view.refuses question with
  | some said => .error (.git said)
  | none => .ok answer

def isAncestor (view : View κ) (ancestor descendant : κ) : Except (Refusal κ) Bool :=
  view.ask (.isAncestor ancestor descendant) (decide (G.history.Reaches descendant ancestor))

def knownToReach (view : View κ) (ancestor descendant : κ) : Except (Refusal κ) Bool :=
  if view.has ancestor && view.has descendant then isAncestor G view ancestor descendant
  else .ok false

/-- `vcs::judged_against`, where it resolves. -/
def judgedAgainst (view : View κ) (own current : Option κ) : Option κ :=
  match current with
  | some sha => if view.has sha then some sha else own
  | none => own

/-- What git resolves the plain name of the branch to. -/
def Copy.named (copy : Copy κ) : κ := copy.checkout.shadow.getD copy.tip

/-- `git::trees_differ`, of the base a copy is judged against and the name of the branch. -/
def treesDiffer (search : Search κ) (copy : Copy κ) : Except (Refusal κ) Bool :=
  let view := copy.checkout.view none
  match judgedAgainst view copy.checkout.base search.current with
  | some base => view.ask (.differ base copy.named) (decide (G.tree base ≠ G.tree copy.named))
  | none => .error (.git "git diff failed")

def commitsWithParents (view : View κ) (tip : κ) (notIn : List κ) :
    Except (Refusal κ) (List (κ × List κ)) :=
  view.ask (.commits tip notIn)
    ((G.history.beyond notIn tip).map fun commit => (commit, G.history.parents commit))

/-- `in_base`: some view of the base reaches the commit. -/
def inBase (view : View κ) (merged : κ) : List κ → Except (Refusal κ) Bool
  | [] => .ok false
  | base :: rest => do
    if ← isAncestor G view merged base then return true else inBase view merged rest

/-- `merges_base`: a base commit is merged into the other side or into the chosen copy. -/
def mergesBase (view : View κ) (outside : List κ) (onto : κ) (bases : List κ)
    (merged side : κ) : Except (Refusal κ) Bool := do
  if ← inBase G view merged bases then
    if side ∈ outside then return true else isAncestor G view side onto
  else return false

/-- One of two parents is a base commit merged into the other. -/
def mergesEither (view : View κ) (outside : List κ) (onto : κ) (bases : List κ)
    (first second : κ) : Except (Refusal κ) Bool := do
  if ← mergesBase G view outside onto bases second first then return true
  else mergesBase G view outside onto bases first second

/-- The body of the loop of `only_clean_base_merges`. -/
def cleanBaseMerge (view : View κ) (outside : List κ) (onto : κ) (bases : List κ)
    (commit : κ) (parents : List κ) : Except (Refusal κ) Bool :=
  match parents with
  | [first, second] => do
    if ← mergesEither G view outside onto bases first second then
      let clean ← view.ask (.cleanMerge first second) (G.cleanMerge first second)
      let tree ← view.ask (.treeOf commit) (G.tree commit)
      return decide (clean = some tree)
    else return false
  | _ => .ok false

/-- The loop of `only_clean_base_merges`. -/
def allCleanBaseMerges (view : View κ) (outside : List κ) (onto : κ) (bases : List κ) :
    List (κ × List κ) → Except (Refusal κ) Bool
  | [] => .ok true
  | (commit, parents) :: rest => do
    if ← cleanBaseMerge G view outside onto bases commit parents then
      allCleanBaseMerges view outside onto bases rest
    else return false

/-- `only_clean_base_merges`. A view of the base that does not resolve is one git refuses
to list commits by. -/
def onlyCleanBaseMerges (view : View κ) (extra onto : κ) (bases : List (Option κ)) :
    Except (Refusal κ) Bool :=
  if view.has extra && view.has onto then
    match bases.mapM id with
    | none => .error (.git "git rev-list failed")
    | some bases => do
      let commits ← commitsWithParents G view extra (onto :: bases)
      if commits = [] then return false
      else allCleanBaseMerges G view (commits.map Prod.fst) onto bases commits
  else .ok false

end Questions

section Choosing

variable {κ τ : Type} [DecidableEq κ] [DecidableEq τ] (G : Commits κ τ) (search : Search κ)

/-- The copies of the branch, in the order they are searched. -/
def Search.copies : List (Copy κ) :=
  search.checkouts.filterMap fun checkout => checkout.tip.map fun tip => ⟨checkout, tip⟩

def readHeld : List (Copy κ) → Except (Refusal κ) (List (Held κ))
  | [] => .ok []
  | copy :: rest => do
    let holds := if ← treesDiffer G search copy then Holds.work else .whatTheBaseHas
    let held ← readHeld rest
    return ⟨copy, holds⟩ :: held

def carriesTheRest (copy : Copy κ) : List (Held κ) → Except (Refusal κ) Bool
  | [] => .ok true
  | other :: rest => do
    if ← knownToReach G (copy.checkout.view none) other.tip copy.tip then
      carriesTheRest copy rest
    else return false

/-- The first copy that carries every other. -/
def firstCarrying (held : List (Held κ)) : List (Held κ) → Except (Refusal κ) (Option (Held κ))
  | [] => .ok none
  | copy :: rest => do
    if ← carriesTheRest G copy.toCopy held then return some copy else firstCarrying held rest

/-- Origin's copy reaches a tip, as the publication checkout has it. -/
def hostedReaches (tip : κ) : Except (Refusal κ) Bool :=
  match search.hosted with
  | some hosted => knownToReach G (search.publication.view none) tip hosted
  | none => .ok false

/-- The views of the base a passed-over copy is judged by, in its own checkout with the
chosen copy's objects lent to it. -/
def Search.bases (copy other : Copy κ) : List (Option κ) :=
  [judgedAgainst (other.checkout.view (some copy.checkout.path)) other.checkout.base
      search.current,
    other.checkout.base]

def carriesTheRestButBaseMerges (copy : Copy κ) :
    List (Held κ) → Except (Refusal κ) (Option (List (Held κ)))
  | [] => .ok (some [])
  | other :: rest => do
    if ← knownToReach G (copy.checkout.view none) other.tip copy.tip then
      carriesTheRestButBaseMerges copy rest
    else if ← hostedReaches G search other.tip then return none
    else if ← onlyCleanBaseMerges G (other.checkout.view (some copy.checkout.path)) other.tip
        copy.tip (search.bases copy other.toCopy) then
      return (← carriesTheRestButBaseMerges copy rest).map fun spent => other :: spent
    else return none

/-- The first copy that carries every other but clean base merges, with those. -/
def firstCarryingButBaseMerges (held : List (Held κ)) :
    List (Held κ) → Except (Refusal κ) (Option (Held κ × List (Held κ)))
  | [] => .ok none
  | copy :: rest => do
    -- the objects directory the passed-over copies borrow from
    (copy.checkout.view none).ask .objectsDir ()
    match ← carriesTheRestButBaseMerges G search copy.toCopy held with
    | some spent => return some (copy, spent)
    | none => firstCarryingButBaseMerges held rest

def keepPassedOver (path : String) (tip : κ) (kept : Kept κ) :
    Except (Refusal κ) (Kept κ) :=
  if kept tip = some tip then .ok kept
  else
    match if path = search.publication.path then none else search.fetchFails path with
    | some said => .error (.git said)
    | none =>
      if search.updateFails tip then .error (.notKept path tip)
      else .ok (Function.update kept tip (some tip))

/-- Keeping every passed-over copy, with what is kept where one cannot be. -/
def keepAll : List (Held κ) → Kept κ → Except (Refusal κ) Unit × Kept κ
  | [], kept => (.ok (), kept)
  | other :: rest, kept =>
    match keepPassedOver search other.checkout.path other.tip kept with
    | .error refusal => (.error refusal, kept)
    | .ok kept => keepAll rest kept

/-- The refusal of copies none of which carries the rest. -/
def refuseDiverged (first second : Held κ) (held : List (Held κ)) :
    Except (Refusal κ) (Held κ × List (Held κ)) := do
  let differing := (held.find? fun copy => copy.tip ≠ first.tip).getD second
  (first.checkout.view none).ask (.shape first.tip) ()
  (differing.checkout.view none).ask (.shape differing.tip) ()
  throw (.diverged (held.map fun copy => (copy.toCopy, copy.holds)) first.toCopy differing.toCopy)

/-- The copy `locate` chooses, and the copies it passes over to be kept. -/
def choose : Except (Refusal κ) (Held κ × List (Held κ)) := do
  let held ← readHeld G search search.copies
  match held with
  | [] => throw (.nowhere (search.checkouts.map Checkout.path))
  | [only] => return (only, [])
  | first :: second :: _ =>
    if held.all fun copy => copy.holds = .whatTheBaseHas then return (first, [])
    else
      match ← firstCarrying G held held with
      | some copy => return (copy, [])
      | none =>
        match ← firstCarryingButBaseMerges G search held held with
        | some chosen => return chosen
        | none => refuseDiverged first second held

/-- `locate`: the copy it answers with, and what is kept after. -/
def locate (kept : Kept κ) : Except (Refusal κ) (Copy κ) × Kept κ :=
  match choose G search with
  | .error refusal => (.error refusal, kept)
  | .ok (chosen, spent) =>
    match keepAll search spent kept with
    | (.error refusal, kept) => (.error refusal, kept)
    | (.ok (), kept) => (.ok chosen.toCopy, kept)

end Choosing

section Opening

variable {κ τ : Type} [DecidableEq κ] [DecidableEq τ] (G : Commits κ τ) (search : Search κ)

/-- Where a pinned branch already is: in a checkout, at origin, or in both. -/
inductive Continued (κ : Type)
  | held (path : String) (tip : κ)
  | pushed (tip : κ)
  | both (path : String) (held pushed : κ)

def Continued.tips : Continued κ → List κ
  | .held _ tip | .pushed tip => [tip]
  | .both _ copy origin => [copy, origin]

/-- `bring_into`, of a checkout's copy: origin's is in the clone already. -/
def bringInto (fetchFails : String → Option String) (path : String) : Except (Refusal κ) Unit :=
  match fetchFails path with
  | some said => .error (.git said)
  | none => .ok ()

/-- `opened_at`: the commit a continued session opens at, in its clone. -/
def openedAt (clone : View κ) (fetchFails : String → Option String) (integrated : Option κ)
    (kept : Kept κ) : Continued κ → Except (Refusal κ) (κ × Kept κ)
  | .held path tip => do
    bringInto fetchFails path
    return (tip, kept)
  | .pushed tip => .ok (tip, kept)
  | .both path held pushed => do
    bringInto fetchFails path
    if ← isAncestor G clone pushed held then return (held, kept)
    else if ← isAncestor G clone held pushed then return (pushed, kept)
    else if ← onlyCleanBaseMerges G clone held pushed [integrated] then
      return (pushed, ← keepPassedOver search path held kept)
    else throw (.diverged [] ⟨⟨path, some held, none, integrated, fun _ => clone⟩, held⟩
      ⟨⟨"origin", some pushed, none, integrated, fun _ => clone⟩, pushed⟩)

end Opening

end Onevcs.Branches
