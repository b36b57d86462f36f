import Onevcs.Foundations.History
import Onevcs.Foundations.Outcome
import Onevcs.Foundations.Refs

/-!
# The merge train

`integrate.rs`'s `train`: each candidate branch merges origin's base and the local base in a
worktree of its own, and its tree becomes one commit that the base fast-forwards to. The refs
are the checkout's, and commits are those of one history that may hold any; what git, the
provenance of the commits and the boundary answer is a parameter. What the train narrates to
its stream is left out, and so is what it leaves where it returns an error.

Every name is given to git as the code gives it: short, so that git resolves it.
-/

namespace Onevcs.Integrate

open Foundations

variable {κ τ : Type}

/-- Why a candidate was left where it was. -/
inductive Reason
  | unrecognizedPrefix (trailerPrefix : Text)
  | incompleteProvenance (unattested : Nat)
  | conflictWithBase (paths : List Text)
  | conflictWithEarlier (paths : List Text)
  | notReady
  | noSubject (reason : Text)
  deriving DecidableEq

/-- `Status`: what happened to one candidate. -/
inductive Status
  | merged
  | alreadyMerged
  | skipped (reason : Reason)
  deriving DecidableEq

structure BranchOutcome where
  branch : Text
  status : Status

/-- `Ending`: where the train left the base. -/
inductive Ending
  | unchanged
  | advanced
  | advancedAndPushed

structure Outcome where
  base : Text
  branches : List BranchOutcome
  ending : Ending

/-- Why a train returned no outcome. -/
inductive Refused
  | git (said : Text)
  | noOrigin
  | boundary (said : Text)
  | rejected

/-- `git::Integrated`: what a merge into a branch came to. -/
inductive Integrated (κ : Type)
  | settled (tip : κ)
  | conflicted (paths : List Text)

/-- What git, the commits' provenance and the boundary answer. A commit that git is given by
name is given here as what the name means. -/
structure Git (κ : Type) where
  hasRemote : Bool
  fetch : Refs κ → Except Text (Refs κ)
  /-- The trailer prefixes of the commits past a base that this host does not read. -/
  unrecognized : κ → κ → Except Text (List Text)
  /-- How many incomplete steps past a base nothing attests. -/
  unattested : κ → κ → Except Text Nat
  worktreeAddExisting : Text → Except Text Unit
  worktreeAddDetached : κ → Except Text Unit
  worktreeRemove : Except Text Unit
  /-- A merge of a commit into a branch at its head, under a message. -/
  mergeIntoBranch : κ → κ → Text → Except Text (Integrated κ)
  isAncestor : κ → κ → Except Text Bool
  publicationSubject : κ → κ → Except Text (Except Text Text)
  attestationTrailers : κ → κ → Except Text (List Text)
  logMessages : κ → κ → Except Text (List Text)
  /-- The lines of the messages that close an issue. -/
  references : List Text → List Text
  /-- The commit a squash made, or that it added no content. -/
  mergeSquash : κ → κ → Text → Except Text (Option κ)
  mergeFfOnly : κ → κ → Except Text κ
  guardPublication : Refs κ → Except Text Unit
  /-- The refs after a push, where it was accepted. -/
  push : Refs κ → Except Text (Option (Refs κ))

/-! ## A candidate -/

/-- What git says of a name that means nothing. -/
def unknownRevision (name : Text) : Text := "unknown revision ".toList ++ name

/-- What a name means, or git's error. -/
def named (refs : Refs κ) (name : Text) : Except Text κ :=
  (resolve refs name).elim (.error (unknownRevision name)) .ok

/-- `head_sha`, where a branch is checked out. -/
def headSha (refs : Refs κ) (branch : Text) : Except Text κ :=
  (refs (headRef branch)).elim (.error (unknownRevision branch)) .ok

def moveBranch (refs : Refs κ) (branch : Text) (tip : κ) : Refs κ :=
  Function.update refs (headRef branch) (some tip)

def originName (branch : Text) : Text := "origin/".toList ++ branch

/-- `base_ref`: the name of origin's base, or of the local one where there is none. -/
def baseRef (refs : Refs κ) (base : Text) : Text :=
  if (refs (remoteRef (originName base))).isSome then originName base else base

def joined (lines : List Text) : Text := ['\n'].intercalate lines

def composeMessage (subject : Text) (trailers : List Text) : Text :=
  if trailers.isEmpty then subject else subject ++ ['\n', '\n'] ++ joined trailers

def composeSquash (subject : Text) (closing trailers : List Text) : Text :=
  if closing.isEmpty then composeMessage subject trailers
  else composeMessage (subject ++ ['\n', '\n'] ++ joined closing) trailers

/-- The squash inside its scratch worktree, and the base fast-forwarded to it. -/
def squashOnto (git : Git κ) (base branch message : Text) (scratch : κ) (refs : Refs κ) :
    Except Text (Bool × Refs κ) := do
  let tip ← named refs branch
  match ← git.mergeSquash scratch tip message with
  | none => pure (false, refs)
  | some sha =>
    let head ← headSha refs base
    let advanced ← git.mergeFfOnly head sha
    pure (true, moveBranch refs base advanced)

/-- `squash_publish`: whether the candidate landed as a commit. -/
def squashPublish (git : Git κ) (base branch message : Text) (refs : Refs κ) :
    Except Text (Bool × Refs κ) := do
  let scratch ← named refs base
  git.worktreeAddDetached scratch
  let landed := squashOnto git base branch message scratch refs
  git.worktreeRemove
  landed

/-- A candidate that merged both bases, at `built`. -/
def land (git : Git κ) (base branch : Text) (built : κ) (refs : Refs κ) :
    Except Text (Status × Refs κ) := do
  let head ← headSha refs base
  let tip ← named refs branch
  if !(← git.isAncestor head tip) then pure (.skipped .notReady, refs)
  else
    let onto ← named refs base
    match ← git.publicationSubject onto built with
    | .error reason => pure (.skipped (.noSubject reason), refs)
    | .ok subject =>
      let attested ← git.attestationTrailers onto built
      let messages ← git.logMessages onto built
      let message := composeSquash subject (git.references messages) attested
      let (landed, refs) ← squashPublish git base branch message refs
      pure (if landed then .merged else .alreadyMerged, refs)

/-- `Merge {reference} into {branch}`. -/
def syncMessage (remoteBase branch : Text) : Text :=
  "Merge ".toList ++ remoteBase ++ " into ".toList ++ branch

/-- `Merge integration train {base} into {branch}`. -/
def trainMessage (base branch : Text) : Text :=
  "Merge integration train ".toList ++ base ++ " into ".toList ++ branch

/-- A candidate that merged origin's base, at `synced`. -/
def mergeBase (git : Git κ) (base branch : Text) (synced : κ) (refs : Refs κ) :
    Except Text (Status × Refs κ) := do
  let onto ← named refs base
  match ← git.mergeIntoBranch synced onto (trainMessage base branch) with
  | .conflicted paths => pure (.skipped (.conflictWithEarlier paths), refs)
  | .settled built => land git base branch built (moveBranch refs branch built)

def inWorktree (git : Git κ) (base remoteBase branch : Text) (refs : Refs κ) :
    Except Text (Status × Refs κ) := do
  let head ← headSha refs branch
  let reference ← named refs remoteBase
  match ← git.mergeIntoBranch head reference (syncMessage remoteBase branch) with
  | .conflicted paths => pure (.skipped (.conflictWithBase paths), refs)
  | .settled synced => mergeBase git base branch synced (moveBranch refs branch synced)

/-- `git worktree add`: a branch that is checked out is refused, and the base is. -/
def addWorktree (git : Git κ) (base branch : Text) : Except Text Unit :=
  if branch = base then .error "already checked out".toList else git.worktreeAddExisting branch

/-- `one`: a candidate of the train. -/
def one (git : Git κ) (base remoteBase branch : Text) (refs : Refs κ) :
    Except Text (Status × Refs κ) := do
  let onto ← named refs base
  let tip ← named refs branch
  match ← git.unrecognized onto tip with
  | trailerPrefix :: _ => pure (.skipped (.unrecognizedPrefix trailerPrefix), refs)
  | [] =>
    let unattested ← git.unattested onto tip
    if unattested ≠ 0 then pure (.skipped (.incompleteProvenance unattested), refs)
    else
      addWorktree git base branch
      let outcome := inWorktree git base remoteBase branch refs
      git.worktreeRemove
      outcome

def offer (git : Git κ) (base remoteBase : Text) :
    List Text → Refs κ → Except Text (List BranchOutcome × Refs κ)
  | [], refs => .ok ([], refs)
  | branch :: rest, refs => do
    let (status, refs) ← one git base remoteBase branch refs
    let (outcomes, refs) ← offer git base remoteBase rest refs
    pure (⟨branch, status⟩ :: outcomes, refs)

/-- The refs the train starts from, after its fetch. -/
def fetchOrigin (git : Git κ) (refs : Refs κ) : Except Text (Refs κ) :=
  if git.hasRemote then git.fetch refs else .ok refs

/-- An error of git refuses the train. -/
def calling {α : Type} : Except Text α → Except Refused α
  | .ok value => .ok value
  | .error said => .error (.git said)

/-- The push of the base the train advanced. -/
def publish (git : Git κ) (refs : Refs κ) : Except Refused (Refs κ) :=
  if !git.hasRemote then .error .noOrigin
  else
    match git.guardPublication refs with
    | .error said => .error (.boundary said)
    | .ok _ => do
      match ← calling (git.push refs) with
      | none => .error .rejected
      | some pushed => .ok pushed

/-- `train`: the outcome, and the checkout's refs after it. -/
def train [DecidableEq κ] (git : Git κ) (base : Text) (candidates : List Text) (push : Bool)
    (refs : Refs κ) : Except Refused (Outcome × Refs κ) := do
  let refs ← calling (fetchOrigin git refs)
  let initial ← calling (headSha refs base)
  let (branches, refs) ← calling (offer git base (baseRef refs base) candidates refs)
  let final ← calling (headSha refs base)
  if final = initial then pure (⟨base, branches, .unchanged⟩, refs)
  else if push then
    let refs ← publish git refs
    pure (⟨base, branches, .advancedAndPushed⟩, refs)
  else pure (⟨base, branches, .advanced⟩, refs)

/-- What a merge of a commit into a branch leaves the branch at: where it was, where it has the
commit already; at the commit, where that has the branch; or at a commit of both. -/
def Merged (H : History κ) (head reference tip : κ) : Prop :=
  (tip = head ∧ H.Reaches head reference) ∨ (tip = reference ∧ H.Reaches reference head) ∨
    H.parents tip = [head, reference]

/-- What the train relies on of git. -/
structure Lawful (H : History κ) (tree : κ → τ) (git : Git κ) : Prop where
  merged : ∀ {head reference message tip},
    git.mergeIntoBranch head reference message = .ok (.settled tip) →
      Merged H head reference tip
  /-- A squash of a branch that has the base is one commit on it, with the branch's tree. -/
  squashed : ∀ {onto branch message sha}, H.Reaches branch onto →
    git.mergeSquash onto branch message = .ok (some sha) →
      H.parents sha = [onto] ∧ tree sha = tree branch
  forwarded : ∀ {head sha tip}, git.mergeFfOnly head sha = .ok tip →
    (tip = sha ∧ H.Reaches sha head) ∨ (tip = head ∧ H.Reaches head sha)
  /-- A push moves no branch of the checkout. -/
  pushed : ∀ {refs after}, git.push refs = .ok (some after) →
    ∀ name, after (headRef name) = refs (headRef name)

/-- A candidate that landed: where it was, where its merges left it, and its commit. -/
structure Landing (κ : Type) where
  branch : Text
  tip : κ
  synced : κ
  base : κ
  built : κ
  commit : κ

/-- The commit is one on the base as it then was, with the tree of the candidate after its two
merges. -/
structure Landing.Exact (H : History κ) (tree : κ → τ) (origin : Option κ) (l : Landing κ) :
    Prop where
  synced : Merged H l.tip (origin.getD l.base) l.synced
  built : Merged H l.synced l.base l.built
  parents : H.parents l.commit = [l.base]
  tree : tree l.commit = tree l.built

/-- What a train that returned did, from the refs after its fetch: the base's line is the
initial line and one commit for each candidate that merged, in order. -/
structure Appends (H : History κ) (tree : κ → τ) (base : Text) (candidates : List Text)
    (fetched : Refs κ) (outcome : Outcome) (final : Refs κ) (landings : List (Landing κ)) :
    Prop where
  line : ∃ initial last, fetched (headRef base) = some initial ∧
    final (headRef base) = some last ∧
    H.line last = (landings.map (·.commit)).reverse ++ H.line initial
  branches : landings.map (·.branch) =
    (outcome.branches.filter (·.status = .merged)).map (·.branch)
  exact : ∀ l ∈ landings, l.Exact H tree (fetched (remoteRef (originName base)))
  /-- A candidate offered once is merged from where it was. -/
  tips : candidates.Nodup → ∀ l ∈ landings, fetched (headRef l.branch) = some l.tip
  /-- What an earlier candidate landed is in what a later one landed. -/
  carried : landings.Pairwise fun earlier later => H.Reaches later.built earlier.commit
  offered : outcome.branches.map (·.branch) = candidates
  ending : outcome.ending = .unchanged ↔ ∀ b ∈ outcome.branches, b.status ≠ .merged

/-- No other ref answers to a name the train gives git. -/
structure PlainNames (fetched : Refs κ) (base : Text) (candidates : List Text) : Prop where
  ofBase : Plain fetched base
  ofOrigin : fetched (remoteRef (originName base)) ≠ none → PlainRemote fetched (originName base)
  ofCandidates : ∀ branch ∈ candidates, Plain fetched branch

end Onevcs.Integrate
