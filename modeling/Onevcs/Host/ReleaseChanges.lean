import Mathlib.Algebra.Group.Nat.Defs
import Mathlib.Data.Finset.Basic
import Mathlib.Data.Finset.Dedup
import Onevcs.Foundations.Lines
import Onevcs.Foundations.Outcome

/-!
# The changes a release carries

`release_changes`, `previous_release`, `Version::of` and `Reader::walk` of `host_query.rs`, over
a host that answers a listing page by page.

A page is here as it reads: an entry of it, or a field of an entry that is read on its own, is
what it reads as or why it does not. Where a page is asked for comes with the page, as its `Link`
names it. The spelling of a request and the token it is made under are left out.
-/

namespace Onevcs.Host

open Foundations (Text)

/-- Why a query is not answered. -/
inductive HostQueryError
  -- a request that is refused, or an answer that does not read
  | refused (reason : Text)
  -- `{tag:?} is not of the form <prefix>MAJOR.MINOR.PATCH, ...`
  | notVersion (tag : Text)
  -- `no published release before {tag} of its form was found in {listing}; ...`
  | noneBefore (tag : Text)
  -- `the release tag {tag} was not found in {listing}`
  | tagNotFound (tag : Text)
  -- `the comparison {previous}...{tag} was never read`
  | neverRead (previous tag : Text)
  -- `the comparison {previous}...{tag} lists no commit, so {tag} names no commit after {previous}`
  | noCommit (previous tag : Text)

/-- What a query answers with, or why it could not. -/
abbrev HostQueryResult := Except HostQueryError

/-- `Timestamp`: as written, beside the instant it names. -/
structure Timestamp where
  written : Text
  instant : ℤ
  deriving DecidableEq

/-- `Change`: a pull request. -/
structure Change where
  number : ℕ
  title : Text
  state : Text
  baseRef : Text
  headSha : Text
  createdAt : Timestamp
  mergedAt : Option Timestamp
  mergeCommitSha : Option Text
  deriving DecidableEq

/-- `ReleaseCommit`: one commit of a release's range. -/
structure ReleaseCommit where
  sha : Text
  change : Option ℕ

structure QueryCost where
  graphqlPoints : ℕ
  restRequests : ℕ
  requests : List Text

/-- `ReleaseChanges`: what `onevcs host release-changes` answers. -/
structure ReleaseChanges where
  schemaVersion : ℕ
  repository : Text
  tag : Text
  commit : Text
  previousTag : Text
  previousCommit : Text
  commits : List ReleaseCommit
  changes : List Change
  cost : QueryCost

structure ReleaseChangesRequest where
  repository : Text
  tag : Text
  previousTag : Option Text

/-- One page of a listing: where it is asked for, and what is read of it. -/
structure Page (α : Type) where
  path : Text
  body : HostQueryResult α

/-- Whether a listing's reader wants the next page. -/
inductive Paging
  | more
  | done

/-- `Reader::walk`: hand each page to `visit` in turn, until there is none or `visit` has what
it needs. The requests made are counted. -/
def walk {σ α : Type} (visit : σ → α → HostQueryResult (σ × Paging)) (requests : List Text)
    (state : σ) : List (Page α) → HostQueryResult (σ × List Text)
  | [] => .ok (state, requests)
  | page :: rest => do
    let body ← page.body
    let (state, paging) ← visit state body
    match paging with
    | .more => walk visit (requests ++ [page.path]) state rest
    | .done => .ok (state, requests ++ [page.path])

/-! ## The previous release -/

/-- One number of a version: ASCII digits that fit a `u64`. -/
def versionPart (part : Text) : Option ℕ :=
  if part ≠ [] ∧ part.all Char.isDigit then
    let number := part.foldl (fun number digit => 10 * number + (digit.toNat - '0'.toNat)) 0
    if number < 2 ^ 64 then some number else none
  else none

/-- `MAJOR.MINOR.PATCH`, and nothing else. -/
def versionNumbers (rest : Text) : Option (ℕ × ℕ × ℕ) :=
  match rest.splitOn '.' with
  | [major, minor, patch] => do
    let major ← versionPart major
    let minor ← versionPart minor
    let patch ← versionPart patch
    some (major, minor, patch)
  | _ => none

/-- `Version`: a tag's `<prefix>MAJOR.MINOR.PATCH`. -/
structure Version where
  before : Text
  number : ℕ × ℕ × ℕ

namespace Version

/-- `Version::of`: at the first character a version starts at. -/
def of (tag : Text) : Option Version :=
  (List.range tag.length).findSome? fun start =>
    (versionNumbers (tag.drop start)).map fun number => ⟨tag.take start, number⟩

/-- `<` of two numbers, part by part. -/
def lower (a b : ℕ × ℕ × ℕ) : Bool :=
  a.1 < b.1 || (a.1 == b.1 && (a.2.1 < b.2.1 || (a.2.1 == b.2.1 && a.2.2 < b.2.2)))

end Version

/-- A release, as a page of the listing reports it. -/
structure Release where
  tagName : HostQueryResult Text
  draft : HostQueryResult Bool
  publishedAt : HostQueryResult (Option Timestamp)

/-- The releases of one page: whether `tag` has been found, and the release it follows. -/
def visitReleases (tag : Text) (version : Version) (found : Bool) :
    List Release → HostQueryResult ((Bool × Option Text) × Paging)
  | [] => .ok ((found, none), .more)
  | release :: rest => do
    let name ← release.tagName
    if !found then visitReleases tag version (name == tag) rest
    else
      let draft ← release.draft
      let published ← release.publishedAt
      let lower := (Version.of name).any fun other =>
        other.before == version.before && Version.lower other.number version.number
      if published.isSome && !draft && lower then .ok ((found, some name), .done)
      else visitReleases tag version found rest

/-- `previous_release`: the first release after `tag` in the listing's own order that is
published, not a draft, and of the same form with a lower version. -/
def previousRelease (tag : Text) (releases : List (Page (List Release))) :
    HostQueryResult (Text × List Text) :=
  match Version.of tag with
  | none => .error (.notVersion tag)
  | some version => do
    let ((found, previous), requests) ←
      walk (fun state => visitReleases tag version state.1) [] (false, none) releases
    match previous with
    | some previous => .ok (previous, requests)
    | none => .error (if found then .noneBefore tag else .tagNotFound tag)

def previousTag (request : ReleaseChangesRequest) (releases : List (Page (List Release))) :
    HostQueryResult (Text × List Text) :=
  match request.previousTag with
  | some tag => .ok (tag, [])
  | none => previousRelease request.tag releases

/-- A page of the comparison: the base commit with its committer's date, and the commits. -/
structure Comparison where
  base : HostQueryResult (Text × Timestamp)
  commits : HostQueryResult (List Text)

/-- A page of the comparison is kept, the base commit where none has been. -/
def visitComparison (state : Option (Text × Timestamp) × List Text) (page : Comparison) :
    HostQueryResult ((Option (Text × Timestamp) × List Text) × Paging) := do
  let previous ←
    match state.1 with
    | some previous => .ok previous
    | none => page.base
  let commits ← page.commits
  .ok ((some previous, state.2 ++ commits), .more)

/-- A closed pull request, as a page of the listing reports it. -/
structure Pull where
  change : HostQueryResult Change
  updatedAt : HostQueryResult Timestamp

/-- The commits no pull request is known for yet, and those one is. -/
structure Mapping where
  wanted : Finset Text
  merged : List (Text × Change)

def takePull (state : Mapping) (pull : Pull) : HostQueryResult Mapping := do
  let change ← pull.change
  match change.mergeCommitSha with
  | none => .ok state
  | some commit =>
    if change.mergedAt.isSome && decide (commit ∈ state.wanted) then
      .ok ⟨state.wanted.erase commit, (commit, change) :: state.merged⟩
    else .ok state

/-- The pull requests of a page, each in turn. -/
def takePulls (state : Mapping) : List Pull → HostQueryResult Mapping
  | [] => .ok state
  | pull :: rest => do
    let state ← takePull state pull
    takePulls state rest

/-- The listing has passed the previous tag's commit. -/
def passed (previousTime : Timestamp) (pulls : List Pull) : HostQueryResult Bool :=
  match pulls.getLast? with
  | some last => do
    let updatedAt ← last.updatedAt
    .ok (decide (updatedAt.instant < previousTime.instant))
  | none => .ok true

/-- A page of the closed pull requests is kept, most recently updated first, until every commit
is mapped or the listing has passed the previous tag's commit. -/
def visitPulls (previousTime : Timestamp) (state : Mapping) (pulls : List Pull) :
    HostQueryResult (Mapping × Paging) := do
  let state ← takePulls state pulls
  let passed ← passed previousTime pulls
  .ok (state, if decide (state.wanted = ∅) || passed then .done else .more)

/-- Each commit with its change, and the changes, each once. -/
def mapCommits (merged : List (Text × Change)) (changes : List Change) :
    List Text → List ReleaseCommit × List Change
  | [] => ([], changes)
  | sha :: rest =>
    let found := merged.lookup sha
    let changes :=
      match found with
      | some found =>
        if changes.any fun change => change.number == found.number then changes
        else changes ++ [found]
      | none => changes
    let (commits, changes) := mapCommits merged changes rest
    (⟨sha, found.map Change.number⟩ :: commits, changes)

/-- What a host answers the three reads with. -/
structure Answers where
  releases : List (Page (List Release))
  compare : Text → Text → List (Page Comparison)
  pulls : List (Page (List Pull))

/-- `release_changes`: the merged pull requests a release tag carries. -/
def releaseChanges (request : ReleaseChangesRequest) (host : Answers) :
    HostQueryResult ReleaseChanges := do
  let (previousTag, requests) ← previousTag request host.releases
  let ((previous, shas), requests) ←
    walk visitComparison requests (none, []) (host.compare previousTag request.tag)
  match previous with
  | none => .error (.neverRead previousTag request.tag)
  | some (previousCommit, previousTime) =>
    match shas.getLast? with
    | none => .error (.noCommit previousTag request.tag)
    | some commit => do
      let (mapping, requests) ←
        walk (visitPulls previousTime) requests ⟨shas.toFinset, []⟩ host.pulls
      let (commits, changes) := mapCommits mapping.merged [] shas
      .ok
        { schemaVersion := 1
          repository := request.repository
          tag := request.tag
          commit
          previousTag
          previousCommit
          commits
          changes
          cost := ⟨0, min requests.length (2 ^ 32 - 1), requests⟩ }

end Onevcs.Host
