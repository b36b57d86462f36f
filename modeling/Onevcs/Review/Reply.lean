import Mathlib.Data.Fintype.Basic
import Mathlib.Logic.Function.Basic
import Onevcs.Review.Read

/-!
# Answering a comment once

`reply_to_comment`, `keyed_reply`, `thread_root`, `Addressed::of` and `ChangeUrl` of `review.rs`,
run by any number of processes of one host over one change request and one idempotency key.

A call names the change request by a session or by a URL, composes the reply, and takes a lock
whose name is spelled from the change request's URL; under it the call reads every comment and
posts the reply where none carries the key. The host tells change requests apart as GitHub does:
the letters of an owner and a name whatever their case, a number by its value.

A step is one call begun, one lock taken or given up on, one read or one post. Which route a reply
is posted through, and with that where it lands and the line it opens with, is left to the step.
What is carried along besides (`posted`, `answered`) are the replies that were posted and what the
calls that succeeded answered.
-/

namespace Onevcs.Review

open Foundations (System Text)
open Store (trim)

/-! ## Naming a change request -/

/-- What the `url` crate takes a URL apart into. -/
structure ParsedUrl where
  scheme : Text
  host : Option Text
  segments : Option (List Text)
  deriving DecidableEq

structure ChangeUrl where
  host : Text
  owner : Text
  name : Text
  number : Text
  deriving DecidableEq

inductive ReplyRefusal
  | emptyBody
  | emptyKey
  | unmarkableKey (key : Text)
  | notALabel (label : Text)
  | notAComment (comment : Text)
  -- neither a session token nor a change request's URL
  | notAChange (text : Text)
  -- a host other than github.com, or no hosted repository
  | notHosted (identity : Text)
  -- no open change request from the session's branch
  | noChange (token : Text)
  -- the boundary turned it down
  | screened
  | notANumber (number : Text)
  | timedOut (lock : Text)
  | noComment (changeUrl comment : Text)
  -- the host refused, or did not answer
  | host
  deriving DecidableEq

/-- `str::to_ascii_lowercase`. -/
def lowercase (text : Text) : Text := text.map Char.toLower

namespace ChangeUrl

/-- An owner or a name that the host can be asked about. -/
def addressable (part : Text) : Bool :=
  !part.isEmpty && part.head? != some '-' &&
    part.all fun c => c.isAlphanum || c == '-' || c == '_' || c == '.'

def parse (parseUrl : Text → Option ParsedUrl) (text : Text) : Except ReplyRefusal ChangeUrl :=
  match parseUrl (trim text) with
  | none => .error (.notAChange text)
  | some url =>
    if url.scheme ≠ "https".toList then .error (.notAChange text)
    else
      match url.host, url.segments with
      | some host, some (owner :: name :: pull :: number :: _) =>
        if pull ≠ "pull".toList then .error (.notAChange text)
        else if !addressable owner || !addressable name || number.isEmpty ||
            !number.all Char.isDigit then .error (.notAChange text)
        else .ok ⟨lowercase host, owner, name, number⟩
      | _, _ => .error (.notAChange text)

/-- The identity key of the repository it belongs to. -/
def identity (url : ChangeUrl) : Text := url.host ++ '/' :: url.owner ++ '/' :: url.name

def canonical (url : ChangeUrl) : Text :=
  "https://".toList ++ url.host ++ '/' :: url.owner ++ '/' :: url.name ++ "/pull/".toList ++
    url.number

end ChangeUrl

inductive ChangeRef
  | session (token : Text)
  | url (text : Text)
  deriving DecidableEq

/-- A session's open change request, as its host reports it: the repository it is asked about,
its id and its URL. -/
structure SessionRequest where
  repo : Text
  id : Text
  url : Text
  deriving DecidableEq

/-- `Addressed`: the repository the host is asked about, the change request's id, and the URL that
names the lock. -/
structure Addressed where
  repo : Text
  id : Text
  changeUrl : Text
  deriving DecidableEq

def changeHost (identity : Text) : Except ReplyRefusal Text :=
  match Store.slug (.ofList identity) with
  | some slug => .ok slug.toList
  | none => .error (.notHosted identity)

/-- `Addressed::of`, where `found` is the session's open change request. -/
def Addressed.of (parseUrl : Text → Option ParsedUrl) (found : Option SessionRequest) :
    ChangeRef → Except ReplyRefusal Addressed
  | .session token =>
    match found with
    | none => .error (.noChange token)
    | some request => .ok ⟨request.repo, request.id, request.url⟩
  | .url text =>
    (ChangeUrl.parse parseUrl text).bind fun url =>
      (changeHost url.identity).map fun slug => ⟨slug, url.number, url.canonical⟩

/-- A change request, as GitHub tells them apart. -/
structure Target where
  owner : Text
  name : Text
  number : ℕ
  deriving DecidableEq

def number (digits : Text) : ℕ :=
  digits.foldl (fun sum digit => sum * 10 + (digit.toNat - '0'.toNat)) 0

/-- `digits`: a number that fits a `u64`. -/
def digits (text : Text) : Option ℕ :=
  if !text.isEmpty && text.all Char.isDigit && decide (number text < 2 ^ 64) then
    some (number text)
  else none

/-- The change request the host is asked about. -/
def Addressed.target (addressed : Addressed) : Option Target :=
  match Store.splitOnce '/' addressed.repo, digits addressed.id with
  | some (owner, name), some number => some ⟨lowercase owner, lowercase name, number⟩
  | _, _ => none

/-! ## One call -/

/-- `ReplyRequest`, without what the boundary check of it is made for. -/
structure ReplyRequest where
  change : ChangeRef
  comment : Text
  body : Text
  key : Text
  label : Option Text
  verifiedAbsent : Bool
  deriving DecidableEq

structure PostedReply where
  id : Text
  url : Text
  threaded : Bool
  existing : Bool
  deriving DecidableEq

/-- A call that is addressed and composed. -/
structure Call where
  addressed : Addressed
  comment : Text
  -- what the caller said, sanitised where it had to be
  text : Text
  marker : ReplyMarker
  verifiedAbsent : Bool
  deriving DecidableEq

def Call.body (call : Call) : Text := compose call.text call.marker

def checkedKey (key : Text) : Except ReplyRefusal Text :=
  if key.isEmpty then .error .emptyKey
  else if !isMarkable key then .error (.unmarkableKey key)
  else .ok key

def checkedComment (comment : Text) : Except ReplyRefusal Text :=
  if !isMarkable comment then .error (.notAComment comment) else .ok comment

/-- `checked_label`, of a label where there is one. -/
def checkedLabel : Option Text → Except ReplyRefusal (Option Text)
  | none => .ok none
  | some label => if !isToken label then .error (.notALabel label) else .ok (some label)

/-- `reply_to_comment`, to the lock. The boundary's answer is the text to say, or a refusal. -/
def ReplyRequest.call (parseUrl : Text → Option ParsedUrl) (found : Option SessionRequest)
    (screened : Option Text) (request : ReplyRequest) : Except ReplyRefusal Call :=
  if (trim request.body).isEmpty then .error .emptyBody
  else
    (checkedKey request.key).bind fun key =>
      (checkedComment request.comment).bind fun comment =>
        (checkedLabel request.label).bind fun label =>
          (Addressed.of parseUrl found request.change).bind fun addressed =>
            match screened with
            | none => .error .screened
            | some text =>
              .ok ⟨addressed, comment, text, ⟨comment, key, label⟩, request.verifiedAbsent⟩

/-- The comment is a reply that carries the key. -/
def carries (key : Text) (comment : ReviewComment) : Bool :=
  comment.replyMarker.any fun marker => marker.key = key

/-- The comment is in a review thread. -/
def isThreaded : CommentKind → Bool
  | .reviewThread _ _ _ _ _ => true
  | _ => false

def keyedReply (comments : List ReviewComment) (key : Text) : Option PostedReply :=
  (comments.find? (carries key)).map fun found =>
    ⟨found.id, found.url, isThreaded found.kind, true⟩

def opensThread (thread : Text) (comment : ReviewComment) : Bool :=
  comment.inReplyTo.isNone &&
    match comment.kind with
    | .reviewThread other _ _ _ _ => other = thread
    | _ => false

def threadRoot (read : ReviewRead) (comment : Text) : Except ReplyRefusal Text :=
  match read.comments.find? fun candidate => candidate.id = comment with
  | none => .error (.noComment read.changeUrl comment)
  | some asked =>
    match asked.kind with
    | .reviewThread thread _ _ _ _ =>
      .ok (((read.comments.find? (opensThread thread)).map ReviewComment.id).getD comment)
    | _ => .ok comment

def Place.isThread : Place → Bool
  | .thread _ => true
  | _ => false

def Place.isReview : Place → Bool
  | .review _ => true
  | _ => false

/-! ## Any number of calls -/

/-- Where a process stands. -/
inductive ReplyPhase
  | idle
  | waiting (call : Call)
  | locked (call : Call)
  -- no reply carries the key; the comment it is posted against
  | posting (call : Call) (comment : Text)
  deriving DecidableEq

/-- One change request on the host, the locks by their names, and the processes. -/
structure Replies (π : Type) where
  pages : Pages
  lock : Text → Option π
  process : π → ReplyPhase
  posted : List Text
  answered : List PostedReply

/-- What a process does next. -/
inductive ReplyAct
  | call (request : ReplyRequest) (found : Option SessionRequest) (screened : Option Text)
  | take
  | timeOut
  | read (answers : Bool)
  -- the request lands or not, and the host's answer arrives or not
  | post (landed answers : Bool) (place : Place) (opening : Text) (raw : Raw)
  deriving DecidableEq

/-- A step of the calls. -/
inductive ReplyLabel (π : Type)
  | act (p : π) (act : ReplyAct)
  -- the process ends, and its lock with it
  | stop (p : π)
  -- somebody else says something
  | said (place : Place) (raw : Raw)
  deriving DecidableEq

/-- The name of the lock that a call takes. -/
def Call.lockName (call : Call) : Text :=
  "review-reply:".toList ++ call.addressed.changeUrl ++ ':' :: call.marker.key

/-- A call that is between its read and its post took the lock of this name. -/
def ReplyPhase.postsUnder (name : Text) : ReplyPhase → Bool
  | .posting call _ => call.lockName = name
  | _ => true

namespace Replies

variable {π : Type} [DecidableEq π]

/-- The process stands elsewhere. -/
def goto (s : Replies π) (p : π) (phase : ReplyPhase) : Replies π :=
  { s with process := Function.update s.process p phase }

/-- The call is through, and lets go of its lock. -/
def leave (s : Replies π) (p : π) (call : Call) : Replies π :=
  { s with lock := Function.update s.lock call.lockName none }.goto p .idle

variable (coding : Coding) (parseUrl : Text → Option ParsedUrl) (target : Target) (key : Text)

def actStep (s : Replies π) (p : π) : ReplyAct → Option (Replies π)
  | .call request found screened =>
    match s.process p with
    | .idle =>
      if request.key ≠ key then none
      else
        match request.call parseUrl found screened with
        | .error _ => some s
        | .ok call =>
          -- a call that names another change request, or none, is not one of these
          if call.addressed.target = some target then some (s.goto p (.waiting call))
          else none
    | _ => none
  | .take =>
    match s.process p with
    | .waiting call =>
      if s.lock call.lockName = none then
        some ({ s with lock := Function.update s.lock call.lockName (some p) }.goto p
          (.locked call))
      else none
    | _ => none
  | .timeOut =>
    match s.process p with
    | .waiting _ => some (s.goto p .idle)
    | _ => none
  | .read answers =>
    match s.process p with
    | .locked call =>
      if call.verifiedAbsent then some (s.goto p (.posting call call.comment))
      else if !answers then some (s.leave p call)
      else
        match answer coding s.pages none [] with
        | .error _ => some (s.leave p call)
        | .ok read =>
          match keyedReply read.comments call.marker.key with
          | some existing =>
            some { s.leave p call with answered := existing :: s.answered }
          | none =>
            match threadRoot read call.comment with
            | .error _ => some (s.leave p call)
            | .ok comment => some (s.goto p (.posting call comment))
    | _ => none
  | .post landed answers place opening raw =>
    match s.process p with
    | .posting call _ =>
      if !landed then some (s.leave p call)
      -- a reply joins a thread or the conversation
      else if raw.id ∈ s.pages.raws.map Raw.id ∨ !s.pages.has place ∨ place.isReview then none
      else
        let raw := { raw with body := opening ++ call.body }
        let reply : PostedReply :=
          ⟨raw.id, raw.url, place.isThread, false⟩
        some { s.leave p call with
          pages := s.pages.add raw place
          posted := raw.id :: s.posted
          answered := if answers then reply :: s.answered else s.answered }
    | _ => none

/-- The lock that a process holds is let go. -/
def release (s : Replies π) (p : π) : Replies π :=
  match s.process p with
  | .locked call | .posting call _ => s.leave p call
  | _ => s.goto p .idle

def step (s : Replies π) : ReplyLabel π → Option (Replies π)
  | .act p act => s.actStep coding parseUrl target key p act
  | .stop p => some (s.release p)
  | .said place raw =>
    if raw.id ∈ s.pages.raws.map Raw.id ∨ !s.pages.has place then none
    -- nobody else writes this key
    else if (parseMarker raw.body).any fun marker => marker.key = key then none
    else some { s with pages := s.pages.add raw place }

/-- No call asks for the read to be skipped, and no call reads the replies while one that took a
lock of another name is between its read and its post. -/
def Apart (s : Replies π) : ReplyLabel π → Prop
  | .act _ (.call request _ _) => request.verifiedAbsent = false
  | .act p (.read _) =>
    match s.process p with
    | .locked call => ∀ q, (s.process q).postsUnder call.lockName = true
    | _ => True
  | _ => True

instance [Fintype π] (s : Replies π) : DecidablePred s.Apart
  | .act _ (.call request _ _) => inferInstanceAs (Decidable (request.verifiedAbsent = false))
  | .act p (.read _) =>
    match h : s.process p with
    | .locked call =>
      decidable_of_iff (∀ q, (s.process q).postsUnder call.lockName = true) (by simp [Apart, h])
    | .idle => isTrue (by simp [Apart, h])
    | .waiting _ => isTrue (by simp [Apart, h])
    | .posting _ _ => isTrue (by simp [Apart, h])
  | .act _ .take => isTrue trivial
  | .act _ .timeOut => isTrue trivial
  | .act _ (.post _ _ _ _ _) => isTrue trivial
  | .stop _ => isTrue trivial
  | .said _ _ => isTrue trivial

/-- At most one reply was posted, at most one call answered that it posted it, and every call that
succeeded answered that reply. -/
structure Once (s : Replies π) : Prop where
  posted : s.posted.length ≤ 1
  fresh : (s.answered.filter fun reply => !reply.existing).length ≤ s.posted.length
  same : ∀ reply ∈ s.answered, ∀ id ∈ s.posted, reply.id = id

instance (s : Replies π) : Decidable s.Once :=
  decidable_of_iff (s.posted.length ≤ 1 ∧
      (s.answered.filter fun reply => !reply.existing).length ≤ s.posted.length ∧
        ∀ reply ∈ s.answered, ∀ id ∈ s.posted, reply.id = id)
    ⟨fun h => ⟨h.1, h.2.1, h.2.2⟩, fun h => ⟨h.posted, h.fresh, h.same⟩⟩

/-- No call is under way, and whatever the change request carries. -/
structure Initial (s : Replies π) : Prop where
  url : s.pages.url.isSome = true
  threads : (s.pages.threads.map Thread.id).Nodup
  lock : ∀ name, s.lock name = none
  process : ∀ p, s.process p = .idle
  posted : s.posted = []
  answered : s.answered = []

end Replies

/-- The calls with one key on one change request. -/
def replies (π : Type) [DecidableEq π] (coding : Coding)
    (parseUrl : Text → Option ParsedUrl) (target : Target) (key : Text) :
    System (Replies π) (ReplyLabel π) where
  Initial := Replies.Initial
  step := Replies.step coding parseUrl target key

end Onevcs.Review
