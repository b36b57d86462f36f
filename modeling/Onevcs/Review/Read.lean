import Onevcs.Foundations.Transition
import Onevcs.Review.Base64
import Onevcs.Review.Comments

/-!
# Reading what changed since a marker

`answer`, `keep`, `Raw::revision` and `Seen` of `review/github.rs`: every page of one read of a
change request, and what of it changed since the marker that an earlier read handed back.

A history of a change request is comments created and edited, threads opened and their flags set,
seconds passing, and one reader that passes each read the marker of the one before. What is
carried along besides (`last`, `touched`, `log`) is what the previous read saw, the comments that
were created or edited since, and what each read answered beside what had changed.
-/

namespace Onevcs.Review

open Foundations (System Text)
open Store (trim stripPrefix)
open Base64 (Bytes)

/-- `Raw`: one comment as a page reported it. -/
structure Raw where
  id : Text
  author : Text
  body : Text
  url : Text
  createdAt : Text
  updatedAt : Text
  lastEditedAt : Option Text
  replyTo : Option Text
  deriving DecidableEq

/-- `Thread`, with every comment of every page of it. -/
structure Thread where
  id : Text
  path : Text
  line : Option ℕ
  resolved : Bool
  outdated : Bool
  comments : List Raw
  deriving DecidableEq

/-- `Pages`: every page of one read, joined. -/
structure Pages where
  url : Option Text
  threads : List Thread
  conversation : List Raw
  reviews : List (Raw × Text)
  points : ℕ
  deriving DecidableEq

/-- `Seen`: what a marker remembers. The order a `BTreeMap` keeps, which only the spelling of a
marker shows, is not kept here. -/
structure Seen where
  url : Text
  comments : List (Text × Text)
  threads : List (Text × Text)
  deriving DecidableEq

structure ReadCost where
  graphqlPoints : ℕ
  restRequests : ℕ
  deriving DecidableEq

structure ReviewRead where
  changeUrl : Text
  comments : List ReviewComment
  marker : Text
  unchanged : Bool
  cost : ReadCost
  deriving DecidableEq

inductive Refusal
  -- `GitHub answered about {about} without its URL`
  | noUrl (about : Text)
  -- `{marker} is not a read marker this build's GitHub reads write`
  | notAMarker (marker changeUrl : Text)
  -- `that read marker was read from {url}, not from {change_url}`
  | otherChange (url changeUrl : Text)
  deriving DecidableEq

/-- What a marker is spelled with: `ids::digest`, and a `Seen` written as JSON and read back. -/
structure Coding where
  digest : Text → Text
  toJson : Seen → Bytes
  ofJson : Bytes → Option Seen

def insert (map : List (Text × Text)) (key value : Text) : List (Text × Text) :=
  (key, value) :: map.filter fun entry => entry.1 ≠ key

section Reading

variable (coding : Coding)

def Raw.revision (raw : Raw) : Text :=
  (coding.digest (raw.updatedAt ++ '|' :: raw.lastEditedAt.getD [])).take 10

def Seen.flags (resolved outdated : Bool) : Text :=
  [if resolved then '1' else '0', if outdated then '1' else '0']

def markerPrefix : Text := "gh1.".toList

def Seen.encode (seen : Seen) : Text := markerPrefix ++ Base64.encode (coding.toJson seen)

def Seen.decode (marker changeUrl : Text) : Except Refusal Seen :=
  match ((stripPrefix markerPrefix marker).bind Base64.decode).bind coding.ofJson with
  | none => .error (.notAMarker marker changeUrl)
  | some seen => if seen.url ≠ changeUrl then .error (.otherChange seen.url changeUrl) else .ok seen

/-- What the marker a read was passed remembers, where it was passed one. -/
def decodeSince (since : Option Text) (changeUrl : Text) : Except Refusal (Option Seen) :=
  match since with
  | none => .ok none
  | some marker => (Seen.decode coding marker changeUrl).map some

/-! ## One read -/

def Raw.comment (raw : Raw) (kind : CommentKind) : ReviewComment where
  id := raw.id
  kind := kind
  author := raw.author
  body := raw.body
  url := raw.url
  createdAt := raw.createdAt
  updatedAt := raw.updatedAt
  inReplyTo := raw.replyTo
  ours := (parseMarker raw.body).isSome
  replyMarker := parseMarker raw.body

/-- What a read has gathered: the comments it answers with, and the next marker. -/
structure Kept where
  comments : List ReviewComment
  now : Seen
  deriving DecidableEq

/-- A comment is new, was edited, or is in a thread whose flags moved. -/
def changed (seen : Option Seen) (moved : Bool) (raw : Raw) : Bool :=
  match seen with
  | none => true
  | some seen => moved || seen.comments.lookup raw.id != some (raw.revision coding)

def keep (seen : Option Seen) (kind : CommentKind) (moved : Bool) (kept : Kept) (raw : Raw) :
    Kept where
  comments :=
    if changed coding seen moved raw then kept.comments ++ [raw.comment kind] else kept.comments
  now := { kept.now with comments := insert kept.now.comments raw.id (raw.revision coding) }

/-- The flags of a thread are not what they were seen to be. -/
def Thread.moved (seen : Option Seen) (thread : Thread) : Bool :=
  match seen with
  | none => false
  | some seen =>
    match seen.threads.lookup thread.id with
    | some was => was != Seen.flags thread.resolved thread.outdated
    | none => false

/-- What the comments of a thread are answered as. -/
def Thread.kind (thread : Thread) : CommentKind :=
  .reviewThread thread.id thread.path thread.line thread.outdated thread.resolved

def keepThread (seen : Option Seen) (kept : Kept) (thread : Thread) : Kept :=
  let flags := Seen.flags thread.resolved thread.outdated
  let now := { kept.now with threads := insert kept.now.threads thread.id flags }
  thread.comments.foldl (keep coding seen thread.kind (thread.moved seen)) ⟨kept.comments, now⟩

/-- A review that says nothing but `commented` is the container that the comments of a thread
arrived in. -/
def isContainer (review : Raw × Text) : Bool :=
  (trim review.1.body).isEmpty && review.2 = "commented".toList

def keepReview (seen : Option Seen) (kept : Kept) (review : Raw × Text) : Kept :=
  if isContainer review then kept else keep coding seen (.review review.2) false kept review.1

def answer (pages : Pages) (since : Option Text) (about : Text) : Except Refusal ReviewRead :=
  match pages.url with
  | none => .error (.noUrl about)
  | some changeUrl =>
    (decodeSince coding since changeUrl).map fun seen =>
      let threads := pages.threads.foldl (keepThread coding seen) ⟨[], changeUrl, [], []⟩
      let conversation := pages.conversation.foldl (keep coding seen .conversation false) threads
      let kept := pages.reviews.foldl (keepReview coding seen) conversation
      { changeUrl := changeUrl
        comments := kept.comments
        marker := kept.now.encode coding
        unchanged := seen.isSome && kept.comments.isEmpty
        cost := ⟨pages.points, 0⟩ }

end Reading

/-! ## Histories -/

/-- Where a comment is created. -/
inductive Place
  | thread (id : Text)
  | conversation
  | review (state : Text)
  deriving DecidableEq

namespace Pages

/-- Every comment the host holds, containers among them. -/
def raws (pages : Pages) : List Raw :=
  pages.threads.flatMap Thread.comments ++ pages.conversation ++ pages.reviews.map Prod.fst

/-- The comments that a read looks at. -/
def shown (pages : Pages) : List Raw :=
  pages.threads.flatMap Thread.comments ++ pages.conversation ++
    (pages.reviews.filter fun review => !isContainer review).map Prod.fst

def has (pages : Pages) : Place → Bool
  | .thread id => pages.threads.any fun thread => thread.id = id
  | _ => true

/-- A comment is added where it was created. -/
def add (pages : Pages) (raw : Raw) : Place → Pages
  | .thread id =>
    { pages with
      threads := pages.threads.map fun thread =>
        if thread.id = id then { thread with comments := thread.comments ++ [raw] } else thread }
  | .conversation => { pages with conversation := pages.conversation ++ [raw] }
  | .review state => { pages with reviews := pages.reviews ++ [(raw, state)] }

def mapRaw (pages : Pages) (f : Raw → Raw) : Pages :=
  { pages with
    threads := pages.threads.map fun thread =>
      { thread with comments := thread.comments.map f }
    conversation := pages.conversation.map f
    reviews := pages.reviews.map fun review => (f review.1, review.2) }

/-- The flags of a thread are set. -/
def setFlags (pages : Pages) (id : Text) (resolved outdated : Bool) : Pages :=
  { pages with
    threads := pages.threads.map fun thread =>
      if thread.id = id then { thread with resolved := resolved, outdated := outdated }
      else thread }

end Pages

/-- A comment is edited at a moment. -/
def Raw.edit (id body moment : Text) (raw : Raw) : Raw :=
  if raw.id = id then { raw with body := body, updatedAt := moment, lastEditedAt := some moment }
  else raw

/-- What a read answered, and the comments that were to be returned. -/
structure Answered where
  first : Bool
  wanted : List ReviewComment
  read : Except Refusal ReviewRead

/-- The read returned what was to be returned, and said that nothing changed exactly where a marker
was passed and nothing is returned. -/
def Answered.Exact (answered : Answered) : Prop :=
  ∃ review, answered.read = .ok review ∧ review.comments = answered.wanted ∧
    review.unchanged = (!answered.first && review.comments.isEmpty)

instance (answered : Answered) : Decidable answered.Exact :=
  match h : answered.read with
  | .error refusal => isFalse fun ⟨_, hread, _⟩ => nomatch h.symm.trans hread
  | .ok review =>
    decidable_of_iff (review.comments = answered.wanted ∧
        review.unchanged = (!answered.first && review.comments.isEmpty))
      ⟨fun hexact => ⟨review, h, hexact⟩, fun ⟨_, hread, hexact⟩ => by
        obtain rfl := Except.ok.inj (h.symm.trans hread)
        exact hexact⟩

/-- A change request on the host, and its reader. -/
structure World where
  pages : Pages
  -- the second it is
  clock : ℕ
  -- what the next read passes
  marker : Option Text
  -- what the previous read saw, and which comments were created or edited since
  last : Option Pages
  touched : List Text
  log : List Answered

/-- What happens to a change request. -/
inductive Label
  | tick
  | openThread (id path : Text) (line : Option ℕ)
  | comment (place : Place) (id author body url : Text) (replyTo : Option Text)
  | edit (id body : Text)
  | setFlags (thread : Text) (resolved outdated : Bool)
  | read
  deriving DecidableEq

/-- A comment a read looks at, and the thread it is in. -/
structure Entry where
  raw : Raw
  kind : CommentKind
  thread : Option Thread
  deriving DecidableEq

namespace Pages

/-- The comments a read looks at, in the order it looks at them. -/
def entries (pages : Pages) : List Entry :=
  pages.threads.flatMap (fun thread =>
      thread.comments.map fun raw => ⟨raw, thread.kind, some thread⟩) ++
    pages.conversation.map (fun raw => ⟨raw, .conversation, none⟩) ++
    (pages.reviews.filter fun review => !isContainer review).map fun review =>
      ⟨review.1, .review review.2, none⟩

/-- The flags of the thread are not what they were in `last`. -/
def movedSince (last : Pages) (thread : Thread) : Bool :=
  match last.threads.find? fun was => was.id = thread.id with
  | some was => was.resolved != thread.resolved || was.outdated != thread.outdated
  | none => false

end Pages

namespace Entry

def comment (entry : Entry) : ReviewComment := entry.raw.comment entry.kind

/-- The comment's thread was resolved, unresolved or outdated since `last`. -/
def movedSince (last : Pages) (entry : Entry) : Bool := entry.thread.any last.movedSince

end Entry

namespace World

/-- The comment is to be returned: it was created or edited since the previous read, or the flags
of its thread differ from what that read saw. Everything is new to a first read. -/
def wants (s : World) (entry : Entry) : Bool :=
  match s.last with
  | none => true
  | some last => decide (entry.raw.id ∈ s.touched) || entry.movedSince last

/-- What the next read is to return. -/
def wanted (s : World) : List ReviewComment := (s.pages.entries.filter s.wants).map Entry.comment

variable (coding : Coding) (moment : ℕ → Text)

/-- Each comment that was created or edited since the previous read either was not seen by it, or
shows another revision than it did, or is in a thread whose flags moved. -/
def shows (s : World) : Label → Bool
  | .read =>
    match s.last with
    | none => true
    | some last =>
      s.pages.entries.all fun entry =>
        decide (entry.raw.id ∉ s.touched) || entry.movedSince last ||
          last.shown.all fun was =>
            was.id != entry.raw.id || was.revision coding != entry.raw.revision coding
  | _ => true

def step (s : World) : Label → Option World
  | .tick => some { s with clock := s.clock + 1 }
  | .openThread id path line =>
    if id ∈ s.pages.threads.map Thread.id then none
    else
      some { s with
        pages := { s.pages with
          threads := s.pages.threads ++ [⟨id, path, line, false, false, []⟩] } }
  | .comment place id author body url replyTo =>
    if id ∈ s.pages.raws.map Raw.id ∨ s.pages.has place = false then none
    else
      let raw : Raw := ⟨id, author, body, url, moment s.clock, moment s.clock, none, replyTo⟩
      some { s with pages := s.pages.add raw place, touched := id :: s.touched }
  | .edit id body =>
    -- an edit leaves another body
    if s.pages.raws.any fun raw => raw.id = id && raw.body != body then
      some { s with
        pages := s.pages.mapRaw (Raw.edit id body (moment s.clock))
        touched := id :: s.touched }
    else none
  | .setFlags thread resolved outdated =>
    some { s with pages := s.pages.setFlags thread resolved outdated }
  | .read =>
    let read := answer coding s.pages s.marker []
    let answered : Answered := ⟨s.marker.isNone, s.wanted, read⟩
    match read with
    | .error _ => some { s with log := answered :: s.log }
    | .ok review =>
      some { s with
        marker := some review.marker
        last := some s.pages
        touched := []
        log := answered :: s.log }

def Exact (s : World) : Prop := ∀ answered ∈ s.log, answered.Exact

instance (s : World) : Decidable s.Exact := List.decidableBAll _ _

/-- A change request whose comments and threads have ids of their own, that nothing was read
from. -/
structure Initial (s : World) : Prop where
  url : s.pages.url.isSome = true
  raws : (s.pages.raws.map Raw.id).Nodup
  threads : (s.pages.threads.map Thread.id).Nodup
  marker : s.marker = none
  last : s.last = none
  log : s.log = []

end World

/-- The histories of a change request and its reader. -/
def history (coding : Coding) (moment : ℕ → Text) : System World Label where
  Initial := World.Initial
  step := World.step coding moment

end Onevcs.Review
