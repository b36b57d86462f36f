import Mathlib.Algebra.BigOperators.Group.Finset.Basic
import Mathlib.Algebra.Order.BigOperators.Group.Finset
import Onevcs.Foundations.Paging
import Onevcs.Review.Read

/-!
# Reading a change request's review page by page

`Pages::fetch`, `Cursor` and `first_page` of `review/github.rs`, over a host that splits the
three connections of a change request, and each thread's comments, into pages in any way.

A node is here as it reads, or as why it does not. A request is what one page of the query is
asked with; the query itself and the change request it names are left out.
-/

namespace Onevcs.Review

open Foundations (Split Text)

/-! ## The source -/

inductive PageRefusal
  -- what the host refuses with, and what a node is refused with
  | said (said : Text)
  -- `GitHub answered a page of the review read without what it charged for it`
  | noCost
  -- `GitHub answered a change request without its {name}`
  | noConnection (name : Text)
  -- `... without saying whether another follows`
  | notSaid
  -- `GitHub said another page of the review read follows without saying where it starts`
  | noStart
  -- `GitHub answered a thread's next page without it`
  | noThread
  deriving DecidableEq

structure Connection (α : Type) where
  hasNextPage : Option Bool
  endCursor : Option Text
  nodes : List (Except PageRefusal α)

/-- A thread's node, with the first page of its comments. -/
structure ThreadNode where
  id : Text
  path : Text
  line : Option ℕ
  resolved : Bool
  outdated : Bool
  comments : Option (Connection Raw)

/-- A change request's node, as one request asked for it, with what the request cost and the
next page of a thread where it asked for one. -/
structure PullNode where
  url : Option Text
  cost : Option ℕ
  reviewThreads : Option (Connection ThreadNode)
  comments : Option (Connection Raw)
  reviews : Option (Connection (Raw × Text))
  thread : Option (Connection Raw)

/-- What a page is asked for with: of each connection whether a page is wanted, and from where;
and the thread whose next comments are. -/
structure Request where
  threads : Bool
  threadsAfter : Option Text
  conversation : Bool
  conversationAfter : Option Text
  reviews : Bool
  reviewsAfter : Option Text
  inThread : Option (Text × Option Text)

/-- `connection`: a connection the host must have answered. -/
def connection {α : Type} (name : Text) : Option (Connection α) →
    Except PageRefusal (Connection α)
  | some answered => .ok answered
  | none => .error (.noConnection name)

/-- The nodes of a page, each as it reads. -/
def readNodes {α : Type} : List (Except PageRefusal α) → Except PageRefusal (List α)
  | [] => .ok []
  | node :: nodes => do
    let read ← node
    let rest ← readNodes nodes
    .ok (read :: rest)

/-- `Cursor`: where one connection's paging stands. -/
structure Cursor where
  more : Bool
  after : Option Text
  deriving DecidableEq

namespace Cursor

def start : Cursor := ⟨true, none⟩

/-- `Cursor::advance`: past one page. -/
def advance {α : Type} (page : Connection α) : Except PageRefusal Cursor :=
  match page.hasNextPage with
  | none => .error .notSaid
  | some more =>
    if more && page.endCursor.isNone then .error .noStart else .ok ⟨more, page.endCursor⟩

end Cursor

/-- `Thread::of`: one thread as a page reported it, with the comments on that page. -/
def Thread.of (node : ThreadNode) (comments : Connection Raw) : Except PageRefusal Thread := do
  let read ← readNodes comments.nodes
  .ok ⟨node.id, node.path, node.line, node.resolved, node.outdated, read⟩

/-- `to_ascii_lowercase`, of a review's state. -/
def lowerState (review : Raw × Text) : Raw × Text := (review.1, review.2.map Char.toLower)

/-- What `Pages::fetch` carries from one request to the next: what it holds, where each
connection's paging stands, and the threads longer than the page they arrived on. -/
structure Fetching where
  pages : Pages
  threads : Cursor
  conversation : Cursor
  reviews : Cursor
  long : List (ℕ × Option Text)

namespace Fetching

def start : Fetching := ⟨⟨none, [], [], [], 0⟩, .start, .start, .start, []⟩

def finished (s : Fetching) : Bool :=
  !s.threads.more && !s.conversation.more && !s.reviews.more && s.long.isEmpty

/-- What the next page is asked for with. -/
def request (s : Fetching) : Request where
  threads := s.threads.more
  threadsAfter := s.threads.after
  conversation := s.conversation.more
  conversationAfter := s.conversation.after
  reviews := s.reviews.more
  reviewsAfter := s.reviews.after
  inThread := s.long.head?.map fun entry =>
    (((s.pages.threads[entry.1]?).map Thread.id).getD [], entry.2)

/-- The thread whose comments are asked for is taken off the queue, and the page's cost and URL
are kept. The points are a `u32`. -/
def charged (s : Fetching) (cost : ℕ) (url : Option Text) : Fetching :=
  { s with
    pages :=
      { s.pages with
        points := (s.pages.points + min cost (2 ^ 32 - 1)) % 2 ^ 32
        url := url.or s.pages.url }
    long := s.long.tail }

def addThread (s : Fetching) (node : ThreadNode) : Except PageRefusal Fetching := do
  let comments ← connection "comments".toList node.comments
  let thread ← Thread.of node comments
  let cursor ← Cursor.advance comments
  .ok
    { s with
      pages := { s.pages with threads := s.pages.threads ++ [thread] }
      long := if cursor.more then s.long ++ [(s.pages.threads.length, cursor.after)] else s.long }

/-- The threads of a page, each in turn. -/
def addThreads (s : Fetching) : List ThreadNode → Except PageRefusal Fetching
  | [] => .ok s
  | node :: nodes => do
    let s ← s.addThread node
    s.addThreads nodes

/-- A page of threads, where one was asked for. -/
def readThreads (s : Fetching) (pull : PullNode) : Except PageRefusal Fetching :=
  if s.threads.more then do
    let page ← connection "reviewThreads".toList pull.reviewThreads
    let nodes ← readNodes page.nodes
    let s ← s.addThreads nodes
    let cursor ← Cursor.advance page
    .ok { s with threads := cursor }
  else .ok s

/-- A page of the conversation, where one was asked for. -/
def readConversation (s : Fetching) (pull : PullNode) : Except PageRefusal Fetching :=
  if s.conversation.more then do
    let page ← connection "comments".toList pull.comments
    let nodes ← readNodes page.nodes
    let cursor ← Cursor.advance page
    .ok
      { s with
        pages := { s.pages with conversation := s.pages.conversation ++ nodes }
        conversation := cursor }
  else .ok s

/-- A page of reviews, where one was asked for. -/
def readReviews (s : Fetching) (pull : PullNode) : Except PageRefusal Fetching :=
  if s.reviews.more then do
    let page ← connection "reviews".toList pull.reviews
    let nodes ← readNodes page.nodes
    let cursor ← Cursor.advance page
    .ok
      { s with
        pages := { s.pages with reviews := s.pages.reviews ++ nodes.map lowerState }
        reviews := cursor }
  else .ok s

/-- The next page of a thread, where one was asked for. -/
def readThread (s : Fetching) (pull : PullNode) :
    Option (ℕ × Option Text) → Except PageRefusal Fetching
  | none => .ok s
  | some (index, _) =>
    match pull.thread with
    | none => .error .noThread
    | some page => do
      let nodes ← readNodes page.nodes
      let cursor ← Cursor.advance page
      .ok
        { s with
          pages :=
            { s.pages with
              threads := s.pages.threads.modify index fun thread =>
                { thread with comments := thread.comments ++ nodes } }
          long := if cursor.more then (index, cursor.after) :: s.long else s.long }

/-- One turn of the loop of `Pages::fetch`. -/
def turn (ask : Request → Except PageRefusal PullNode) (s : Fetching) :
    Except PageRefusal Fetching := do
  let inner := s.long.head?
  let pull ← ask s.request
  match pull.cost with
  | none => .error .noCost
  | some cost =>
    let s ← (s.charged cost pull.url).readThreads pull
    let s ← s.readConversation pull
    let s ← s.readReviews pull
    s.readThread pull inner

/-- `Pages::fetch`, within so many turns of its loop. -/
def fetch (ask : Request → Except PageRefusal PullNode) :
    ℕ → Fetching → Except PageRefusal (Option Pages)
  | turns, s =>
    if s.finished then .ok (some s.pages)
    else
      match turns with
      | 0 => .ok none
      | turns + 1 => do
        let s ← s.turn ask
        fetch ask turns s

end Fetching

/-- The threads of a first page, none where one of them has a further page. -/
def firstThreads : List ThreadNode → Except PageRefusal (Option (List Thread))
  | [] => .ok (some [])
  | node :: nodes => do
    let comments ← connection "comments".toList node.comments
    let cursor ← Cursor.advance comments
    if cursor.more then .ok none
    else
      let thread ← Thread.of node comments
      let rest ← firstThreads nodes
      .ok (rest.map (thread :: ·))

/-- `first_page`: a review as the first page of a query reported it, none where a connection of
it has a further page. -/
def firstPage (pull : PullNode) : Except PageRefusal (Option Pages) := do
  let threads ← connection "reviewThreads".toList pull.reviewThreads
  let nodes ← readNodes threads.nodes
  let held ← firstThreads nodes
  match held with
  | none => .ok none
  | some held =>
    let conversation ← connection "comments".toList pull.comments
    let comments ← readNodes conversation.nodes
    let reviews ← connection "reviews".toList pull.reviews
    let read ← readNodes reviews.nodes
    let threadsCursor ← Cursor.advance threads
    if threadsCursor.more then .ok none
    else
      let conversationCursor ← Cursor.advance conversation
      if conversationCursor.more then .ok none
      else
        let reviewsCursor ← Cursor.advance reviews
        if reviewsCursor.more then .ok none
        else .ok (some ⟨pull.url, held, comments, read.map lowerState, 0⟩)

/-- A change request's review on the host. -/
structure Feedback where
  url : Text
  threads : List Thread
  conversation : List Raw
  reviews : List (Raw × Text)
  ids : (threads.map Thread.id).Nodup

/-- A page of a listing, each of its items as the node it is listed as. -/
def pageOf {α β : Type} {items : List α} (split : Split Text items) (last : Option Text)
    (node : α → β) (after : Option Text) : Option (Connection β) :=
  (split.from? after).map fun pages =>
    { hasNextPage := some !pages.2.isEmpty
      endCursor := (pages.2.head?.map Prod.fst).or last
      nodes := pages.1.map fun item => .ok (node item) }

/-- A host that holds a review, with how it splits each connection into pages, what it names a
last page's end with, and what it charges for a request. -/
structure Host (feedback : Feedback) where
  threads : Split Text feedback.threads
  comments : (thread : Thread) → Split Text thread.comments
  conversation : Split Text feedback.conversation
  reviews : Split Text feedback.reviews
  last : Option Text
  cost : Request → ℕ

namespace Host

variable {feedback : Feedback} (host : Host feedback)

def node (thread : Thread) : ThreadNode where
  id := thread.id
  path := thread.path
  line := thread.line
  resolved := thread.resolved
  outdated := thread.outdated
  comments := pageOf (host.comments thread) host.last id none

/-- The host's answer to a request: a connection that is not wanted is not in it. -/
def answer (request : Request) : Except PageRefusal PullNode :=
  .ok
    { url := some feedback.url
      cost := some (host.cost request)
      reviewThreads :=
        if request.threads then pageOf host.threads host.last host.node request.threadsAfter
        else none
      comments :=
        if request.conversation then
          pageOf host.conversation host.last id request.conversationAfter
        else none
      reviews :=
        if request.reviews then pageOf host.reviews host.last id request.reviewsAfter else none
      thread :=
        request.inThread.bind fun entry =>
          (feedback.threads.find? fun thread => thread.id == entry.1).bind fun thread =>
            pageOf (host.comments thread) host.last id entry.2 }

def first : PullNode where
  url := some feedback.url
  cost := none
  reviewThreads := pageOf host.threads host.last host.node none
  comments := pageOf host.conversation host.last id none
  reviews := pageOf host.reviews host.last id none
  thread := none

/-- No connection and no thread has a further page. -/
def Single : Prop :=
  host.threads.rest = [] ∧ (∀ thread ∈ feedback.threads, (host.comments thread).rest = []) ∧
    host.conversation.rest = [] ∧ host.reviews.rest = []

end Host

structure Pages.Holds (pages : Pages) (feedback : Feedback) : Prop where
  url : pages.url = some feedback.url
  threads : pages.threads = feedback.threads
  conversation : pages.conversation = feedback.conversation
  reviews : pages.reviews = feedback.reviews.map lowerState

end Onevcs.Review
