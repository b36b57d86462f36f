import Onevcs.Review.Fetch

/-!
# A review that was read whole

Over a host that splits a review into pages in any way: at every request of `Pages::fetch`, what
it holds and what its cursors and its queue of long threads still name are the review, and each
request turns at least one page. So the read ends, and holds every thread with its comments in
order, every conversation comment and every review, each once.
-/

namespace Onevcs.Review

open Foundations (Split Text)

theorem readNodes_map {α β : Type} (items : List α) (node : α → β) :
    readNodes (items.map fun item => .ok (node item)) = .ok (items.map node) := by
  induction items with
  | nil => rfl
  | cons item items ih =>
    rw [List.map_cons, readNodes, ih]
    rfl

theorem pageOf_turn {α β : Type} {items held : List α} {split : Split Text items}
    {after : Option Text} (h : split.At held true after) (last : Option Text) (node : α → β) :
    ∃ page answered next, pageOf split last node after = some answered ∧
      readNodes answered.nodes = .ok (page.map node) ∧ Cursor.advance answered = .ok next ∧
        split.At (held ++ page) next.more next.after ∧
          split.left next.more next.after + 1 = split.left true after := by
  obtain ⟨page, rest, hfrom, hturn⟩ := h.turn
  refine ⟨page, ⟨some !rest.isEmpty, (rest.head?.map Prod.fst).or last,
    page.map fun item => .ok (node item)⟩, ⟨!rest.isEmpty, (rest.head?.map Prod.fst).or last⟩,
    ?_, readNodes_map page node, ?_, (hturn last).1, (hturn last).2⟩
  · rw [pageOf, hfrom]
    rfl
  · cases rest <;> rfl

/-! ## The threads that arrived -/

/-- Where the paging of a thread's comments stands, by the queue. -/
def cursorOf (queue : List (ℕ × Option Text)) (index : ℕ) : Cursor :=
  match queue.lookup index with
  | some after => ⟨true, after⟩
  | none => ⟨false, none⟩

section Queue

variable {queue : List (ℕ × Option Text)} {index other : ℕ} {after : Option Text}

theorem lookup_of_lt (h : ∀ entry ∈ queue, entry.1 < index) : queue.lookup index = none := by
  apply List.lookup_eq_none_iff.mpr
  intro entry hentry
  have hlt := h entry hentry
  simp only [bne_iff_ne, ne_eq]
  omega

theorem cursorOf_of_lt (h : ∀ entry ∈ queue, entry.1 < index) : cursorOf queue index =
    ⟨false, none⟩ := by
  rw [cursorOf, lookup_of_lt h]

theorem cursorOf_head : cursorOf ((index, after) :: queue) index = ⟨true, after⟩ := by
  simp [cursorOf]

theorem cursorOf_tail (h : other ≠ index) :
    cursorOf ((index, after) :: queue) other = cursorOf queue other := by
  have hother : (other == index) = false := beq_eq_false_iff_ne.mpr h
  rw [cursorOf, List.lookup_cons, hother]
  rfl

theorem cursorOf_append (h : other ≠ index) :
    cursorOf (queue ++ [(index, after)]) other = cursorOf queue other := by
  have hother : (other == index) = false := beq_eq_false_iff_ne.mpr h
  rw [cursorOf, List.lookup_append, List.lookup_cons, hother, List.lookup_nil, Option.or_none]
  rfl

theorem cursorOf_last (h : ∀ entry ∈ queue, entry.1 < index) :
    cursorOf (queue ++ [(index, after)]) index = ⟨true, after⟩ := by
  simp [cursorOf, List.lookup_append, lookup_of_lt h]

end Queue

section Threads

variable {feedback : Feedback} {host : Host feedback} {threads : List Thread}
  {queue : List (ℕ × Option Text)}

/-- The threads that arrived are the first of the review's, each with its comments up to where
the queue says its paging stands. -/
structure Arrived (host : Host feedback) (threads : List Thread)
    (queue : List (ℕ × Option Text)) : Prop where
  comments : ∀ index thread, feedback.threads[index]? = some thread → index < threads.length →
    ∃ held, threads[index]? = some { thread with comments := held } ∧
      (host.comments thread).At held (cursorOf queue index).more (cursorOf queue index).after
  distinct : (queue.map Prod.fst).Nodup
  lt : ∀ entry ∈ queue, entry.1 < threads.length

/-- How many pages of comments are left of a thread, of which `arrived` have. -/
def commentsLeft (host : Host feedback) (arrived : ℕ) (queue : List (ℕ × Option Text))
    (index : ℕ) : ℕ :=
  match feedback.threads[index]? with
  | some thread =>
    if index < arrived then
      (host.comments thread).left (cursorOf queue index).more (cursorOf queue index).after
    else (host.comments thread).rest.length
  | none => 0

/-- One more thread arrives, with its first page of comments: queued where it has more. -/
theorem Arrived.add (h : Arrived host threads queue) {thread : Thread}
    (hthread : feedback.threads[threads.length]? = some thread) {page : List Raw} {next : Cursor}
    (hat : (host.comments thread).At page next.more next.after)
    (hleft : (host.comments thread).left next.more next.after =
      (host.comments thread).rest.length) :
    Arrived host (threads ++ [{ thread with comments := page }])
        (if next.more then queue ++ [(threads.length, next.after)] else queue) ∧
      ∀ index, commentsLeft host (threads.length + 1)
          (if next.more then queue ++ [(threads.length, next.after)] else queue) index =
        commentsLeft host threads.length queue index := by
  obtain ⟨more, after⟩ := next
  have hold : ∀ index, index ≠ threads.length →
      cursorOf (if more then queue ++ [(threads.length, after)] else queue) index =
        cursorOf queue index := by
    intro index hne
    cases more
    · rfl
    · exact cursorOf_append hne
  have hnew : (cursorOf (if more then queue ++ [(threads.length, after)] else queue)
      threads.length).more = more ∧ (more = true →
        (cursorOf (if more then queue ++ [(threads.length, after)] else queue)
          threads.length).after = after) := by
    cases more
    · simp [cursorOf_of_lt h.lt]
    · simp [cursorOf_last h.lt]
  have hcursor : (host.comments thread).At page
        (cursorOf (if more then queue ++ [(threads.length, after)] else queue)
          threads.length).more
        (cursorOf (if more then queue ++ [(threads.length, after)] else queue)
          threads.length).after ∧
      (host.comments thread).left
        (cursorOf (if more then queue ++ [(threads.length, after)] else queue)
          threads.length).more
        (cursorOf (if more then queue ++ [(threads.length, after)] else queue)
          threads.length).after = (host.comments thread).rest.length := by
    cases more
    · rw [hnew.1]
      exact ⟨hat, hleft⟩
    · rw [hnew.1, hnew.2 rfl]
      exact ⟨hat, hleft⟩
  refine ⟨⟨?_, ?_, ?_⟩, ?_⟩
  · intro index other hother hlt
    rw [List.length_append, List.length_singleton] at hlt
    rcases Nat.lt_succ_iff_lt_or_eq.mp hlt with hlt | rfl
    · obtain ⟨held, hheld, hstands⟩ := h.comments index other hother hlt
      refine ⟨held, by rw [List.getElem?_append_left hlt, hheld], ?_⟩
      rwa [hold index hlt.ne]
    · obtain rfl : thread = other := Option.some.inj (hthread.symm.trans hother)
      exact ⟨page, by simp, hcursor.1⟩
  · cases more
    · exact h.distinct
    · simp only [if_true, List.map_append, List.map_cons, List.map_nil]
      apply List.nodup_append.mpr
      refine ⟨h.distinct, List.nodup_singleton _, ?_⟩
      intro index hindex other hother
      obtain ⟨entry, hentry, rfl⟩ := List.mem_map.mp hindex
      have hlt := h.lt entry hentry
      rw [List.mem_singleton.mp hother]
      exact hlt.ne
  · intro entry hentry
    rw [List.length_append, List.length_singleton]
    cases more
    · exact Nat.lt_succ_of_lt (h.lt entry hentry)
    · rcases List.mem_append.mp hentry with hentry | hentry
      · exact Nat.lt_succ_of_lt (h.lt entry hentry)
      · rw [List.mem_singleton.mp hentry]
        exact Nat.lt_succ_self _
  · intro index
    by_cases hne : index = threads.length
    · subst hne
      simp only [commentsLeft, hthread, Nat.lt_succ_self, if_true, lt_irrefl, if_false]
      exact hcursor.2
    · have hiff : index < threads.length + 1 ↔ index < threads.length := by omega
      simp only [commentsLeft, hiff]
      rw [hold index hne]

/-- The next page of a thread's comments is read: the thread holds it, and is queued again where
it has more. -/
theorem Arrived.next {index : ℕ} {after : Option Text}
    (h : Arrived host threads ((index, after) :: queue)) {thread : Thread}
    (hthread : feedback.threads[index]? = some thread) {held page : List Raw} {next : Cursor}
    (hheld : threads[index]? = some { thread with comments := held })
    (hat : (host.comments thread).At (held ++ page) next.more next.after)
    (hleft : (host.comments thread).left next.more next.after + 1 =
      (host.comments thread).left true after) :
    Arrived host
        (threads.modify index fun thread => { thread with comments := thread.comments ++ page })
        (if next.more then (index, next.after) :: queue else queue) ∧
      (∀ other, other ≠ index → commentsLeft host threads.length
          (if next.more then (index, next.after) :: queue else queue) other =
        commentsLeft host threads.length ((index, after) :: queue) other) ∧
      commentsLeft host threads.length
          (if next.more then (index, next.after) :: queue else queue) index + 1 =
        commentsLeft host threads.length ((index, after) :: queue) index := by
  obtain ⟨more, following⟩ := next
  have hdistinct := List.nodup_cons.mp h.distinct
  have hlt : index < threads.length := h.lt _ List.mem_cons_self
  have hold : ∀ other, other ≠ index →
      cursorOf (if more then (index, following) :: queue else queue) other =
        cursorOf ((index, after) :: queue) other := by
    intro other hne
    rw [cursorOf_tail hne]
    cases more
    · rfl
    · exact cursorOf_tail hne
  have hcursor : (cursorOf (if more then (index, following) :: queue else queue) index).more =
      more ∧ (more = true →
        (cursorOf (if more then (index, following) :: queue else queue) index).after =
          following) := by
    cases more
    · have hnone : queue.lookup index = none := by
        apply List.lookup_eq_none_iff.mpr
        intro entry hentry
        have hne : entry.1 ≠ index := fun hsame =>
          hdistinct.1 (List.mem_map.mpr ⟨entry, hentry, hsame⟩)
        simpa using hne.symm
      simp [cursorOf, hnone]
    · simp [cursorOf_head]
  have hstands : (host.comments thread).At (held ++ page)
        (cursorOf (if more then (index, following) :: queue else queue) index).more
        (cursorOf (if more then (index, following) :: queue else queue) index).after ∧
      (host.comments thread).left
        (cursorOf (if more then (index, following) :: queue else queue) index).more
        (cursorOf (if more then (index, following) :: queue else queue) index).after + 1 =
          (host.comments thread).left true after := by
    cases more
    · rw [hcursor.1]
      exact ⟨hat, hleft⟩
    · rw [hcursor.1, hcursor.2 rfl]
      exact ⟨hat, hleft⟩
  refine ⟨⟨?_, ?_, ?_⟩, ?_, ?_⟩
  · intro other found hfound hbound
    rw [List.length_modify] at hbound
    by_cases hsame : other = index
    · subst hsame
      obtain rfl : thread = found := Option.some.inj (hthread.symm.trans hfound)
      refine ⟨held ++ page, ?_, hstands.1⟩
      rw [List.getElem?_modify_eq, hheld]
      rfl
    · obtain ⟨read, hread, hat⟩ := h.comments other found hfound hbound
      refine ⟨read, ?_, by rwa [hold other hsame]⟩
      rw [List.getElem?_modify_ne _ _ (Ne.symm hsame), hread]
  · cases more
    · exact hdistinct.2
    · exact h.distinct
  · intro entry hentry
    rw [List.length_modify]
    cases more
    · exact h.lt entry (List.mem_cons_of_mem _ hentry)
    · rcases List.mem_cons.mp hentry with rfl | hentry
      · exact hlt
      · exact h.lt entry (List.mem_cons_of_mem _ hentry)
  · intro other hne
    simp only [commentsLeft]
    rw [hold other hne]
  · simp only [commentsLeft, hthread, hlt, if_true]
    rw [cursorOf_head]
    exact hstands.2

end Threads

section Reads

variable {feedback : Feedback} {host : Host feedback} {s : Fetching} {pull : PullNode}
  {inner : Option (ℕ × Option Text)}

/-- What a read holds, and what its cursors, its queue and the thread it reads on in still name,
are the review. -/
structure Fetching.Reads (host : Host feedback) (inner : Option (ℕ × Option Text))
    (s : Fetching) : Prop where
  threads : host.threads.At (feedback.threads.take s.pages.threads.length) s.threads.more
    s.threads.after
  count : s.pages.threads.length ≤ feedback.threads.length
  arrived : Arrived host s.pages.threads (inner.toList ++ s.long)
  conversation : host.conversation.At s.pages.conversation s.conversation.more
    s.conversation.after
  reviews : ∃ held, s.pages.reviews = held.map lowerState ∧
    host.reviews.At held s.reviews.more s.reviews.after

/-- How many pages of comments are left, over all threads. -/
def Fetching.threadsLeft (host : Host feedback) (inner : Option (ℕ × Option Text))
    (s : Fetching) : ℕ :=
  ∑ index ∈ Finset.range feedback.threads.length,
    commentsLeft host s.pages.threads.length (inner.toList ++ s.long) index

def Fetching.left (host : Host feedback) (inner : Option (ℕ × Option Text)) (s : Fetching) : ℕ :=
  host.threads.left s.threads.more s.threads.after +
    host.conversation.left s.conversation.more s.conversation.after +
      host.reviews.left s.reviews.more s.reviews.after + s.threadsLeft host inner

theorem Fetching.Reads.start : Fetching.start.Reads host none where
  threads := Split.At.start host.threads
  count := Nat.zero_le _
  arrived := ⟨fun _ _ _ hlt => absurd hlt (Nat.not_lt_zero _), List.nodup_nil,
    fun _ hentry => absurd hentry List.not_mem_nil⟩
  conversation := Split.At.start host.conversation
  reviews := ⟨[], rfl, Split.At.start host.reviews⟩

theorem Fetching.Reads.charged (h : s.Reads host none) (cost : ℕ) (url : Option Text) :
    (s.charged cost url).Reads host s.long.head? ∧
      (s.charged cost url).left host s.long.head? = s.left host none := by
  have hqueue : s.long.head?.toList ++ s.long.tail = s.long := by cases s.long <;> rfl
  refine ⟨⟨h.threads, h.count, ?_, h.conversation, h.reviews⟩, ?_⟩
  · simpa [Fetching.charged, hqueue] using h.arrived
  · simp [Fetching.left, Fetching.threadsLeft, Fetching.charged, hqueue]

theorem addThread_node (host : Host feedback) (s : Fetching) (thread : Thread) : ∃ (page : List Raw) (next : Cursor),
    s.addThread (host.node thread) = .ok
        { s with
          pages := { s.pages with
            threads := s.pages.threads ++ [{ thread with comments := page }] }
          long := if next.more then s.long ++ [(s.pages.threads.length, next.after)]
            else s.long } ∧
      (host.comments thread).At page next.more next.after ∧
        (host.comments thread).left next.more next.after =
          (host.comments thread).rest.length := by
  obtain ⟨page, answered, next, hanswered, hnodes, hadvance, hat, hleft⟩ :=
    pageOf_turn (Split.At.start (host.comments thread)) host.last id
  rw [List.map_id] at hnodes
  refine ⟨page, next, ?_, hat, ?_⟩
  · simp only [Fetching.addThread, Host.node, hanswered, connection, Thread.of, hnodes, hadvance,
      bind, Except.bind]
  · rw [Split.left_true (host.comments thread) rfl] at hleft
    exact Nat.succ.inj hleft

/-- The threads of a page arrive, each with its first page of comments. -/
theorem addThreads_nodes (page rest : List Thread) (s : Fetching)
    (h : Arrived host s.pages.threads (inner.toList ++ s.long))
    (hpage : feedback.threads.drop s.pages.threads.length = page ++ rest) :
    ∃ threads long, s.addThreads (page.map host.node) = .ok
        { s with pages := { s.pages with threads := threads }, long := long } ∧
      Arrived host threads (inner.toList ++ long) ∧
        threads.length = s.pages.threads.length + page.length ∧
          ∀ index, commentsLeft host threads.length (inner.toList ++ long) index =
            commentsLeft host s.pages.threads.length (inner.toList ++ s.long) index := by
  induction page generalizing s with
  | nil => exact ⟨s.pages.threads, s.long, rfl, h, rfl, fun _ => rfl⟩
  | cons thread page ih =>
    have hthread : feedback.threads[s.pages.threads.length]? = some thread := by
      rw [← List.head?_drop, hpage]
      rfl
    obtain ⟨first, next, hadd, hat, hleft⟩ := addThread_node host s thread
    obtain ⟨harrived, hsame⟩ := h.add hthread hat hleft
    have hqueue : (if next.more then
          (inner.toList ++ s.long) ++ [(s.pages.threads.length, next.after)]
        else inner.toList ++ s.long) = inner.toList ++
          (if next.more then s.long ++ [(s.pages.threads.length, next.after)] else s.long) := by
      split
      · rw [List.append_assoc]
      · rfl
    rw [hqueue] at harrived hsame
    obtain ⟨threads, long, hrest, hall, hlength, hkept⟩ := ih
      { s with
        pages := { s.pages with
          threads := s.pages.threads ++ [{ thread with comments := first }] }
        long := if next.more then s.long ++ [(s.pages.threads.length, next.after)]
          else s.long }
      harrived (by
        rw [List.length_append, List.length_singleton, ← List.drop_drop, hpage]
        rfl)
    refine ⟨threads, long, ?_, hall, ?_, ?_⟩
    · rw [List.map_cons, Fetching.addThreads, hadd]
      exact hrest
    · rw [hlength, List.length_append, List.length_singleton, List.length_cons]
      omega
    · intro index
      rw [hkept index, List.length_append, List.length_singleton]
      exact hsame index

theorem Fetching.Reads.readThreads (h : s.Reads host inner)
    (hpull : s.threads.more = true →
      pull.reviewThreads = pageOf host.threads host.last host.node s.threads.after) :
    ∃ read, s.readThreads pull = .ok read ∧ read.Reads host inner ∧
      read.left host inner + (if s.threads.more then 1 else 0) = s.left host inner ∧
        read.conversation = s.conversation ∧ read.reviews = s.reviews ∧
          read.pages.url = s.pages.url := by
  unfold Fetching.readThreads
  by_cases hmore : s.threads.more = true
  · rw [if_pos hmore, if_pos hmore, hpull hmore]
    have hat := h.threads
    rw [hmore] at hat
    obtain ⟨page, answered, next, hanswered, hnodes, hadvance, hnext, hleft⟩ :=
      pageOf_turn hat host.last host.node
    -- What arrived is the first of the review's threads, so the page is the next of them.
    have hwhole : ∃ rest, feedback.threads.take s.pages.threads.length ++ page ++ rest =
        feedback.threads := by
      unfold Split.At at hnext
      split at hnext
      · obtain ⟨following, rest, -, hitems⟩ := hnext
        exact ⟨following ++ rest.flatMap Prod.snd, by rw [← List.append_assoc]; exact hitems⟩
      · exact ⟨[], by rw [List.append_nil]; exact hnext⟩
    obtain ⟨rest, hwhole⟩ := hwhole
    have hdrop : feedback.threads.drop s.pages.threads.length = page ++ rest := by
      have hsplit := List.take_append_drop s.pages.threads.length feedback.threads
      rw [List.append_assoc] at hwhole
      exact List.append_cancel_left (hsplit.trans hwhole.symm)
    obtain ⟨threads, long, hadd, harrived, hlength, hkept⟩ :=
      addThreads_nodes page rest s h.arrived hdrop
    have hcount : threads.length ≤ feedback.threads.length := by
      have hlen := congrArg List.length hwhole
      rw [List.length_append, List.length_append, List.length_take,
        Nat.min_eq_left h.count] at hlen
      omega
    have htake : feedback.threads.take threads.length =
        feedback.threads.take s.pages.threads.length ++ page := by
      rw [hlength, List.take_add, hdrop, List.take_left]
    refine ⟨{ s with
        pages := { s.pages with threads := threads }
        long := long
        threads := next },
      ?_, ⟨?_, hcount, harrived, h.conversation, h.reviews⟩, ?_, rfl, rfl, rfl⟩
    · simp only [hanswered, connection, hnodes, hadd, hadvance, bind, Except.bind]
    · exact htake ▸ hnext
    · have hsum : ∑ index ∈ Finset.range feedback.threads.length,
            commentsLeft host threads.length (inner.toList ++ long) index =
          s.threadsLeft host inner :=
        Finset.sum_congr rfl fun index _ => hkept index
      simp only [Fetching.left, Fetching.threadsLeft, hmore, ← hleft] at hsum ⊢
      rw [hsum]
      omega
  · rw [if_neg hmore, if_neg hmore]
    exact ⟨s, rfl, h, rfl, rfl, rfl, rfl⟩

theorem Fetching.Reads.readConversation (h : s.Reads host inner)
    (hpull : s.conversation.more = true →
      pull.comments = pageOf host.conversation host.last id s.conversation.after) :
    ∃ read, s.readConversation pull = .ok read ∧ read.Reads host inner ∧
      read.left host inner + (if s.conversation.more then 1 else 0) = s.left host inner ∧
        read.reviews = s.reviews ∧ read.pages.url = s.pages.url := by
  unfold Fetching.readConversation
  by_cases hmore : s.conversation.more = true
  · rw [if_pos hmore, if_pos hmore, hpull hmore]
    have hat := h.conversation
    rw [hmore] at hat
    obtain ⟨page, answered, next, hanswered, hnodes, hadvance, hnext, hleft⟩ :=
      pageOf_turn hat host.last id
    rw [List.map_id] at hnodes
    refine ⟨{ s with
        pages := { s.pages with conversation := s.pages.conversation ++ page }
        conversation := next },
      ?_, ⟨h.threads, h.count, h.arrived, hnext, h.reviews⟩, ?_, rfl, rfl⟩
    · simp only [hanswered, connection, hnodes, hadvance, bind, Except.bind]
    · simp only [Fetching.left, Fetching.threadsLeft, hmore, ← hleft]
      omega
  · rw [if_neg hmore, if_neg hmore]
    exact ⟨s, rfl, h, rfl, rfl, rfl⟩

theorem Fetching.Reads.readReviews (h : s.Reads host inner)
    (hpull : s.reviews.more = true →
      pull.reviews = pageOf host.reviews host.last id s.reviews.after) :
    ∃ read, s.readReviews pull = .ok read ∧ read.Reads host inner ∧
      read.left host inner + (if s.reviews.more then 1 else 0) = s.left host inner ∧
        read.pages.url = s.pages.url := by
  unfold Fetching.readReviews
  by_cases hmore : s.reviews.more = true
  · rw [if_pos hmore, if_pos hmore, hpull hmore]
    obtain ⟨held, hheld, hat⟩ := h.reviews
    rw [hmore] at hat
    obtain ⟨page, answered, next, hanswered, hnodes, hadvance, hnext, hleft⟩ :=
      pageOf_turn hat host.last id
    rw [List.map_id] at hnodes
    refine ⟨{ s with
        pages := { s.pages with reviews := s.pages.reviews ++ page.map lowerState }
        reviews := next },
      ?_, ⟨h.threads, h.count, h.arrived, h.conversation, held ++ page, ?_, hnext⟩, ?_, rfl⟩
    · simp only [hanswered, connection, hnodes, hadvance, bind, Except.bind]
    · rw [List.map_append, hheld]
    · simp only [Fetching.left, Fetching.threadsLeft, hmore, ← hleft]
      omega
  · rw [if_neg hmore, if_neg hmore]
    exact ⟨s, rfl, h, rfl, rfl⟩

/-- A page with one node refused is refused whole. -/
example : readNodes [.ok 1, .error .noCost, .ok 2] = (.error .noCost : Except PageRefusal (List ℕ)) := by
  decide +kernel

theorem sum_turn {f g : ℕ → ℕ} {bound index : ℕ} (hindex : index < bound)
    (hone : f index + 1 = g index) (hother : ∀ other, other ≠ index → f other = g other) :
    ∑ other ∈ Finset.range bound, f other + 1 = ∑ other ∈ Finset.range bound, g other := by
  have hmem : index ∈ Finset.range bound := Finset.mem_range.mpr hindex
  have hsame : ∑ other ∈ (Finset.range bound).erase index, f other =
      ∑ other ∈ (Finset.range bound).erase index, g other :=
    Finset.sum_congr rfl fun other hmem => hother other (Finset.ne_of_mem_erase hmem)
  rw [← Finset.add_sum_erase _ f hmem, ← Finset.add_sum_erase _ g hmem, hsame]
  omega

theorem Fetching.Reads.readThread (h : s.Reads host inner)
    (hpull : ∀ index after thread, inner = some (index, after) →
      feedback.threads[index]? = some thread →
        pull.thread = pageOf (host.comments thread) host.last id after) :
    ∃ read, s.readThread pull inner = .ok read ∧ read.Reads host none ∧
      read.left host none + (if inner.isSome then 1 else 0) = s.left host inner ∧
        read.pages.url = s.pages.url := by
  rcases inner with _ | ⟨index, after⟩
  · exact ⟨s, rfl, h, rfl, rfl⟩
  · have hlt : index < s.pages.threads.length := h.arrived.lt (index, after) List.mem_cons_self
    have hbound : index < feedback.threads.length := hlt.trans_le h.count
    have hthread : feedback.threads[index]? = some feedback.threads[index] :=
      List.getElem?_eq_getElem hbound
    obtain ⟨held, hheld, hat⟩ := h.arrived.comments index _ hthread hlt
    have hcursor : cursorOf ((some (index, after)).toList ++ s.long) index = ⟨true, after⟩ :=
      cursorOf_head
    rw [hcursor] at hat
    obtain ⟨page, answered, next, hanswered, hnodes, hadvance, hnext, hleft⟩ :=
      pageOf_turn hat host.last id
    rw [List.map_id] at hnodes
    obtain ⟨harrived, hother, hone⟩ := h.arrived.next hthread hheld hnext hleft
    refine ⟨{ s with
        pages := { s.pages with
          threads := s.pages.threads.modify index fun thread =>
            { thread with comments := thread.comments ++ page } }
        long := if next.more then (index, next.after) :: s.long else s.long },
      ?_, ⟨?_, ?_, harrived, h.conversation, h.reviews⟩, ?_, rfl⟩
    · simp only [Fetching.readThread, hpull index after _ rfl hthread, hanswered, hnodes,
        hadvance, bind, Except.bind]
    · rw [List.length_modify]
      exact h.threads
    · rw [List.length_modify]
      exact h.count
    · have hsum : ∑ other ∈ Finset.range feedback.threads.length,
            commentsLeft host s.pages.threads.length
              (if next.more then (index, next.after) :: s.long else s.long) other + 1 =
          s.threadsLeft host (some (index, after)) := sum_turn hbound hone hother
      rw [Fetching.left, Fetching.left, ← hsum]
      simp only [Fetching.threadsLeft, List.length_modify, Option.isSome_some, if_true,
        Option.toList_none, List.nil_append]
      omega

theorem Feedback.find?_id {index : ℕ} {thread : Thread}
    (h : feedback.threads[index]? = some thread) :
    feedback.threads.find? (fun other => other.id == thread.id) = some thread := by
  obtain ⟨hbound, rfl⟩ := List.getElem?_eq_some_iff.mp h
  refine List.find?_eq_some_iff_getElem.mpr ⟨by simp, index, hbound, rfl, fun earlier hlt => ?_⟩
  have hne := (List.nodup_iff_getElem?_ne_getElem?.mp feedback.ids) earlier index hlt
    (by rwa [List.length_map])
  rw [List.getElem?_map, List.getElem?_map, List.getElem?_eq_getElem hbound,
    List.getElem?_eq_getElem (hlt.trans hbound)] at hne
  simpa using hne

/-- One request turns at least one page, and what is held and what is left are the review. -/
theorem Fetching.Reads.turn (h : s.Reads host none) (hmore : s.finished = false) :
    ∃ read, s.turn host.answer = .ok read ∧ read.Reads host none ∧
      read.left host none < s.left host none ∧ read.pages.url = some feedback.url := by
  obtain ⟨pull, hpull⟩ : ∃ pull, host.answer s.request = .ok pull := ⟨_, rfl⟩
  have hanswer := Except.ok.inj hpull
  have hcost : pull.cost = some (host.cost s.request) := by rw [← hanswer]
  have hurl : pull.url = some feedback.url := by rw [← hanswer]
  obtain ⟨hcharged, hleft⟩ := h.charged (host.cost s.request) pull.url
  have hthreadsPage : (s.charged (host.cost s.request) pull.url).threads.more = true →
      pull.reviewThreads = pageOf host.threads host.last host.node
        (s.charged (host.cost s.request) pull.url).threads.after := by
    intro hwanted
    rw [← hanswer]
    exact if_pos hwanted
  obtain ⟨threads, hthreads, hreads, hless, hconv, hrev, hurl₁⟩ :=
    hcharged.readThreads hthreadsPage
  have hconversationPage : threads.conversation.more = true →
      pull.comments = pageOf host.conversation host.last id threads.conversation.after := by
    intro hwanted
    rw [hconv] at hwanted ⊢
    rw [← hanswer]
    exact if_pos hwanted
  obtain ⟨conversation, hconversation, hreads, hless₂, hrev₂, hurl₂⟩ :=
    hreads.readConversation hconversationPage
  have hreviewsPage : conversation.reviews.more = true →
      pull.reviews = pageOf host.reviews host.last id conversation.reviews.after := by
    intro hwanted
    rw [hrev₂, hrev] at hwanted ⊢
    rw [← hanswer]
    exact if_pos hwanted
  obtain ⟨reviews, hreviews, hreads, hless₃, hurl₃⟩ := hreads.readReviews hreviewsPage
  -- The thread that is asked for is the one at the head of the queue, by its id.
  have hthreadPage : ∀ index after thread, s.long.head? = some (index, after) →
      feedback.threads[index]? = some thread →
        pull.thread = pageOf (host.comments thread) host.last id after := by
    intro index after thread hinner hthread
    obtain ⟨rest, hlong⟩ : ∃ rest, s.long = (index, after) :: rest := by
      cases hqueue : s.long with
      | nil => rw [hqueue] at hinner; cases hinner
      | cons entry rest =>
        rw [hqueue] at hinner
        obtain rfl := Option.some.inj hinner
        exact ⟨rest, rfl⟩
    have hlt : index < s.pages.threads.length :=
      h.arrived.lt (index, after) (by rw [hlong]; exact List.mem_cons_self)
    obtain ⟨held, hheld, -⟩ := h.arrived.comments index thread hthread hlt
    rw [← hanswer]
    simp [Fetching.request, hlong, hheld, Feedback.find?_id hthread]
  obtain ⟨read, hread, hreads, hless₄, hurl₄⟩ := hreads.readThread hthreadPage
  refine ⟨read, ?_, hreads, ?_, ?_⟩
  · simp only [Fetching.turn, hpull, hcost, hthreads, hconversation, hreviews, hread, bind,
      Except.bind]
  · rw [hconv] at hless₂
    rw [hrev₂, hrev] at hless₃
    have hactive : 1 ≤ (if s.threads.more then 1 else 0) +
        (if s.conversation.more then 1 else 0) + (if s.reviews.more then 1 else 0) +
          (if s.long.head?.isSome then 1 else 0) := by
      unfold Fetching.finished at hmore
      cases hqueue : s.long with
      | nil =>
        rw [hqueue] at hmore
        cases ht : s.threads.more <;> cases hc : s.conversation.more <;>
          cases hr : s.reviews.more <;> simp_all
      | cons entry rest =>
        simp only [List.head?_cons, Option.isSome_some, if_true]
        omega
    change threads.left host s.long.head? + (if s.threads.more then 1 else 0) =
      (s.charged (host.cost s.request) pull.url).left host s.long.head? at hless
    change conversation.left host s.long.head? + (if s.conversation.more then 1 else 0) =
      threads.left host s.long.head? at hless₂
    change reviews.left host s.long.head? + (if s.reviews.more then 1 else 0) =
      conversation.left host s.long.head? at hless₃
    omega
  · rw [hurl₄, hurl₃, hurl₂, hurl₁, ← hanswer]
    rfl

theorem Fetching.Reads.holds (h : s.Reads host none) (hdone : s.finished = true)
    (hurl : s.pages.url = some feedback.url) : s.pages.Holds feedback := by
  simp only [Fetching.finished, Bool.and_eq_true, Bool.not_eq_true', List.isEmpty_iff] at hdone
  obtain ⟨⟨⟨hthreads, hconversation⟩, hreviews⟩, hlong⟩ := hdone
  refine ⟨hurl, ?_, ?_, ?_⟩
  · have htake := h.threads
    rw [hthreads] at htake
    have hlength : s.pages.threads.length = feedback.threads.length := by
      have hlen := congrArg List.length htake.done
      rw [List.length_take, Nat.min_eq_left h.count] at hlen
      exact hlen
    apply List.ext_getElem?
    intro index
    by_cases hlt : index < s.pages.threads.length
    · have hthread := List.getElem?_eq_getElem (hlength ▸ hlt)
      obtain ⟨held, hheld, hat⟩ := h.arrived.comments index _ hthread hlt
      rw [hlong] at hat
      obtain rfl := Split.At.done hat
      rw [hheld, hthread]
    · rw [List.getElem?_eq_none (by omega), List.getElem?_eq_none (by omega)]
  · have hat := h.conversation
    rw [hconversation] at hat
    exact hat.done
  · obtain ⟨held, hheld, hat⟩ := h.reviews
    rw [hreviews] at hat
    rw [hheld, hat.done]

theorem Fetching.Reads.fetch (turns : ℕ) (h : s.Reads host none)
    (hturns : s.left host none ≤ turns)
    (hurl : s.finished = true → s.pages.url = some feedback.url) :
    ∃ pages, Fetching.fetch host.answer turns s = .ok (some pages) ∧ pages.Holds feedback := by
  induction turns generalizing s with
  | zero =>
    have hdone : s.finished = true := by
      by_contra hmore
      obtain ⟨read, -, -, hless, -⟩ := h.turn (Bool.eq_false_iff.mpr hmore)
      omega
    refine ⟨s.pages, ?_, h.holds hdone (hurl hdone)⟩
    rw [Fetching.fetch, if_pos hdone]
  | succ turns ih =>
    by_cases hdone : s.finished = true
    · refine ⟨s.pages, ?_, h.holds hdone (hurl hdone)⟩
      rw [Fetching.fetch, if_pos hdone]
    · obtain ⟨read, hturn, hreads, hless, hread⟩ := h.turn (Bool.eq_false_iff.mpr hdone)
      obtain ⟨pages, hpages, hholds⟩ := ih hreads (by omega) fun _ => hread
      refine ⟨pages, ?_, hholds⟩
      rw [Fetching.fetch, if_neg hdone]
      simp only [hturn, bind, Except.bind]
      exact hpages

end Reads

section First

variable {feedback : Feedback} {host : Host feedback}

theorem advance_first {α β : Type} {items : List α} (split : Split Text items)
    (last : Option Text) (node : α → β) : ∃ answered after,
      pageOf split last node none = some answered ∧
        readNodes answered.nodes = .ok (split.first.map node) ∧
          Cursor.advance answered = .ok ⟨!split.rest.isEmpty, after⟩ := by
  refine ⟨⟨some !split.rest.isEmpty, (split.rest.head?.map Prod.fst).or last,
    split.first.map fun item => .ok (node item)⟩, (split.rest.head?.map Prod.fst).or last,
    rfl, readNodes_map split.first node, ?_⟩
  cases hrest : split.rest <;> simp [Cursor.advance]

theorem first_of_rest {α : Type} {items : List α} {split : Split Text items}
    (h : split.rest = []) : split.first = items := by
  have hwhole := split.whole
  rwa [h, List.flatMap_nil, List.append_nil] at hwhole

/-- The threads of a first page are all held where none has a further page of comments. -/
theorem firstThreads_nodes (threads : List Thread) :
    firstThreads (threads.map host.node) = .ok
      (if threads.all fun thread => (host.comments thread).rest.isEmpty then some threads
        else none) := by
  induction threads with
  | nil => rfl
  | cons thread threads ih =>
    obtain ⟨answered, after, hanswered, hnodes, hadvance⟩ :=
      advance_first (host.comments thread) host.last id
    rw [List.map_id] at hnodes
    have hcomments : (host.node thread).comments = some answered := hanswered
    cases hrest : (host.comments thread).rest with
    | nil =>
      rw [hrest] at hadvance
      rw [first_of_rest hrest] at hnodes
      have hthread : Thread.of (host.node thread) answered = .ok thread := by
        simp only [Thread.of, hnodes, bind, Except.bind]
        rfl
      have hall : ((thread :: threads).all fun thread =>
          (host.comments thread).rest.isEmpty) =
            threads.all fun thread => (host.comments thread).rest.isEmpty := by
        rw [List.all_cons, hrest]
        rfl
      rw [List.map_cons, firstThreads, hcomments, hall]
      simp only [connection, hadvance, hthread, ih, bind, Except.bind, List.isEmpty_nil,
        Bool.not_true, Bool.false_eq_true, if_false]
      split <;> rfl
    | cons entry rest =>
      rw [hrest] at hadvance
      have hall : ((thread :: threads).all fun thread =>
          (host.comments thread).rest.isEmpty) = false := by
        rw [List.all_cons, hrest]
        rfl
      rw [List.map_cons, firstThreads, hcomments, hall]
      simp only [connection, hadvance, bind, Except.bind, List.isEmpty_cons, Bool.not_false,
        if_true]
      rfl

/-- The first page answers the review exactly where no connection and no thread has a further
page. -/
theorem firstPage_first (host : Host feedback) : ∃ answered, firstPage host.first = .ok answered ∧
    (answered.isSome ↔ host.Single) ∧ ∀ pages ∈ answered, pages.Holds feedback ∧
      pages.points = 0 := by
  obtain ⟨threads, afterThreads, hthreads, hthreadNodes, hthreadsAt⟩ :=
    advance_first host.threads host.last host.node
  obtain ⟨conversation, afterConversation, hconversation, hcommentNodes, hconversationAt⟩ :=
    advance_first host.conversation host.last id
  obtain ⟨reviews, afterReviews, hreviews, hreviewNodes, hreviewsAt⟩ :=
    advance_first host.reviews host.last id
  rw [List.map_id] at hcommentNodes hreviewNodes
  have hpage : firstPage host.first = .ok
      (if (host.threads.first.all fun thread => (host.comments thread).rest.isEmpty) = true ∧
          host.threads.rest = [] ∧ host.conversation.rest = [] ∧ host.reviews.rest = [] then
        some ⟨some feedback.url, host.threads.first, host.conversation.first,
          host.reviews.first.map lowerState, 0⟩
      else none) := by
    simp only [firstPage, Host.first, hthreads, hconversation, hreviews, connection,
      hthreadNodes, hcommentNodes, hreviewNodes, firstThreads_nodes, hthreadsAt,
      hconversationAt, hreviewsAt, bind, Except.bind]
    cases (host.threads.first.all fun thread => (host.comments thread).rest.isEmpty) <;>
      cases host.threads.rest <;> cases host.conversation.rest <;> cases host.reviews.rest <;> rfl
  have hsingle : ((host.threads.first.all fun thread =>
        (host.comments thread).rest.isEmpty) = true ∧
      host.threads.rest = [] ∧ host.conversation.rest = [] ∧ host.reviews.rest = []) ↔
        host.Single := by
    rw [Host.Single, List.all_eq_true]
    simp only [List.isEmpty_iff]
    constructor
    · rintro ⟨hcomments, hrest, hothers⟩
      rw [first_of_rest hrest] at hcomments
      exact ⟨hrest, hcomments, hothers⟩
    · rintro ⟨hrest, hcomments, hothers⟩
      rw [first_of_rest hrest]
      exact ⟨hcomments, hrest, hothers⟩
  refine ⟨_, hpage, ?_, ?_⟩
  · rw [← hsingle]
    split <;> simp_all
  · intro pages hpages
    split at hpages
    · next hone =>
      obtain ⟨-, hthreadsOne, hconversationOne, hreviewsOne⟩ := hone
      obtain rfl := Option.mem_some.mp hpages
      refine ⟨⟨rfl, first_of_rest hthreadsOne, first_of_rest hconversationOne, ?_⟩, rfl⟩
      exact congrArg (List.map lowerState) (first_of_rest hreviewsOne)
    · cases hpages

end First

theorem Pages.Holds.eq {feedback : Feedback} {pages other : Pages} (h : pages.Holds feedback)
    (hother : other.Holds feedback) : { pages with points := 0 } = { other with points := 0 } := by
  rw [h.url, h.threads, h.conversation, h.reviews, ← hother.url, ← hother.threads,
    ← hother.conversation, ← hother.reviews]

/-- However a host splits a review into pages, the read ends after so many requests and holds
the review; and the first page, of this host's splitting or another's, answers it exactly where
no connection and no thread has a further page, and then as the read would hold it, but for what
the read cost. -/
theorem review_read_whole (feedback : Feedback) (host other : Host feedback) :
    (∃ turns fetched, Fetching.fetch host.answer turns .start = .ok (some fetched) ∧
      fetched.Holds feedback ∧
        ∀ pages, firstPage other.first = .ok (some pages) →
          pages = { fetched with points := 0 }) ∧
      ∃ answered, firstPage other.first = .ok answered ∧ (answered.isSome ↔ other.Single) := by
  have hstart : Fetching.start.Reads host none := Fetching.Reads.start
  obtain ⟨fetched, hfetched, hholds⟩ := hstart.fetch _ le_rfl fun hdone => by cases hdone
  obtain ⟨answered, hanswered, hsome, hfirst⟩ := firstPage_first other
  refine ⟨⟨_, fetched, hfetched, hholds, fun pages hpages => ?_⟩, answered, hanswered, hsome⟩
  obtain rfl := Except.ok.inj (hanswered.symm.trans hpages)
  obtain ⟨hpage, hpoints⟩ := hfirst pages rfl
  rw [← hpage.eq hholds, ← hpoints]

end Onevcs.Review
