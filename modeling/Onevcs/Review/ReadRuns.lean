import Onevcs.Foundations.Firsts
import Onevcs.Review.MarkerJson

/-!
# What chained reads return

A read returns exactly the comments that were created or edited since the one before, and those
whose thread's flags moved, exactly where each comment edited in between shows another revision
than that read saw: `reads_exact_iff`. A revision is a digest of a comment's moments, which are
whole seconds.
-/

namespace Onevcs.Review

open Foundations (System Text)
open Store (stripPrefix)

section Maps

variable {α : Type} {key value : α → Text} {map : List (Text × Text)} {k k' v : Text}

theorem lookup_insert_self : (insert map k v).lookup k = some v := List.lookup_cons_self

theorem lookup_insert_of_ne (h : k ≠ k') : (insert map k v).lookup k' = map.lookup k' := by
  have hkey : (k' == k) = false := by simpa using Ne.symm h
  have hfilter : (map.filter fun entry => entry.1 ≠ k).lookup k' = map.lookup k' := by
    induction map with
    | nil => rfl
    | cons entry rest ih =>
      obtain ⟨other, value⟩ := entry
      by_cases hother : other = k
      · subst hother
        rw [List.filter_cons_of_neg (by simp), ih, List.lookup_cons, hkey]
      · rw [List.filter_cons_of_pos (by simpa using hother), List.lookup_cons, List.lookup_cons,
          ih]
  rw [insert, List.lookup_cons, hkey]
  exact hfilter

/-- Write each item of a list in a map. -/
def insertAll (key value : α → Text) (items : List α) (map : List (Text × Text)) :
    List (Text × Text) :=
  items.foldl (fun map item => insert map (key item) (value item)) map

theorem lookup_insertAll_of_not_mem {items : List α} (h : k ∉ items.map key) :
    (insertAll key value items map).lookup k = map.lookup k := by
  induction items generalizing map with
  | nil => rfl
  | cons first rest ih =>
    simp only [List.map_cons, List.mem_cons, not_or] at h
    rw [insertAll, List.foldl_cons]
    exact (ih h.2).trans (lookup_insert_of_ne (Ne.symm h.1))

theorem lookup_insertAll {items : List α} (hnodup : (items.map key).Nodup) {item : α}
    (h : item ∈ items) : (insertAll key value items map).lookup (key item) = some (value item) := by
  induction items generalizing map with
  | nil => cases h
  | cons first rest ih =>
    rw [List.map_cons, List.nodup_cons] at hnodup
    rcases List.mem_cons.mp h with rfl | hrest
    · exact (lookup_insertAll_of_not_mem hnodup.1).trans lookup_insert_self
    · exact ih hnodup.2 hrest

theorem insertAll_append (first rest : List α) :
    insertAll key value (first ++ rest) map =
      insertAll key value rest (insertAll key value first map) :=
  List.foldl_append

end Maps

section Answers

variable {coding : Coding} {pages : Pages} {seen : Option Seen} {kept : Kept} {url : Text}

theorem decode_encode (hjson : ∀ seen, coding.ofJson (coding.toJson seen) = some seen)
    (now : Seen) : Seen.decode coding (now.encode coding) now.url = .ok now := by
  have hread : ((stripPrefix markerPrefix (now.encode coding)).bind Base64.decode).bind
      coding.ofJson = some now := by
    rw [Seen.encode, stripPrefix_append, Option.bind_some, Base64.decode_encode, Option.bind_some,
      hjson]
  rw [Seen.decode, hread]
  exact if_neg (not_not_intro rfl)

/-! ## One read -/

/-- The comments of one list that a read keeps. -/
def keptOf (coding : Coding) (seen : Option Seen) (kind : CommentKind) (moved : Bool)
    (raws : List Raw) : List ReviewComment :=
  (raws.filter (changed coding seen moved)).map fun raw => raw.comment kind

theorem foldl_keep (kind : CommentKind) (moved : Bool) (raws : List Raw) :
    raws.foldl (keep coding seen kind moved) kept =
      ⟨kept.comments ++ keptOf coding seen kind moved raws,
        { kept.now with
          comments := insertAll Raw.id (Raw.revision coding) raws kept.now.comments }⟩ := by
  induction raws generalizing kept with
  | nil => simp [keptOf, insertAll]
  | cons raw rest ih =>
    rw [List.foldl_cons, ih]
    by_cases hchanged : changed coding seen moved raw = true
    · simp [keep, keptOf, insertAll, hchanged]
    · simp [keep, keptOf, insertAll, hchanged]

namespace Entry

/-- The flags of the comment's thread are not what they were seen to be. -/
def moved (seen : Option Seen) (entry : Entry) : Bool := entry.thread.any (Thread.moved seen)

/-- The comment is one that a read keeps. -/
def isKept (coding : Coding) (seen : Option Seen) (entry : Entry) : Bool :=
  changed coding seen (entry.moved seen) entry.raw

end Entry

theorem keptOf_eq (kind : CommentKind) (thread : Option Thread) (raws : List Raw) :
    keptOf coding seen kind (thread.any (Thread.moved seen)) raws =
      (((raws.map fun raw => (⟨raw, kind, thread⟩ : Entry)).filter
        (Entry.isKept coding seen)).map Entry.comment) := by
  rw [keptOf, List.filter_map, List.map_map]
  rfl

/-- The threads of a change request, as entries. -/
def threadEntries (threads : List Thread) : List Entry :=
  threads.flatMap fun thread => thread.comments.map fun raw => ⟨raw, thread.kind, some thread⟩

theorem foldl_keepThread (threads : List Thread) :
    threads.foldl (keepThread coding seen) kept =
      ⟨kept.comments ++ ((threadEntries threads).filter (Entry.isKept coding seen)).map Entry.comment,
        { kept.now with
          comments := insertAll Raw.id (Raw.revision coding) (threads.flatMap Thread.comments)
            kept.now.comments
          threads := insertAll Thread.id (fun thread => Seen.flags thread.resolved thread.outdated)
            threads kept.now.threads }⟩ := by
  induction threads generalizing kept with
  | nil => simp [threadEntries, insertAll]
  | cons thread rest ih =>
    have hthread : keptOf coding seen thread.kind (thread.moved seen) thread.comments = _ :=
      keptOf_eq thread.kind (some thread) thread.comments
    rw [List.foldl_cons, ih, keepThread, foldl_keep, hthread]
    simp only [threadEntries, List.flatMap_cons, List.filter_append, List.map_append,
      List.append_assoc, insertAll_append]
    rfl

theorem foldl_keepReview (reviews : List (Raw × Text)) :
    reviews.foldl (keepReview coding seen) kept =
      ⟨kept.comments ++ (((reviews.filter fun review => !isContainer review).map fun review =>
          (⟨review.1, .review review.2, none⟩ : Entry)).filter
            (Entry.isKept coding seen)).map Entry.comment,
        { kept.now with
          comments := insertAll Raw.id (Raw.revision coding)
            ((reviews.filter fun review => !isContainer review).map Prod.fst)
            kept.now.comments }⟩ := by
  induction reviews generalizing kept with
  | nil => simp [insertAll]
  | cons review rest ih =>
    rw [List.foldl_cons, ih, keepReview]
    by_cases hcontainer : isContainer review = true
    · simp [hcontainer]
    · by_cases hkept : changed coding seen false review.1 = true
      · simp [hcontainer, keep, hkept, Entry.isKept, Entry.moved, Entry.comment, insertAll]
      · simp [hcontainer, keep, hkept, Entry.isKept, Entry.moved, insertAll]

/-- What a marker remembers of a change request. -/
def Pages.remembered (coding : Coding) (pages : Pages) (url : Text) : Seen where
  url := url
  comments := insertAll Raw.id (Raw.revision coding) pages.shown []
  threads := insertAll Thread.id (fun thread => Seen.flags thread.resolved thread.outdated)
    pages.threads []

theorem answer_eq (hurl : pages.url = some url) {since : Option Text}
    (hseen : decodeSince coding since url = .ok seen) (about : Text) :
    answer coding pages since about =
      .ok {
        changeUrl := url
        comments := (pages.entries.filter (Entry.isKept coding seen)).map Entry.comment
        marker := (pages.remembered coding url).encode coding
        unchanged := seen.isSome &&
          ((pages.entries.filter (Entry.isKept coding seen)).map Entry.comment).isEmpty
        cost := ⟨pages.points, 0⟩ } := by
  have hconversation : keptOf coding seen .conversation false pages.conversation = _ :=
    keptOf_eq .conversation none pages.conversation
  rw [answer, hurl]
  simp only [hseen, Except.map, foldl_keepThread, foldl_keep, foldl_keepReview, hconversation]
  simp [Pages.entries, threadEntries, Pages.remembered, Pages.shown, insertAll_append]

/-! ## What a marker remembers -/

theorem flags_eq_iff {resolved outdated resolved' outdated' : Bool} :
    Seen.flags resolved outdated = Seen.flags resolved' outdated' ↔
      resolved = resolved' ∧ outdated = outdated' := by
  cases resolved <;> cases outdated <;> cases resolved' <;> cases outdated' <;> decide

theorem moved_remembered (hthreads : (pages.threads.map Thread.id).Nodup) (thread : Thread) :
    thread.moved (some (pages.remembered coding url)) = pages.movedSince thread := by
  rw [Thread.moved, Pages.movedSince, Pages.remembered]
  cases hfind : pages.threads.find? fun was => was.id = thread.id with
  | none =>
    have hnone : thread.id ∉ pages.threads.map Thread.id := by
      intro hmem
      obtain ⟨was, hwas, hid⟩ := List.mem_map.mp hmem
      simpa [hid] using List.find?_eq_none.mp hfind was hwas
    rw [lookup_insertAll_of_not_mem hnone]
    rfl
  | some was =>
    have hwas := List.mem_of_find?_eq_some hfind
    have hid : was.id = thread.id := by simpa using List.find?_some hfind
    rw [← hid, lookup_insertAll hthreads hwas]
    show (_ != _) = (_ || _)
    rw [Bool.eq_iff_iff, bne_iff_ne, Bool.or_eq_true, bne_iff_ne, bne_iff_ne, Ne, flags_eq_iff,
      not_and_or]

theorem lookup_remembered (hshown : (pages.shown.map Raw.id).Nodup) {raw : Raw}
    (h : raw ∈ pages.shown) :
    (pages.remembered coding url).comments.lookup raw.id = some (raw.revision coding) :=
  lookup_insertAll hshown h

theorem lookup_remembered_eq_none {id : Text} (h : id ∉ pages.shown.map Raw.id) :
    (pages.remembered coding url).comments.lookup id = none :=
  lookup_insertAll_of_not_mem h

theorem shown_sublist (pages : Pages) : pages.shown.Sublist pages.raws :=
  (List.Sublist.refl _).append (List.filter_sublist.map Prod.fst)

theorem shown_nodup (h : (pages.raws.map Raw.id).Nodup) : (pages.shown.map Raw.id).Nodup :=
  ((shown_sublist pages).map Raw.id).nodup h

theorem entries_raw (pages : Pages) : pages.entries.map Entry.raw = pages.shown := by
  simp [Pages.entries, Pages.shown, List.map_flatMap, Function.comp_def]

end Answers

namespace Pages

variable {pages : Pages} {raw new : Raw} {place : Place} {id body moment : Text}

theorem mem_shown : raw ∈ pages.shown ↔
    (∃ thread ∈ pages.threads, raw ∈ thread.comments) ∨ raw ∈ pages.conversation ∨
      ∃ review ∈ pages.reviews, isContainer review = false ∧ review.1 = raw := by
  simp only [shown, List.mem_append, List.mem_flatMap, List.mem_map, List.mem_filter,
    Bool.not_eq_true', or_assoc, and_assoc]

theorem mem_shown_add (h : raw ∈ (pages.add new place).shown) : raw = new ∨ raw ∈ pages.shown := by
  rw [mem_shown] at h ⊢
  cases place with
  | thread id =>
    rcases h with ⟨thread, hthread, hraw⟩ | hrest
    · obtain ⟨before, hbefore, rfl⟩ := List.mem_map.mp hthread
      split at hraw
      · rcases List.mem_append.mp hraw with hraw | hraw
        · exact .inr (.inl ⟨before, hbefore, hraw⟩)
        · exact .inl (List.mem_singleton.mp hraw)
      · exact .inr (.inl ⟨before, hbefore, hraw⟩)
    · exact .inr (.inr hrest)
  | conversation =>
    rcases h with hthread | hraw | hreview
    · exact .inr (.inl hthread)
    · rcases List.mem_append.mp hraw with hraw | hraw
      · exact .inr (.inr (.inl hraw))
      · exact .inl (List.mem_singleton.mp hraw)
    · exact .inr (.inr (.inr hreview))
  | review state =>
    rcases h with hthread | hraw | ⟨review, hreview, hshown, rfl⟩
    · exact .inr (.inl hthread)
    · exact .inr (.inr (.inl hraw))
    · rcases List.mem_append.mp hreview with hreview | hreview
      · exact .inr (.inr (.inr ⟨review, hreview, hshown, rfl⟩))
      · exact .inl (by rw [List.mem_singleton.mp hreview])

theorem edit_id : (raw.edit id body moment).id = raw.id := by
  rw [Raw.edit]
  split <;> rfl

theorem edit_of_ne (h : raw.id ≠ id) : raw.edit id body moment = raw := if_neg h

theorem mem_shown_edit (h : raw ∈ (pages.mapRaw (Raw.edit id body moment)).shown) :
    raw.id = id ∨ raw ∈ pages.shown := by
  by_cases hid : raw.id = id
  · exact .inl hid
  · have hback : ∀ before : Raw, before.edit id body moment = raw → before = raw := by
      intro before heq
      have hbefore : before.id ≠ id := fun hb => hid (by rw [← heq, edit_id, hb])
      rwa [edit_of_ne hbefore] at heq
    rw [mem_shown] at h ⊢
    rcases h with ⟨thread, hthread, hraw⟩ | hraw | ⟨review, hreview, hshown, rfl⟩
    · obtain ⟨before, hbefore, rfl⟩ := List.mem_map.mp hthread
      obtain ⟨old, hold, heq⟩ := List.mem_map.mp hraw
      exact .inr (.inl ⟨before, hbefore, hback old heq ▸ hold⟩)
    · obtain ⟨old, hold, heq⟩ := List.mem_map.mp hraw
      exact .inr (.inr (.inl (hback old heq ▸ hold)))
    · obtain ⟨old, hold, rfl⟩ := List.mem_map.mp hreview
      have hsame : old.1 = old.1.edit id body moment := hback old.1 rfl
      have hreview : old = (old.1.edit id body moment, old.2) := Prod.ext hsame rfl
      exact .inr (.inr (.inr ⟨old, hold, (congrArg isContainer hreview).trans hshown, hsame⟩))

theorem raws_mapRaw (f : Raw → Raw) : (pages.mapRaw f).raws = pages.raws.map f := by
  simp [raws, mapRaw, List.map_flatMap, List.flatMap_map, Function.comp_def]

theorem raws_edit : (pages.mapRaw (Raw.edit id body moment)).raws.map Raw.id =
    pages.raws.map Raw.id := by
  rw [raws_mapRaw, List.map_map]
  exact congrArg (List.map · pages.raws) (funext fun raw => edit_id)

theorem comments_setFlags (thread : Text) (resolved outdated : Bool) :
    (pages.setFlags thread resolved outdated).threads.flatMap Thread.comments =
      pages.threads.flatMap Thread.comments := by
  rw [setFlags, List.flatMap_map]
  refine congrArg (List.flatMap · pages.threads) (funext fun thread => ?_)
  split <;> rfl

theorem raws_setFlags (thread : Text) (resolved outdated : Bool) :
    (pages.setFlags thread resolved outdated).raws = pages.raws := by
  rw [raws, comments_setFlags]
  rfl

theorem shown_setFlags (thread : Text) (resolved outdated : Bool) :
    (pages.setFlags thread resolved outdated).shown = pages.shown := by
  rw [shown, comments_setFlags]
  rfl

theorem threads_setFlags (thread : Text) (resolved outdated : Bool) :
    (pages.setFlags thread resolved outdated).threads.map Thread.id =
      pages.threads.map Thread.id := by
  rw [setFlags, List.map_map]
  refine congrArg (List.map · pages.threads) (funext fun thread => ?_)
  rw [Function.comp_apply]
  split <;> rfl

theorem threads_add : (pages.add new place).threads.map Thread.id = pages.threads.map Thread.id := by
  cases place with
  | thread id =>
    rw [add, List.map_map]
    refine congrArg (List.map · pages.threads) (funext fun thread => ?_)
    rw [Function.comp_apply]
    split <;> rfl
  | conversation => rfl
  | review state => rfl

theorem flatMap_add_perm {threads : List Thread} (hnodup : (threads.map Thread.id).Nodup)
    (hid : id ∈ threads.map Thread.id) (new : Raw) :
    ((threads.map fun thread =>
        if thread.id = id then { thread with comments := thread.comments ++ [new] }
        else thread).flatMap Thread.comments).Perm
      (new :: threads.flatMap Thread.comments) := by
  obtain ⟨before, thread, after, rfl, -, hmap⟩ := Foundations.exists_map_if hnodup hid
    fun thread => { thread with comments := thread.comments ++ [new] }
  simp only [hmap, List.flatMap_append, List.flatMap_cons, List.append_assoc,
    List.singleton_append]
  exact (List.perm_middle.append_left _).trans List.perm_middle

theorem raws_add (hthreads : (pages.threads.map Thread.id).Nodup) (hplace : pages.has place = true)
    (new : Raw) : (pages.add new place).raws.Perm (new :: pages.raws) := by
  cases place with
  | thread id =>
    have hid : id ∈ pages.threads.map Thread.id := by
      obtain ⟨thread, hthread, heq⟩ := List.any_eq_true.mp hplace
      exact List.mem_map.mpr ⟨thread, hthread, by simpa using heq⟩
    rw [raws, raws, List.append_assoc, List.append_assoc]
    exact (flatMap_add_perm hthreads hid new).append_right _
  | conversation =>
    rw [raws, raws, add, List.append_assoc, List.append_assoc, List.append_assoc]
    exact (List.perm_middle.append_left _).trans List.perm_middle
  | review state =>
    rw [raws, raws, add, List.map_append]
    have hlast : (pages.threads.flatMap Thread.comments ++ pages.conversation ++
        (pages.reviews.map Prod.fst ++ [new])).Perm
        (pages.threads.flatMap Thread.comments ++ pages.conversation ++
          (new :: pages.reviews.map Prod.fst)) :=
      List.perm_append_singleton new _ |>.append_left _
    exact hlast.trans List.perm_middle

end Pages

namespace World

variable {coding : Coding} {moment : ℕ → Text} {s s' : World} {last : Pages} {url : Text}

/-- What the reader's marker says of the previous read, and what that read says of now. -/
structure Remembers (coding : Coding) (s : World) (url : Text) (last : Pages) : Prop where
  named : last.url = some url
  marker : s.marker = some ((last.remembered coding url).encode coding)
  raws : (last.raws.map Raw.id).Nodup
  threads : (last.threads.map Thread.id).Nodup
  untouched : ∀ raw ∈ s.pages.shown, raw.id ∉ s.touched → raw ∈ last.shown

/-- What holds of every history. -/
structure Known (coding : Coding) (url : Text) (s : World) : Prop where
  named : s.pages.url = some url
  raws : (s.pages.raws.map Raw.id).Nodup
  threads : (s.pages.threads.map Thread.id).Nodup
  fresh : s.last = none → s.marker = none
  remembers : ∀ last, s.last = some last → s.Remembers coding url last

/-- A comment is kept by a read where it is wanted, and is wanted where it is kept. -/
theorem isKept_iff (hremembers : s.Remembers coding url last) (hlast : s.last = some last)
    {entry : Entry} (hentry : entry ∈ s.pages.entries) :
    entry.isKept coding (some (last.remembered coding url)) = true ↔
      s.wants entry = true ∧
        (entry.raw.id ∉ s.touched ∨ entry.movedSince last = true ∨
          ∀ was ∈ last.shown, was.id = entry.raw.id →
            was.revision coding ≠ entry.raw.revision coding) := by
  have hmoved : entry.moved (some (last.remembered coding url)) = entry.movedSince last := by
    rw [Entry.moved, Entry.movedSince]
    cases entry.thread with
    | none => rfl
    | some thread => exact moved_remembered hremembers.threads thread
  have hwants : s.wants entry =
      (decide (entry.raw.id ∈ s.touched) || entry.movedSince last) := by
    rw [wants, hlast]
  have hraw : entry.raw ∈ s.pages.shown := by
    rw [← entries_raw]
    exact List.mem_map_of_mem hentry
  have hnodup := shown_nodup hremembers.raws
  rw [Entry.isKept, changed, hmoved, hwants]
  by_cases hflags : entry.movedSince last = true
  · simp [hflags]
  · by_cases htouched : entry.raw.id ∈ s.touched
    · have hdiffers : (last.remembered coding url).comments.lookup entry.raw.id ≠
            some (entry.raw.revision coding) ↔
          ∀ was ∈ last.shown, was.id = entry.raw.id →
            was.revision coding ≠ entry.raw.revision coding := by
        constructor
        · intro hne was hwas hid hsame
          apply hne
          rw [← hid, lookup_remembered hnodup hwas, hsame]
        · intro hne hlookup
          by_cases hseen : entry.raw.id ∈ last.shown.map Raw.id
          · obtain ⟨was, hwas, hid⟩ := List.mem_map.mp hseen
            rw [← hid, lookup_remembered hnodup hwas] at hlookup
            exact hne was hwas hid (Option.some.inj hlookup)
          · rw [lookup_remembered_eq_none hseen] at hlookup
            cases hlookup
      simpa [hflags, htouched] using hdiffers
    · have hsame := hremembers.untouched entry.raw hraw htouched
      rw [lookup_remembered hnodup hsame]
      simp [hflags, htouched]

/-- Filters of a list whose items are told apart are the same where they take the same items. -/
theorem filter_eq_iff {α β : Type} {p q : α → Bool} {f : α → β} {l : List α}
    (hnodup : (l.map f).Nodup) (himp : ∀ a ∈ l, p a = true → q a = true) :
    (l.filter p).map f = (l.filter q).map f ↔ ∀ a ∈ l, q a = true → p a = true := by
  constructor
  · intro heq a ha hq
    have hmem : f a ∈ (l.filter p).map f :=
      heq ▸ List.mem_map_of_mem (List.mem_filter.mpr ⟨ha, hq⟩)
    obtain ⟨b, hb, hfb⟩ := List.mem_map.mp hmem
    obtain ⟨hbl, hp⟩ := List.mem_filter.mp hb
    obtain rfl := List.inj_on_of_nodup_map hnodup hbl ha hfb
    exact hp
  · intro himp'
    congr 1
    exact List.filter_congr fun a ha => Bool.eq_iff_iff.mpr ⟨himp a ha, himp' a ha⟩

theorem entries_nodup (h : (s.pages.raws.map Raw.id).Nodup) :
    (s.pages.entries.map Entry.comment).Nodup := by
  have hids : (s.pages.entries.map fun entry => entry.comment.id).Nodup := by
    have heq : (s.pages.entries.map fun entry => entry.comment.id) = s.pages.shown.map Raw.id := by
      rw [← entries_raw, List.map_map]
      rfl
    rw [heq]
    exact shown_nodup h
  exact List.Nodup.of_map ReviewComment.id (by rwa [List.map_map])

theorem decodeSince_eq (hjson : ∀ seen, coding.ofJson (coding.toJson seen) = some seen)
    (hremembers : s.Remembers coding url last) :
    decodeSince coding s.marker url = .ok (some (last.remembered coding url)) := by
  have hdecode : Seen.decode coding ((last.remembered coding url).encode coding) url = .ok _ :=
    decode_encode hjson (last.remembered coding url)
  rw [hremembers.marker]
  simp only [decodeSince, hdecode]
  rfl

theorem exact_ok_iff {first : Bool} {wanted : List ReviewComment} {review : ReviewRead} :
    (⟨first, wanted, .ok review⟩ : Answered).Exact ↔
      review.comments = wanted ∧ review.unchanged = (!first && review.comments.isEmpty) := by
  constructor
  · rintro ⟨other, hother, hexact⟩
    obtain rfl := Except.ok.inj hother
    exact hexact
  · exact fun hexact => ⟨review, rfl, hexact⟩

theorem shows_iff (hlast : s.last = some last) :
    s.shows coding .read = true ↔ ∀ entry ∈ s.pages.entries,
      entry.raw.id ∉ s.touched ∨ entry.movedSince last = true ∨
        ∀ was ∈ last.shown, was.id = entry.raw.id →
          was.revision coding ≠ entry.raw.revision coding := by
  rw [shows, hlast]
  simp only [List.all_eq_true, Bool.or_eq_true, decide_eq_true_eq, bne_iff_ne, or_assoc]
  refine forall_congr' fun entry => forall_congr' fun _ => or_congr_right (or_congr_right ?_)
  exact forall_congr' fun was => forall_congr' fun _ => imp_iff_not_or.symm

/-- The read that comes next answers, and is exact where what was edited shows. -/
theorem exact_iff (hjson : ∀ seen, coding.ofJson (coding.toJson seen) = some seen)
    (hknown : s.Known coding url) :
    ∃ review, answer coding s.pages s.marker [] = .ok review ∧
      review.marker = (s.pages.remembered coding url).encode coding ∧
      ((⟨s.marker.isNone, s.wanted, .ok review⟩ : Answered).Exact ↔ s.shows coding .read = true) := by
  cases hlast : s.last with
  | none =>
    have hmarker := hknown.fresh hlast
    have hsince : decodeSince coding s.marker url = .ok none := by rw [hmarker]; rfl
    refine ⟨_, answer_eq hknown.named hsince [], rfl, ?_⟩
    have hshows : s.shows coding .read = true := by rw [shows, hlast]
    have hkept : Entry.isKept coding none = fun _ => true := by
      funext entry
      rfl
    have hwants : s.wants = fun _ => true := by
      funext entry
      rw [wants, hlast]
    refine iff_of_true ⟨_, rfl, ?_, ?_⟩ hshows
    · rw [wanted, hkept, hwants]
    · rw [hmarker]
      rfl
  | some last =>
    have hremembers := hknown.remembers last hlast
    refine ⟨_, answer_eq hknown.named (decodeSince_eq hjson hremembers) [], rfl, ?_⟩
    have hfilter := filter_eq_iff (entries_nodup hknown.raws) fun entry hentry hkept =>
      ((isKept_iff hremembers hlast hentry).mp hkept).1
    have hnotFirst : s.marker.isNone = false := by rw [hremembers.marker]; rfl
    rw [exact_ok_iff, hnotFirst, shows_iff hlast]
    refine ⟨fun hexact entry hentry => ?_, fun hshows => ⟨hfilter.mpr fun entry hentry hwants => ?_, rfl⟩⟩
    · by_cases hwants : s.wants entry = true
      · exact ((isKept_iff hremembers hlast hentry).mp
          (hfilter.mp hexact.1 entry hentry hwants)).2
      · refine .inl fun htouched => hwants ?_
        rw [wants, hlast]
        simp [htouched]
    · exact (isKept_iff hremembers hlast hentry).mpr ⟨hwants, hshows entry hentry⟩

/-- What happens between two reads leaves what the previous one says of every comment that it does
not touch. -/
theorem Remembers.later (h : s.Remembers coding url last) (hmarker : s'.marker = s.marker)
    (hlater : ∀ raw ∈ s'.pages.shown, raw.id ∉ s'.touched →
      raw ∈ s.pages.shown ∧ raw.id ∉ s.touched) :
    s'.Remembers coding url last where
  named := h.named
  marker := hmarker.trans h.marker
  raws := h.raws
  threads := h.threads
  untouched raw hraw htouched :=
    h.untouched raw (hlater raw hraw htouched).1 (hlater raw hraw htouched).2

theorem Known.later (h : s.Known coding url) (hurl : s'.pages.url = s.pages.url)
    (hraws : (s'.pages.raws.map Raw.id).Nodup) (hthreads : (s'.pages.threads.map Thread.id).Nodup)
    (hmarker : s'.marker = s.marker) (hlast : s'.last = s.last)
    (hlater : ∀ raw ∈ s'.pages.shown, raw.id ∉ s'.touched →
      raw ∈ s.pages.shown ∧ raw.id ∉ s.touched) :
    s'.Known coding url where
  named := hurl.trans h.named
  raws := hraws
  threads := hthreads
  fresh hnone := hmarker.trans (h.fresh (hlast.symm.trans hnone))
  remembers last hsome := (h.remembers last (hlast.symm.trans hsome)).later hmarker hlater

/-- One step keeps what is known of a history, and its reads exact where what was edited shows. -/
theorem Known.step (hjson : ∀ seen, coding.ofJson (coding.toJson seen) = some seen)
    (h : s.Known coding url) {label : Label} (hstep : s.step coding moment label = some s') :
    s'.Known coding url ∧ (s.Exact → (s'.Exact ↔ s.shows coding label = true)) := by
  cases label with
  | tick =>
    obtain rfl := Option.some.inj hstep
    refine ⟨h.later rfl h.raws h.threads rfl rfl fun raw hraw htouched => ⟨hraw, htouched⟩, ?_⟩
    exact fun hexact => iff_of_true hexact rfl
  | openThread id path line =>
    simp only [World.step] at hstep
    split at hstep
    · cases hstep
    · next hid =>
      obtain rfl := Option.some.inj hstep
      refine ⟨h.later rfl ?_ ?_ rfl rfl fun raw hraw htouched => ⟨?_, htouched⟩,
        fun hexact => iff_of_true hexact rfl⟩
      · simpa [Pages.raws] using h.raws
      · rw [List.map_append, List.nodup_append]
        refine ⟨h.threads, List.nodup_singleton _, ?_⟩
        rintro a ha b hb rfl
        rw [List.map_singleton, List.mem_singleton] at hb
        obtain rfl : a = id := hb
        exact hid ha
      · simpa [Pages.shown] using hraw
  | comment place id author body web replyTo =>
    simp only [World.step] at hstep
    split at hstep
    · cases hstep
    · next hplace =>
      obtain ⟨hid, hhas⟩ := not_or.mp hplace
      obtain rfl := Option.some.inj hstep
      refine ⟨h.later ?_ ?_ ?_ rfl rfl fun raw hraw htouched => ?_,
        fun hexact => iff_of_true hexact rfl⟩
      · cases place <;> rfl
      · have hperm := Pages.raws_add h.threads (Bool.not_eq_false _ ▸ hhas)
          ⟨id, author, body, web, moment s.clock, moment s.clock, none, replyTo⟩
        exact (hperm.map Raw.id).nodup_iff.mpr (List.nodup_cons.mpr ⟨hid, h.raws⟩)
      · rw [Pages.threads_add]
        exact h.threads
      · rw [List.mem_cons, not_or] at htouched
        refine ⟨(Pages.mem_shown_add hraw).resolve_left ?_, htouched.2⟩
        rintro rfl
        exact htouched.1 rfl
  | edit id body =>
    simp only [World.step] at hstep
    split at hstep
    · obtain rfl := Option.some.inj hstep
      refine ⟨h.later rfl ?_ ?_ rfl rfl fun raw hraw htouched => ?_,
        fun hexact => iff_of_true hexact rfl⟩
      · rw [Pages.raws_edit]
        exact h.raws
      · simpa [Pages.mapRaw, Function.comp_def] using h.threads
      · rw [List.mem_cons, not_or] at htouched
        exact ⟨(Pages.mem_shown_edit hraw).resolve_left htouched.1, htouched.2⟩
    · cases hstep
  | setFlags thread resolved outdated =>
    obtain rfl := Option.some.inj hstep
    refine ⟨h.later rfl ?_ ?_ rfl rfl fun raw hraw htouched => ?_,
      fun hexact => iff_of_true hexact rfl⟩
    · rw [Pages.raws_setFlags]
      exact h.raws
    · rw [Pages.threads_setFlags]
      exact h.threads
    · rw [Pages.shown_setFlags] at hraw
      exact ⟨hraw, htouched⟩
  | read =>
    obtain ⟨review, hanswer, hmarker, hexact⟩ := exact_iff hjson h
    simp only [World.step, hanswer] at hstep
    obtain rfl := Option.some.inj hstep
    refine ⟨⟨h.named, h.raws, h.threads, nofun, ?_⟩, fun hbefore => ?_⟩
    · intro last hlast
      obtain rfl := Option.some.inj hlast
      exact ⟨h.named, congrArg some hmarker, h.raws, h.threads, fun raw hraw _ => hraw⟩
    · rw [← hexact]
      exact ⟨fun hall => hall _ List.mem_cons_self,
        fun hnow => List.forall_mem_cons.mpr ⟨hnow, hbefore⟩⟩

theorem Initial.known (h : s.Initial) : ∃ url, s.Known coding url := by
  obtain ⟨url, hurl⟩ := Option.isSome_iff_exists.mp h.url
  exact ⟨url, hurl, h.raws, h.threads, fun _ => h.marker,
    fun last hlast => nomatch h.last.symm.trans hlast⟩

end World

/-- Every read of a history returns exactly the comments that were created or edited since the one
before and those whose thread's flags moved, and says that nothing changed exactly where it was
passed a marker and returns nothing, exactly where each comment that was edited between two reads
shows another revision to the second than it did to the first. -/
theorem reads_exact_iff {coding : Coding} {moment : ℕ → Text}
    (hjson : ∀ seen, coding.ofJson (coding.toJson seen) = some seen) {s : World}
    (hinit : s.Initial) (labels : List Label) :
    (history coding moment).Throughout World.Exact s labels ↔
      (history coding moment).RunMeets (fun s label => s.shows coding label = true) s labels := by
  obtain ⟨url, hknown⟩ : ∃ url, s.Known coding url := hinit.known
  have hexact : s.Exact := by
    rw [World.Exact, hinit.log]
    exact fun _ hanswered => nomatch hanswered
  refine System.throughout_iff_runMeets_of_invariant (fun s label s' hinv _ _ hstep => ?_)
    (fun s label s' hinv h hstep => ?_) (fun s label hinv h hstep => ?_) hknown hexact labels
  · exact (hinv.step hjson hstep).1
  · exact (hinv.step hjson hstep).2 h
  · cases label with
    | read =>
      obtain ⟨review, hanswer, -, -⟩ := World.exact_iff hjson hinv
      simp only [history, World.step, hanswer] at hstep
      cases hstep
    | tick => rfl
    | openThread id path line => rfl
    | comment place id author body url replyTo => rfl
    | edit id body => rfl
    | setFlags thread resolved outdated => rfl

/-! ## Two edits in one second -/

/-- The second it is, as the host spells it. -/
def spellMoment (second : ℕ) : Text :=
  "2026-01-01T00:00:0".toList ++ [Char.ofNat (48 + second), 'Z']

def digestOfMoments (text : Text) : Text :=
  if text = spellMoment 0 ++ ['|'] then
    "4dda31131cc718f9d11a1bd48364b644cadade36ec9590baed4d327b5818ca0f".toList
  else if text = spellMoment 1 ++ '|' :: spellMoment 1 then
    "dcbdd094eb8d37aa4f742e8964b78199432ed91ec6675b65b6079d83e6410661".toList
  else if text = spellMoment 2 ++ '|' :: spellMoment 2 then
    "e70413a3861f9e27d4ad23f34f026f197744903bfaa139b0dbc98533bb1a4b28".toList
  else text

def momentCoding : Coding := ⟨digestOfMoments, MarkerJson.toJson, MarkerJson.ofJson⟩

/-- A change request with nothing on it yet. -/
def unread : World where
  pages := ⟨some "https://github.com/o/r/pull/7".toList, [], [], [], 1⟩
  clock := 0
  marker := none
  last := none
  touched := []
  log := []

theorem unread_initial : unread.Initial := ⟨rfl, List.nodup_nil, List.nodup_nil, rfl, rfl, rfl⟩

/-- A comment is created and read, and edited and read in each of the next two seconds. -/
def editsApart : List Label :=
  [.comment .conversation "IC_1".toList "a".toList "one".toList [] none, .read,
    .tick, .edit "IC_1".toList "two".toList, .read,
    .tick, .edit "IC_1".toList "three".toList, .read]

theorem reads_exact_edits_apart :
    (((history momentCoding spellMoment).run unread editsApart).isSome = true) ∧
      (history momentCoding spellMoment).Throughout World.Exact unread editsApart :=
  ⟨by decide +kernel,
    (reads_exact_iff MarkerJson.ofJson_toJson unread_initial editsApart).mpr (by decide +kernel)⟩

/-- It is edited, read, edited again in the same second, and read. -/
def editsTogether : List Label :=
  [.comment .conversation "IC_1".toList "a".toList "one".toList [] none, .read,
    .tick, .edit "IC_1".toList "two".toList, .read, .edit "IC_1".toList "three".toList, .read]

theorem missed_runs :
    ((history momentCoding spellMoment).run unread editsTogether).isSome = true := by
  decide +kernel

def missed : World := ((history momentCoding spellMoment).run unread editsTogether).get missed_runs

/-- The second edit is not returned, and the read says that nothing changed. -/
theorem edit_missed :
    (history momentCoding spellMoment).Reachable missed ∧ ¬ missed.Exact :=
  ⟨System.reachable_of_run unread_initial (Option.some_get missed_runs).symm,
    by decide +kernel⟩

end Onevcs.Review
