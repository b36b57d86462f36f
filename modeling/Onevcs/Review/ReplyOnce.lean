import Onevcs.Foundations.Outcome
import Onevcs.Review.ReadRuns
import Onevcs.Review.Reply

/-!
# A keyed reply is posted once

Calls with one key on one change request post at most one reply, and every call that succeeds
answers it, in every run in which no call reads the replies while one that took a lock of another
name is between its read and its post: `reply_posted_once`. Calls that spell the change request's
URL alike take one lock and always meet this.
-/

namespace Onevcs.Review

open Foundations (System Text)

section Comments

variable {pages : Pages} {place : Place} {raw : Raw} {key : Text}

/-- Every comment of a change request, as a read answers it. -/
def Pages.comments (pages : Pages) : List ReviewComment := pages.entries.map Entry.comment

theorem answer_none {coding : Coding} {url : Text} (hurl : pages.url = some url) (about : Text) :
    ∃ read, answer coding pages none about = .ok read ∧ read.comments = pages.comments := by
  have hkept : Entry.isKept coding none = fun _ => true := by
    funext entry
    rfl
  refine ⟨_, answer_eq hurl rfl about, ?_⟩
  rw [hkept, Pages.comments]
  simp

/-- The comments of threads, as a read answers them. -/
def threadComments (threads : List Thread) : List ReviewComment :=
  threads.flatMap fun thread => thread.comments.map fun raw => raw.comment thread.kind

/-- The comments of the conversation, as a read answers them. -/
def conversationComments (raws : List Raw) : List ReviewComment :=
  raws.map fun raw => raw.comment .conversation

/-- The reviews, as a read answers them. -/
def reviewComments (reviews : List (Raw × Text)) : List ReviewComment :=
  (reviews.filter fun review => !isContainer review).map fun review =>
    review.1.comment (.review review.2)

theorem comments_eq (pages : Pages) : pages.comments =
    threadComments pages.threads ++
      (conversationComments pages.conversation ++ reviewComments pages.reviews) := by
  simp [Pages.comments, Pages.entries, threadComments, conversationComments, reviewComments,
    Entry.comment, List.map_flatMap, Function.comp_def]

theorem threadComments_add {threads : List Thread} {id : Text}
    (hnodup : (threads.map Thread.id).Nodup) (hid : id ∈ threads.map Thread.id) (raw : Raw) :
    ∃ before after kind, threadComments threads = before ++ after ∧
      threadComments (threads.map fun thread =>
        if thread.id = id then { thread with comments := thread.comments ++ [raw] } else thread) =
          before ++ raw.comment kind :: after := by
  obtain ⟨before, thread, after, rfl, -, hmap⟩ := Foundations.exists_map_if hnodup hid
    fun thread => { thread with comments := thread.comments ++ [raw] }
  refine ⟨threadComments before ++ thread.comments.map fun raw => raw.comment thread.kind,
    threadComments after, thread.kind, ?_, ?_⟩
  · simp [threadComments]
  · rw [hmap]
    simp [threadComments, Thread.kind]

/-- A comment that is created comes somewhere among the others, or is a review that no read
answers. -/
theorem comments_add (hthreads : (pages.threads.map Thread.id).Nodup)
    (hplace : pages.has place = true) (raw : Raw) :
    ∃ before after kind, pages.comments = before ++ after ∧
      ((pages.add raw place).comments = before ++ raw.comment kind :: after ∨
        place.isReview = true ∧ (pages.add raw place).comments = before ++ after) := by
  cases place with
  | thread id =>
    have hid : id ∈ pages.threads.map Thread.id := by
      obtain ⟨thread, hthread, heq⟩ := List.any_eq_true.mp hplace
      exact List.mem_map.mpr ⟨thread, hthread, by simpa using heq⟩
    obtain ⟨before, after, kind, hbefore, hafter⟩ := threadComments_add hthreads hid raw
    rw [comments_eq, comments_eq, hbefore]
    refine ⟨before, after ++ (conversationComments pages.conversation ++
      reviewComments pages.reviews), kind, List.append_assoc _ _ _, .inl ?_⟩
    rw [Pages.add, hafter, List.append_assoc]
    rfl
  | conversation =>
    rw [comments_eq, comments_eq]
    refine ⟨threadComments pages.threads ++ conversationComments pages.conversation,
      reviewComments pages.reviews, .conversation, (List.append_assoc _ _ _).symm, .inl ?_⟩
    rw [Pages.add, conversationComments, List.map_append, List.append_assoc, List.append_assoc]
    rfl
  | review state =>
    rw [comments_eq, comments_eq]
    refine ⟨threadComments pages.threads ++ (conversationComments pages.conversation ++
      reviewComments pages.reviews), [], .review state, (List.append_nil _).symm, ?_⟩
    by_cases hcontainer : isContainer (raw, state) = true
    · refine .inr ⟨rfl, ?_⟩
      simp [Pages.add, reviewComments, hcontainer]
    · refine .inl ?_
      simp [Pages.add, reviewComments, hcontainer]

theorem keyedReply_add_of_not_carries (hthreads : (pages.threads.map Thread.id).Nodup)
    (hplace : pages.has place = true)
    (hraw : ((parseMarker raw.body).any fun marker => marker.key = key) = false) :
    keyedReply (pages.add raw place).comments key = keyedReply pages.comments key := by
  obtain ⟨before, after, kind, hbefore, hafter | ⟨-, hafter⟩⟩ := comments_add hthreads hplace raw
  · have hnot : carries key (raw.comment kind) = false := hraw
    rw [hbefore, hafter, keyedReply, keyedReply, List.find?_append, List.find?_append,
      List.find?_cons_of_neg (by simp [hnot])]
  · rw [hbefore, hafter]

theorem keyedReply_add_of_carries (hthreads : (pages.threads.map Thread.id).Nodup)
    (hplace : pages.has place = true) (hreview : place.isReview = false)
    (hraw : ((parseMarker raw.body).any fun marker => marker.key = key) = true)
    (hnone : keyedReply pages.comments key = none) :
    ∃ reply, keyedReply (pages.add raw place).comments key = some reply ∧ reply.id = raw.id := by
  obtain ⟨before, after, kind, hbefore, hafter | ⟨hplaced, -⟩⟩ := comments_add hthreads hplace raw
  · have hcarries : carries key (raw.comment kind) = true := hraw
    have hfind : (before ++ after).find? (carries key) = none := by
      rw [← hbefore]
      exact Option.map_eq_none_iff.mp hnone
    have hbeforeNone : before.find? (carries key) = none := by
      rw [List.find?_append, Option.or_eq_none_iff] at hfind
      exact hfind.1
    rw [hafter, keyedReply, List.find?_append, hbeforeNone, List.find?_cons_of_pos hcarries]
    exact ⟨_, rfl, rfl⟩
  · rw [hreview] at hplaced
    cases hplaced

end Comments

namespace Replies

variable {π : Type} {coding : Coding} {parseUrl : Text → Option ParsedUrl}
  {target : Target} {key : Text} {s s' : Replies π} {p q : π} {call : Call} {phase : ReplyPhase}

def keyed (s : Replies π) (key : Text) : Option PostedReply := keyedReply s.pages.comments key

/-- The call writes the key, and reads the replies before it posts. -/
def Sound (key : Text) (call : Call) : Prop :=
  call.marker.checked = true ∧ call.marker.key = key ∧ call.verifiedAbsent = false

/-- What holds of a process: a call that has its lock holds it by name, and one that is about to
post found no keyed reply, and there is still none. -/
def Stands (s : Replies π) (key : Text) (p : π) : ReplyPhase → Prop
  | .idle => True
  | .waiting call => Sound key call
  | .locked call => Sound key call ∧ s.lock call.lockName = some p
  | .posting call _ => Sound key call ∧ s.lock call.lockName = some p ∧ s.keyed key = none

/-- What holds of every run in which no two calls of different locks overlap. -/
structure Steady (key : Text) (s : Replies π) : Prop where
  url : s.pages.url.isSome = true
  threads : (s.pages.threads.map Thread.id).Nodup
  stands : ∀ p, s.Stands key p (s.process p)
  sole : ∀ p q call other comment comment', s.process p = .posting call comment →
    s.process q = .posting other comment' → p = q
  posted : ∀ id ∈ s.posted, ∃ reply, s.keyed key = some reply ∧ reply.id = id
  answered : ∀ answer ∈ s.answered, ∃ reply, s.keyed key = some reply ∧ reply.id = answer.id
  one : s.posted.length ≤ 1
  fresh : (s.answered.filter fun reply => !reply.existing).length ≤ s.posted.length

theorem Steady.once (h : s.Steady key) : s.Once where
  posted := h.one
  fresh := h.fresh
  same answer hanswer id hid := by
    obtain ⟨reply, hreply, rfl⟩ := h.posted id hid
    obtain ⟨other, hother, hsame⟩ := h.answered answer hanswer
    rw [← hsame, Option.some.inj (hother.symm.trans hreply)]

theorem Initial.steady (h : s.Initial) : s.Steady key where
  url := h.url
  threads := h.threads
  stands p := by
    rw [h.process p]
    trivial
  sole p q call other comment comment' hp := by
    rw [h.process p] at hp
    cases hp
  posted id hid := by
    rw [h.posted] at hid
    cases hid
  answered answer hanswer := by
    rw [h.answered] at hanswer
    cases hanswer
  one := by
    rw [h.posted]
    exact Nat.zero_le 1
  fresh := by
    rw [h.answered]
    exact Nat.zero_le _

/-- What holds of a process holds while its locks and what is on the change request stay. -/
theorem Stands.later (h : s.Stands key p phase)
    (hlock : ∀ name, s.lock name = some p → s'.lock name = some p)
    (hpages : s'.pages = s.pages) : s'.Stands key p phase := by
  cases phase with
  | idle => trivial
  | waiting call => exact h
  | locked call => exact ⟨h.1, hlock _ h.2⟩
  | posting call comment =>
    refine ⟨h.1, hlock _ h.2.1, ?_⟩
    rw [keyed, hpages]
    exact h.2.2

theorem Steady.unsaid (h : s.Steady key) (hnone : s.keyed key = none) :
    s.posted = [] ∧ s.answered = [] := by
  constructor
  · refine List.eq_nil_iff_forall_not_mem.mpr fun id hid => ?_
    obtain ⟨reply, hreply, -⟩ := h.posted id hid
    rw [hnone] at hreply
    cases hreply
  · refine List.eq_nil_iff_forall_not_mem.mpr fun answer hanswer => ?_
    obtain ⟨reply, hreply, -⟩ := h.answered answer hanswer
    rw [hnone] at hreply
    cases hreply

theorem lock_update_of_ne {name : Text} (hheld : s.lock name = some p) (hq : q ≠ p) {other : Text}
    (hother : s.lock other = some q) : Function.update s.lock name none other = some q := by
  have hne : other ≠ name := by
    rintro rfl
    exact hq (Option.some.inj (hother.symm.trans hheld))
  rw [Function.update_of_ne hne]
  exact hother

theorem Steady.answer {answer : PostedReply} (h : s.Steady key) (hexisting : answer.existing = true)
    (hkeyed : s.keyed key = some answer) :
    ({ s with answered := answer :: s.answered } : Replies π).Steady key where
  url := h.url
  threads := h.threads
  stands q := (h.stands q).later (fun _ => id) rfl
  sole := h.sole
  posted := h.posted
  answered := List.forall_mem_cons.mpr ⟨⟨answer, hkeyed, rfl⟩, h.answered⟩
  one := h.one
  fresh := by
    rw [List.filter_cons_of_neg (by simp [hexisting])]
    exact h.fresh

theorem Steady.said {place : Place} {raw : Raw} (h : s.Steady key)
    (hplace : s.pages.has place = true)
    (hraw : ((parseMarker raw.body).any fun marker => marker.key = key) = false) :
    ({ s with pages := s.pages.add raw place } : Replies π).Steady key := by
  have hkeyed : ({ s with pages := s.pages.add raw place } : Replies π).keyed key = s.keyed key :=
    keyedReply_add_of_not_carries h.threads hplace hraw
  refine ⟨?_, ?_, fun p => ?_, h.sole, ?_, ?_, h.one, h.fresh⟩
  · cases place <;> exact h.url
  · show ((s.pages.add raw place).threads.map Thread.id).Nodup
    rw [Pages.threads_add]
    exact h.threads
  · have hbefore := h.stands p
    cases hphase : s.process p with
    | idle => trivial
    | waiting call =>
      rw [hphase] at hbefore
      exact hbefore
    | locked call =>
      rw [hphase] at hbefore
      exact hbefore
    | posting call comment =>
      rw [hphase] at hbefore
      exact ⟨hbefore.1, hbefore.2.1, hkeyed.trans hbefore.2.2⟩
  · rw [hkeyed]
    exact h.posted
  · rw [hkeyed]
    exact h.answered

theorem carries_body (hsound : Sound key call) (opening : Text) :
    ((parseMarker (opening ++ call.body)).any fun marker => marker.key = key) = true := by
  rw [Call.body, parseMarker_compose hsound.1]
  simpa using hsound.2.1

variable [DecidableEq π]

theorem Steady.move (h : s.Steady key) (hprocess : s'.process = Function.update s.process p phase)
    (hpages : s'.pages = s.pages) (hposted : s'.posted = s.posted)
    (hanswered : s'.answered = s.answered)
    (hlock : ∀ q, q ≠ p → ∀ name, s.lock name = some q → s'.lock name = some q)
    (hown : s'.Stands key p phase)
    (hsole : ∀ call comment, phase = .posting call comment → ∀ q, q ≠ p → ∀ other comment',
      s.process q ≠ .posting other comment') : s'.Steady key where
  url := hpages ▸ h.url
  threads := hpages ▸ h.threads
  stands q := by
    rw [hprocess]
    by_cases hq : q = p
    · rw [hq, Function.update_self]
      exact hown
    · rw [Function.update_of_ne hq]
      exact (h.stands q).later (hlock q hq) hpages
  sole q r call other comment comment' hqp hrp := by
    rw [hprocess] at hqp hrp
    by_cases hq : q = p
    · by_cases hr : r = p
      · rw [hq, hr]
      · rw [hq, Function.update_self] at hqp
        rw [Function.update_of_ne hr] at hrp
        exact absurd hrp (hsole _ _ hqp r hr _ _)
    · rw [Function.update_of_ne hq] at hqp
      by_cases hr : r = p
      · rw [hr, Function.update_self] at hrp
        exact absurd hqp (hsole _ _ hrp q hq _ _)
      · rw [Function.update_of_ne hr] at hrp
        exact h.sole q r call other comment comment' hqp hrp
  posted id hid := by
    rw [keyed, hpages]
    exact h.posted id (hposted ▸ hid)
  answered answer hanswer := by
    rw [keyed, hpages]
    exact h.answered answer (hanswered ▸ hanswer)
  one := hposted ▸ h.one
  fresh := by
    rw [hposted, hanswered]
    exact h.fresh

theorem Steady.leave (h : s.Steady key) (hheld : s.lock call.lockName = some p) :
    (s.leave p call).Steady key :=
  h.move rfl rfl rfl rfl (fun _ hq _ hother => lock_update_of_ne hheld hq hother) trivial nofun

theorem Steady.post {comment : Text} {place : Place} (h : s.Steady key)
    (hphase : s.process p = .posting call comment) (hsound : Sound key call)
    (hheld : s.lock call.lockName = some p) (hnone : s.keyed key = none)
    (hhas : s.pages.has place = true) (hreview : place.isReview = false) (opening : Text)
    (raw : Raw) (answers : Bool) :
    ({ s.leave p call with
      pages := s.pages.add { raw with body := opening ++ call.body } place
      posted := raw.id :: s.posted
      answered := if answers then ⟨raw.id, raw.url, place.isThread, false⟩ :: s.answered
        else s.answered } : Replies π).Steady key := by
  obtain ⟨hposted, hanswered⟩ := h.unsaid hnone
  have hcarries := carries_body hsound opening
  obtain ⟨reply, hkeyed, hid⟩ : ∃ reply, keyedReply (s.pages.add
      { raw with body := opening ++ call.body } place).comments key = some reply ∧ _ :=
    keyedReply_add_of_carries h.threads hhas hreview hcarries hnone
  have hleft := h.leave hheld
  have hidle : ∀ q other comment', (s.leave p call).process q ≠ .posting other comment' := by
    intro q other comment' hq
    have hupdate : Function.update s.process p .idle q = .posting other comment' := hq
    by_cases hqp : q = p
    · rw [hqp, Function.update_self] at hupdate
      cases hupdate
    · rw [Function.update_of_ne hqp] at hupdate
      exact hqp (h.sole q p other call comment' comment hupdate hphase)
  refine ⟨?_, ?_, fun q => ?_, fun q _ _ _ _ _ hq => (hidle q _ _ hq).elim, ?_, ?_, ?_, ?_⟩
  · cases place <;> exact h.url
  · show ((s.pages.add _ place).threads.map Thread.id).Nodup
    rw [Pages.threads_add]
    exact h.threads
  · have hbefore := hleft.stands q
    show Stands _ key q ((s.leave p call).process q)
    cases hq : (s.leave p call).process q with
    | idle => trivial
    | waiting other =>
      rw [hq] at hbefore
      exact hbefore
    | locked other =>
      rw [hq] at hbefore
      exact hbefore
    | posting other comment' => exact (hidle q other comment' hq).elim
  · intro id hmem
    rw [hposted] at hmem
    obtain rfl := List.mem_singleton.mp hmem
    exact ⟨reply, hkeyed, hid⟩
  · intro answer hmem
    cases answers with
    | false =>
      rw [hanswered] at hmem
      cases hmem
    | true =>
      rw [hanswered] at hmem
      obtain rfl := List.mem_singleton.mp hmem
      exact ⟨reply, hkeyed, hid⟩
  · rw [hposted]
    exact Nat.le_refl 1
  · rw [hposted, hanswered]
    cases answers
    · exact Nat.zero_le 1
    · exact Nat.le_refl 1

theorem of_checkedKey {asked checked : Text} (h : checkedKey asked = .ok checked) :
    asked = checked ∧ isMarkable asked = true := by
  simp only [checkedKey] at h
  split at h
  · cases h
  · split at h
    · cases h
    · next hmarkable => exact ⟨Except.ok.inj h, by simpa using hmarkable⟩

theorem of_checkedComment {asked checked : Text} (h : checkedComment asked = .ok checked) :
    asked = checked ∧ isMarkable asked = true := by
  simp only [checkedComment] at h
  split at h
  · cases h
  · next hmarkable => exact ⟨Except.ok.inj h, by simpa using hmarkable⟩

theorem of_checkedLabel {asked checked : Option Text} (h : checkedLabel asked = .ok checked) :
    asked = checked ∧ asked.all isToken = true := by
  cases asked with
  | none => exact ⟨Except.ok.inj h, rfl⟩
  | some label =>
    simp only [checkedLabel] at h
    split at h
    · cases h
    · next htoken => exact ⟨Except.ok.inj h, by simpa using htoken⟩

theorem sound_of_call {request : ReplyRequest} {found : Option SessionRequest}
    {screened : Option Text} (hkey : request.key = key) (hread : request.verifiedAbsent = false)
    (hcall : request.call parseUrl found screened = .ok call) : Sound key call := by
  simp only [ReplyRequest.call] at hcall
  split at hcall
  · cases hcall
  · obtain ⟨checked, hchecked, hcall⟩ := Foundations.bind_eq_ok.mp hcall
    obtain ⟨comment, hcomment, hcall⟩ := Foundations.bind_eq_ok.mp hcall
    obtain ⟨label, hlabel, hcall⟩ := Foundations.bind_eq_ok.mp hcall
    obtain ⟨addressed, -, hcall⟩ := Foundations.bind_eq_ok.mp hcall
    obtain ⟨rfl, hmarkable⟩ := of_checkedKey hchecked
    obtain ⟨rfl, hcommentMarkable⟩ := of_checkedComment hcomment
    obtain ⟨rfl, htoken⟩ := of_checkedLabel hlabel
    split at hcall
    · cases hcall
    · obtain rfl := Except.ok.inj hcall
      refine ⟨?_, hkey, hread⟩
      simp only [ReplyMarker.checked, hmarkable, hcommentMarkable, htoken, Bool.and_self]

theorem step_call {request : ReplyRequest} {found : Option SessionRequest}
    {screened : Option Text} (h : s.Steady key) (hread : request.verifiedAbsent = false)
    (hstep : s.actStep coding parseUrl target key p (.call request found screened) = some s') :
    s'.Steady key := by
  simp only [actStep] at hstep
  split at hstep
  · split at hstep
    · cases hstep
    · next hkey =>
      split at hstep
      · obtain rfl := Option.some.inj hstep
        exact h
      · next call hcall =>
        split at hstep
        · obtain rfl := Option.some.inj hstep
          have hsound := sound_of_call (not_not.mp hkey) hread hcall
          exact h.move rfl rfl rfl rfl (fun _ _ _ => id) hsound nofun
        · cases hstep
  · cases hstep

theorem step_take (h : s.Steady key)
    (hstep : s.actStep coding parseUrl target key p .take = some s') : s'.Steady key := by
  have hstands := h.stands p
  simp only [actStep] at hstep
  split at hstep
  · next call hphase =>
    rw [hphase] at hstands
    split at hstep
    · next hfree =>
      obtain rfl := Option.some.inj hstep
      refine h.move rfl rfl rfl rfl (fun q _ name hother => ?_)
        ⟨hstands, Function.update_self ..⟩ nofun
      have hne : name ≠ call.lockName := by
        rintro rfl
        rw [hfree] at hother
        cases hother
      show Function.update s.lock call.lockName (some p) name = some q
      rw [Function.update_of_ne hne]
      exact hother
    · cases hstep
  · cases hstep

theorem step_timeOut (h : s.Steady key)
    (hstep : s.actStep coding parseUrl target key p .timeOut = some s') : s'.Steady key := by
  simp only [actStep] at hstep
  split at hstep
  · obtain rfl := Option.some.inj hstep
    exact h.move rfl rfl rfl rfl (fun _ _ _ => id) trivial nofun
  · cases hstep

theorem step_read (h : s.Steady key) {answers : Bool}
    (hapart : s.Apart (.act p (.read answers)))
    (hstep : s.actStep coding parseUrl target key p (.read answers) = some s') :
    s'.Steady key := by
  have hstands := h.stands p
  obtain ⟨url, hurl⟩ := Option.isSome_iff_exists.mp h.url
  obtain ⟨read, hanswer, hcomments⟩ :
      ∃ read, answer coding s.pages none [] = .ok read ∧ read.comments = s.pages.comments :=
    answer_none hurl []
  simp only [actStep] at hstep
  split at hstep
  · next call hphase =>
    rw [hphase] at hstands
    obtain ⟨hsound, hheld⟩ := hstands
    rw [if_neg (by simp [hsound.2.2]), hanswer] at hstep
    split at hstep
    · obtain rfl := Option.some.inj hstep
      exact h.leave hheld
    · simp only [hcomments, hsound.2.1] at hstep
      split at hstep
      · next existing hkeyed =>
        obtain rfl := Option.some.inj hstep
        refine (h.leave hheld).answer ?_ hkeyed
        obtain ⟨found, -, rfl⟩ := Option.map_eq_some_iff.mp hkeyed
        rfl
      · next hkeyed =>
        split at hstep
        · obtain rfl := Option.some.inj hstep
          exact h.leave hheld
        · next comment hcomment =>
          obtain rfl := Option.some.inj hstep
          refine h.move rfl rfl rfl rfl (fun _ _ _ => id) ⟨hsound, hheld, hkeyed⟩ ?_
          intro _ _ _ q hq other comment' hposting
          have hother := h.stands q
          rw [hposting] at hother
          have hname : other.lockName = call.lockName := by
            simp only [Apart, hphase] at hapart
            simpa [ReplyPhase.postsUnder, hposting] using hapart q
          rw [← hname] at hheld
          exact hq (Option.some.inj (hother.2.1.symm.trans hheld))
  · cases hstep

theorem step_post (h : s.Steady key) {landed answers : Bool} {place : Place} {opening : Text}
    {raw : Raw}
    (hstep : s.actStep coding parseUrl target key p (.post landed answers place opening raw) =
      some s') : s'.Steady key := by
  have hstands := h.stands p
  simp only [actStep] at hstep
  split at hstep
  · next call comment hphase =>
    rw [hphase] at hstands
    obtain ⟨hsound, hheld, hnone⟩ := hstands
    split at hstep
    · obtain rfl := Option.some.inj hstep
      exact h.leave hheld
    · split at hstep
      · cases hstep
      · next hplace =>
        simp only [not_or, Bool.not_eq_true', Bool.not_eq_false, Bool.not_eq_true] at hplace
        obtain ⟨-, hhas, hreview⟩ := hplace
        obtain rfl := Option.some.inj hstep
        exact h.post hphase hsound hheld hnone hhas hreview opening raw answers
  · cases hstep

theorem Steady.step (h : s.Steady key) {label : ReplyLabel π} (hapart : s.Apart label)
    (hstep : s.step coding parseUrl target key label = some s') : s'.Steady key := by
  cases label with
  | act p act =>
    have hact : s.actStep coding parseUrl target key p act = some s' := hstep
    cases act with
    | call request found screened => exact step_call h hapart hact
    | take => exact step_take h hact
    | timeOut => exact step_timeOut h hact
    | read answers => exact step_read h hapart hact
    | post landed answers place opening raw => exact step_post h hact
  | stop p =>
    obtain rfl := Option.some.inj hstep
    have hstands := h.stands p
    rw [release]
    split
    · next call hphase =>
      rw [hphase] at hstands
      exact h.leave hstands.2
    · next call comment hphase =>
      rw [hphase] at hstands
      exact h.leave hstands.2.1
    · exact h.move rfl rfl rfl rfl (fun _ _ _ => id) trivial nofun
  | said place raw =>
    simp only [Replies.step] at hstep
    split at hstep
    · cases hstep
    · next hplace =>
      split at hstep
      · cases hstep
      · next hraw =>
        obtain rfl := Option.some.inj hstep
        simp only [not_or, Bool.not_eq_true', Bool.not_eq_false] at hplace
        exact h.said hplace.2 (by simpa using hraw)

end Replies

/-- At most one reply with the key is posted, and every other call that succeeds answers that reply,
in every run whose calls all read before they post and none of which reads while one that took a
lock of another name is between its read and its post. -/
theorem reply_posted_once {π : Type} [DecidableEq π] {coding : Coding}
    {parseUrl : Text → Option ParsedUrl} {target : Target} {key : Text} {s : Replies π}
    (h : (replies π coding parseUrl target key).ReachableBy Replies.Apart s) : s.Once :=
  (h.invariant (fun _ hinit => hinit.steady) fun _ _ _ hsteady hapart hstep =>
    hsteady.step hapart hstep).once

/-! ## Two spellings of one change request -/

/-- What the `url` crate takes a plain `https` URL apart into. -/
def splitUrl (text : Text) : Option ParsedUrl :=
  (Store.stripPrefix "https://".toList text).map fun rest =>
    ⟨"https".toList, (rest.splitOn '/').head?, some (rest.splitOn '/').tail⟩

def seventh : Target := ⟨"octo".toList, "repo".toList, 7⟩

/-- The change request, with one comment to answer. -/
def unanswered : Replies Bool where
  pages :=
    { url := some "https://github.com/Octo/Repo/pull/7".toList
      threads := []
      conversation := [⟨"IC_1".toList, "reviewer".toList, "why?".toList, [], [], [], none, none⟩]
      reviews := []
      points := 1 }
  lock := fun _ => none
  process := fun _ => .idle
  posted := []
  answered := []

theorem unanswered_initial : unanswered.Initial :=
  ⟨rfl, List.nodup_nil, fun _ => rfl, fun _ => rfl, rfl, rfl⟩

/-- A reply to the comment, asked for at a URL. -/
def replyAt (url : Text) : ReplyRequest :=
  ⟨.url url, "IC_1".toList, "because".toList, "k".toList, none, false⟩

/-- A reply as the host stores it. -/
def storedAs (id : Text) : Raw := ⟨id, "caller".toList, [], [], [], [], none, none⟩

abbrev calls : System (Replies Bool) (ReplyLabel Bool) :=
  replies Bool momentCoding splitUrl seventh "k".toList

/-- Both name the change request by its URL as the host prints it. -/
def sameUrl : List (ReplyLabel Bool) :=
  let request := replyAt "https://github.com/Octo/Repo/pull/7".toList
  [.act false (.call request none (some request.body)),
    .act true (.call request none (some request.body)),
    .act false .take, .act false (.read true),
    .act false (.post true true .conversation [] (storedAs "IC_2".toList)),
    .act true .take, .act true (.read true)]

theorem answeredOnce_runs : (calls.run unanswered sameUrl).isSome = true := by
  rfl

def answeredOnce : Replies Bool := (calls.run unanswered sameUrl).get answeredOnce_runs

theorem reply_posted_once_same_url :
    answeredOnce.Once ∧ answeredOnce.posted = ["IC_2".toList] ∧
      answeredOnce.answered.map PostedReply.existing = [true, false] :=
  ⟨reply_posted_once (System.reachableBy_of_run unanswered_initial (by decide +kernel)
      (Option.some_get answeredOnce_runs).symm),
    by decide +kernel, by decide +kernel⟩

/-- One of them spells the owner and the name in lower case. -/
def otherUrl : List (ReplyLabel Bool) :=
  let first := replyAt "https://github.com/Octo/Repo/pull/7".toList
  let second := replyAt "https://github.com/octo/repo/pull/7".toList
  [.act false (.call first none (some first.body)),
    .act true (.call second none (some second.body)),
    .act false .take, .act true .take, .act false (.read true), .act true (.read true),
    .act false (.post true true .conversation [] (storedAs "IC_2".toList)),
    .act true (.post true true .conversation [] (storedAs "IC_3".toList))]

theorem answeredTwice_runs : (calls.run unanswered otherUrl).isSome = true := by
  rfl

def answeredTwice : Replies Bool := (calls.run unanswered otherUrl).get answeredTwice_runs

/-- They take two locks, and each posts. -/
theorem reply_posted_twice : calls.Reachable answeredTwice ∧ ¬ answeredTwice.Once :=
  ⟨System.reachable_of_run unanswered_initial (Option.some_get answeredTwice_runs).symm,
    by decide +kernel⟩

end Onevcs.Review
