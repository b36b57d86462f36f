import Mathlib.Data.List.Nodup
import Onevcs.Foundations.Transition
import Onevcs.Streams.EventStreamRuns

/-!
# Which call delivers a release

`Correlated::fresh` by itself, called over and over while the release record grows, while
records of it that name no landing are put right, and while the landing of the session
becomes known.

A call takes a release of the landing off the record as soon as it comes to it, and may
still fail on a later one. The runs below are those in which a call that fails has taken
none that its filter matches.
-/

namespace Onevcs.Streams

open Foundations (System)

variable {ν δ : Type}

namespace Correlated

variable {correlated after : Correlated} {filter : Envelope ν δ → Bool} {landing : ObjectId}
  {lines : List (Entry ν δ)}

/-- A release of the landing that the filter matches comes before one that names no
commit. -/
def precedesUnnamed (filter : Envelope ν δ → Bool) (landing : ObjectId) :
    List (Envelope ν δ) → Bool
  | [] => false
  | e :: rest =>
    if e.names.isNone then false
    else if e.names = some landing && filter e then rest.any fun later => later.names.isNone
    else precedesUnnamed filter landing rest

/-- A call that fails has taken a release that its filter matches. -/
def loses (correlated : Correlated) (filter : Envelope ν δ → Bool) (opening : Opening)
    (lines : List (Entry ν δ)) (landedAt : Option ObjectId) : Bool :=
  match opening with
  | .notFound | .failed _ => false
  | .opened =>
    lines.all (attributable correlated.token) &&
      (correlated.landing.or landedAt).any fun landing =>
        precedesUnnamed filter landing (correlated.pending lines)

/-- What a correlation takes before it fails are releases of the landing that the filter
does not match, where none that it matches comes first. -/
theorem hand_error {gathered : List (Envelope ν δ × Nat)} {refusal : Refusal}
    (hnone : precedesUnnamed filter landing (gathered.map Prod.fst) = false)
    (h : hand filter landing gathered correlated = (.error refusal, after)) :
    after.token = correlated.token ∧ after.landing = correlated.landing ∧
      (∀ n ∈ correlated.handed, n ∈ after.handed) ∧
      ∀ n ∈ after.handed, n ∈ correlated.handed ∨
        ∃ e ∈ gathered.map Prod.fst, e.names = some landing ∧ filter e = false ∧ e.seq = n := by
  induction gathered generalizing correlated refusal with
  | nil => cases (Prod.mk.inj h).1
  | cons candidate gathered ih =>
    obtain ⟨envelope, number⟩ := candidate
    unfold hand at h
    rw [List.map_cons] at hnone ⊢
    unfold precedesUnnamed at hnone
    cases hnames : envelope.names with
    | none =>
      simp only [hnames] at h
      obtain rfl := (Prod.mk.inj h).2
      exact ⟨rfl, rfl, fun n hn => hn, fun n hn => .inl hn⟩
    | some named =>
      simp only [hnames, Option.isNone_some, Bool.false_eq_true, if_false] at h hnone
      by_cases hsame : named = landing
      · subst hsame
        simp only [ne_eq, not_true, if_false] at h
        -- had the filter matched this one, nothing after it could fail
        by_cases hmatch : filter envelope = true
        · simp only [decide_true, hmatch, Bool.and_true, if_true] at hnone
          have hall : (gathered.map Prod.fst).all (fun e => e.names.isSome) = true := by
            simpa [List.any_eq_false, Option.isSome_iff_ne_none] using hnone
          have hok : ∃ events later, hand filter named gathered
              { correlated with handed := envelope.seq :: correlated.handed } =
                (.ok events, later) := hand_isOk _ hall
          obtain ⟨events, later, hrest⟩ := hok
          rw [hrest] at h
          cases (Prod.mk.inj h).1
        · simp only [hmatch, Bool.and_false, Bool.false_eq_true, if_false] at hnone
          cases hrest : hand filter named gathered
              { correlated with handed := envelope.seq :: correlated.handed } with
          | mk answer later =>
            rw [hrest] at h
            obtain ⟨hanswer, rfl⟩ := Prod.mk.inj h
            cases answer with
            | ok fresh => cases hanswer
            | error refused =>
              obtain ⟨htoken, hlanding, hkept, htaken⟩ := ih hnone hrest
              refine ⟨htoken, hlanding,
                fun n hn => hkept n (List.mem_cons_of_mem _ hn), fun n hn => ?_⟩
              rcases htaken n hn with hn | ⟨e, he, hfound⟩
              · rcases List.mem_cons.mp hn with rfl | hn
                · exact .inr ⟨envelope, List.mem_cons_self, hnames,
                    Bool.eq_false_iff.mpr hmatch, rfl⟩
                · exact .inl hn
              · exact .inr ⟨e, List.mem_cons_of_mem _ he, hfound⟩
      · have hother : ¬(some named = some landing) := fun heq => hsame (Option.some.inj heq)
        simp only [ne_eq, hsame, not_false_iff, if_true] at h
        simp only [hother, decide_false, Bool.false_and, Bool.false_eq_true, if_false] at hnone
        obtain ⟨htoken, hlanding, hkept, htaken⟩ := ih hnone h
        refine ⟨htoken, hlanding, hkept, fun n hn => ?_⟩
        rcases htaken n hn with hn | ⟨e, he, hfound⟩
        · exact .inl hn
        · exact .inr ⟨e, List.mem_cons_of_mem _ he, hfound⟩

/-- A call that succeeds knowing the landing returns the releases of it that were not taken
and that the filter matches, and has taken every release of it. -/
theorem fresh_ok_of_landing {landedAt : Option ObjectId} {events : List (Envelope ν δ)}
    (hlanding : correlated.landing.or landedAt = some landing)
    (h : correlated.fresh filter .opened lines landedAt = (.ok events, after)) :
    events = (correlated.pending lines).filter (fun e => e.names = some landing && filter e) ∧
      after.token = correlated.token ∧
      (after = correlated ∨ after.landing = some landing) ∧
      ∀ n, n ∈ after.handed ↔ n ∈ correlated.handed ∨
        ∃ e ∈ correlated.pending lines, e.names = some landing ∧ e.seq = n := by
  unfold fresh at h
  simp only [hlanding] at h
  split at h
  · cases (Prod.mk.inj h).1
  · next hnone =>
    obtain ⟨hevents, rfl⟩ := Prod.mk.inj h
    obtain rfl := Except.ok.inj hevents
    rw [← candidates_ok hnone]
    simp
  · next first rest hsome =>
    obtain ⟨hevents, -, htoken, hafter, hhanded⟩ := hand_ok h
    rw [candidates_ok hsome] at hevents hhanded
    exact ⟨hevents, htoken, .inr hafter, hhanded⟩

/-- A call that succeeds on a record that is there, without knowing the landing, changes
nothing. -/
theorem fresh_ok_of_unknown {opening : Opening} {landedAt : Option ObjectId}
    {events : List (Envelope ν δ)}
    (hunknown : opening = .notFound ∨ correlated.landing.or landedAt = none)
    (h : correlated.fresh filter opening lines landedAt = (.ok events, after)) :
    events = [] ∧ after = correlated := by
  unfold fresh at h
  cases opening with
  | notFound => exact ⟨(Except.ok.inj (Prod.mk.inj h).1).symm, (Prod.mk.inj h).2.symm⟩
  | failed why => cases (Prod.mk.inj h).1
  | opened =>
    have hlanding := hunknown.resolve_left (by rintro ⟨⟩)
    simp only [hlanding] at h
    split at h
    · cases (Prod.mk.inj h).1
    · exact ⟨(Except.ok.inj (Prod.mk.inj h).1).symm, (Prod.mk.inj h).2.symm⟩
    · exact ⟨(Except.ok.inj (Prod.mk.inj h).1).symm, (Prod.mk.inj h).2.symm⟩

/-- A call that fails and loses nothing changes nothing, or has taken only releases of the
landing that the filter does not match. -/
theorem fresh_error_of_not_loses {opening : Opening} {landedAt : Option ObjectId}
    {refusal : Refusal} (hkeeps : correlated.loses filter opening lines landedAt = false)
    (h : correlated.fresh filter opening lines landedAt = (.error refusal, after)) :
    after = correlated ∨ ∃ landing, correlated.landing.or landedAt = some landing ∧
      after.token = correlated.token ∧ after.landing = some landing ∧
        (∀ n ∈ correlated.handed, n ∈ after.handed) ∧
        ∀ n ∈ after.handed, n ∈ correlated.handed ∨
          ∃ e ∈ correlated.pending lines,
            e.names = some landing ∧ filter e = false ∧ e.seq = n := by
  unfold fresh at h
  cases opening with
  | notFound => cases (Prod.mk.inj h).1
  | failed why => exact .inl (Prod.mk.inj h).2.symm
  | opened =>
    simp only at h
    split at h
    · exact .inl (Prod.mk.inj h).2.symm
    · cases (Prod.mk.inj h).1
    · next first rest hsome =>
      have hlines := (candidates_isOk_iff 1).mp ⟨_, hsome⟩
      cases hlanding : correlated.landing.or landedAt with
      | none =>
        simp only [hlanding] at h
        cases (Prod.mk.inj h).1
      | some landing =>
        simp only [hlanding] at h
        simp only [loses, hlines, Bool.true_and, hlanding, Option.any_some,
          ← candidates_ok hsome] at hkeeps
        obtain ⟨htoken, hafter, hkept, htaken⟩ := hand_error hkeeps h
        rw [candidates_ok hsome] at htaken
        exact .inr ⟨landing, rfl, htoken, hafter, hkept, htaken⟩

end Correlated

/-! ## Calling over and over -/

/-- One call: the record and the landing it met, and what it answered. -/
structure Call (ν δ : Type) where
  lines : List (Entry ν δ)
  landing : Option ObjectId
  answer : Except Refusal (List (Envelope ν δ))

namespace Call

/-- What the call returned, where it succeeded. -/
def returned (call : Call ν δ) : List (Envelope ν δ) := call.answer.toOption.getD []

/-- The call succeeded, and the release was recorded and its landing known by then. -/
def Awaited (token : String) (call : Call ν δ) (e : Envelope ν δ) : Prop :=
  call.answer.isOk = true ∧ e ∈ Correlated.releases token call.lines ∧
    e.names.isSome ∧ e.names = call.landing

end Call

/-- A reader of one record of releases, the landing of its session once it is known, and the
calls it has made. -/
structure Following (ν δ : Type) where
  lines : List (Entry ν δ)
  landing : Option ObjectId
  filter : Envelope ν δ → Bool
  reader : Correlated
  calls : List (Call ν δ)

namespace Following

inductive Act (ν δ : Type)
  | record (entry : Entry ν δ)
  | mend (k : Nat) (entry : Entry ν δ)
  | land (commit : ObjectId)
  | fresh (opening : Opening)

variable (s : Following ν δ)

/-- The record comes to hold these lines, where no two releases share a number. -/
def recorded (lines : List (Entry ν δ)) : Option (Following ν δ) :=
  if Correlated.Distinct s.reader.token lines then some { s with lines := lines } else none

def step : Act ν δ → Option (Following ν δ)
  | .record entry => s.recorded (s.lines ++ [entry])
  | .mend k entry =>
    -- A line is put right where it holds no release that names its landing.
    if s.lines[k]?.all fun old =>
        (Correlated.release s.reader.token old).all fun e => e.names.isNone then
      s.recorded (s.lines.set k entry)
    else none
  | .land commit => if s.landing.isNone then some { s with landing := some commit } else none
  | .fresh opening =>
    -- Only a record nothing was ever written to is not found.
    if opening = .notFound ∧ s.lines ≠ [] then none
    else
      let (answer, reader) := s.reader.fresh s.filter opening s.lines s.landing
      some { s with reader := reader, calls := s.calls ++ [⟨s.lines, s.landing, answer⟩] }

/-- The call of the step, if it is one, loses nothing. -/
def keeps : Act ν δ → Bool
  | .fresh opening => !s.reader.loses s.filter opening s.lines s.landing
  | _ => true

end Following

/-- A reader that was just opened. -/
def following (ν δ : Type) : System (Following ν δ) (Following.Act ν δ) where
  Initial s := s.reader.handed = [] ∧ s.reader.landing = none ∧ s.calls = [] ∧
    Correlated.Distinct s.reader.token s.lines
  step := Following.step

/-- Every call of a list returns a release exactly where it is the first that awaited it. -/
def FirstAwaiting (token : String) (calls : List (Call ν δ)) (e : Envelope ν δ) : Prop :=
  ∀ before call after, calls = before ++ call :: after →
    (e ∈ call.returned ↔ call.Awaited token e ∧ ∀ earlier ∈ before, ¬earlier.Awaited token e)

theorem FirstAwaiting.concat {token : String} {calls : List (Call ν δ)} {e : Envelope ν δ}
    (h : FirstAwaiting token calls e) {call : Call ν δ}
    (hcall : e ∈ call.returned ↔
      call.Awaited token e ∧ ∀ earlier ∈ calls, ¬earlier.Awaited token e) :
    FirstAwaiting token (calls ++ [call]) e := by
  intro before found after hsplit
  rcases List.eq_nil_or_concat after with rfl | ⟨rest, last, rfl⟩
  · obtain ⟨rfl, hlast⟩ := List.append_inj' hsplit rfl
    obtain rfl : call = found := List.singleton_inj.mp hlast
    exact hcall
  · rw [List.concat_eq_append, ← List.cons_append, ← List.append_assoc] at hsplit
    obtain ⟨hcalls, -⟩ := List.append_inj' hsplit rfl
    exact h before found rest hcalls

namespace Following

variable {s s' : Following ν δ}

/-- What the reader has taken, and what its calls returned. -/
structure Delivered (s : Following ν δ) : Prop where
  accounts : s.reader.Accounts s.lines
  known : ∀ landing, s.reader.landing = some landing → s.landing = some landing
  stays : ∀ call ∈ s.calls, (∀ landing, call.landing = some landing → s.landing = some landing) ∧
    ∀ e ∈ Correlated.releases s.reader.token call.lines, e.names.isSome →
      e ∈ Correlated.releases s.reader.token s.lines
  taken : ∀ e ∈ Correlated.releases s.reader.token s.lines, s.filter e = true →
    e.names.isSome → e.names = s.landing →
      (e.seq ∈ s.reader.handed ↔ ∃ call ∈ s.calls, call.Awaited s.reader.token e)
  nodup : ∀ call ∈ s.calls, call.returned.Nodup
  first : ∀ e, s.filter e = true → FirstAwaiting s.reader.token s.calls e

theorem Delivered.of_awaited (h : s.Delivered) {call : Call ν δ} (hcall : call ∈ s.calls)
    {e : Envelope ν δ} (hawaited : call.Awaited s.reader.token e) :
    e ∈ Correlated.releases s.reader.token s.lines ∧ e.names = s.landing := by
  obtain ⟨-, hmem, hnames, hlanding⟩ := hawaited
  obtain ⟨landing, hsome⟩ := Option.isSome_iff_exists.mp hnames
  refine ⟨(h.stays call hcall).2 e hmem hnames, ?_⟩
  rw [hsome]
  exact ((h.stays call hcall).1 landing (hlanding.symm.trans hsome)).symm

/-- The record may change where the releases that name a landing stay on it. -/
theorem Delivered.lines (h : s.Delivered) {lines : List (Entry ν δ)}
    (hdistinct : Correlated.Distinct s.reader.token lines)
    (hstay : ∀ e ∈ Correlated.releases s.reader.token s.lines, e.names.isSome →
      e ∈ Correlated.releases s.reader.token lines) :
    ({ s with lines := lines } : Following ν δ).Delivered where
  accounts := by
    refine ⟨hdistinct, fun n hn => ?_⟩
    obtain ⟨landing, hlanding, e, he, hnames, hseq⟩ := h.accounts.handed n hn
    exact ⟨landing, hlanding, e, hstay e he (by rw [hnames]; rfl), hnames, hseq⟩
  known := h.known
  stays call hcall := ⟨(h.stays call hcall).1,
    fun e he hnames => hstay e ((h.stays call hcall).2 e he hnames) hnames⟩
  taken e he hfilter hnames hlanding := by
    constructor
    · intro hseq
      -- the number is that of a release that was there, and no two share one
      obtain ⟨landing, -, found, hfound, hfoundNames, hfoundSeq⟩ := h.accounts.handed _ hseq
      have hsame : found = e := List.inj_on_of_nodup_map hdistinct
        (hstay found hfound (by rw [hfoundNames]; rfl)) he hfoundSeq
      subst hsame
      exact (h.taken found hfound hfilter hnames hlanding).mp hseq
    · rintro ⟨call, hcall, hawaited⟩
      have hmem := (h.of_awaited hcall hawaited).1
      exact (h.taken e hmem hfilter hnames hlanding).mpr ⟨call, hcall, hawaited⟩
  nodup := h.nodup
  first := h.first

/-- What a correlation comes to have taken are releases of the landing, where all that is
new are releases of it on the record. -/
theorem accounts_of_taken {after : Correlated} {landing : ObjectId}
    (h : s.reader.Accounts s.lines) (hlanding : s.reader.landing.or s.landing = some landing)
    (htoken : after.token = s.reader.token) (hafter : after.landing = some landing)
    (htaken : ∀ n ∈ after.handed, n ∈ s.reader.handed ∨
      ∃ e ∈ Correlated.releases s.reader.token s.lines, e.names = some landing ∧ e.seq = n) :
    after.Accounts s.lines := by
  refine ⟨htoken ▸ h.distinct, fun n hn => ⟨landing, hafter, ?_⟩⟩
  rw [htoken]
  rcases htaken n hn with hn | hnew
  · obtain ⟨known, hknown, hfound⟩ := h.handed n hn
    rw [hknown] at hlanding
    obtain rfl : known = landing := Option.some.inj hlanding
    exact hfound
  · exact hnew

theorem Delivered.landing_eq (h : s.Delivered) : s.reader.landing.or s.landing = s.landing := by
  cases hknown : s.reader.landing with
  | none => rfl
  | some landing => exact (h.known landing hknown).symm

/-- One more call, which returns what it awaits and no call before it did. -/
theorem Delivered.call (h : s.Delivered) {after : Correlated}
    {answer : Except Refusal (List (Envelope ν δ))}
    (htoken : after.token = s.reader.token) (haccounts : after.Accounts s.lines)
    (hknown : ∀ landing, after.landing = some landing → s.landing = some landing)
    (hnodup : (Call.mk s.lines s.landing answer).returned.Nodup)
    (htaken : ∀ e ∈ Correlated.releases s.reader.token s.lines, s.filter e = true →
      e.names.isSome → e.names = s.landing →
        (e.seq ∈ after.handed ↔ e.seq ∈ s.reader.handed ∨
          (Call.mk s.lines s.landing answer).Awaited s.reader.token e))
    (hreturned : ∀ e, s.filter e = true →
      (e ∈ (Call.mk s.lines s.landing answer).returned ↔
        (Call.mk s.lines s.landing answer).Awaited s.reader.token e ∧
          e.seq ∉ s.reader.handed)) :
    ({ s with reader := after, calls := s.calls ++ [⟨s.lines, s.landing, answer⟩] } :
      Following ν δ).Delivered where
  accounts := haccounts
  known := hknown
  stays call hcall := by
    simp only [htoken]
    rcases List.mem_append.mp hcall with hcall | hcall
    · exact h.stays call hcall
    · obtain rfl := List.mem_singleton.mp hcall
      exact ⟨fun landing hlanding => hlanding, fun e he _ => he⟩
  taken e he hfilter hnames hlanding := by
    simp only [htoken] at he ⊢
    rw [htaken e he hfilter hnames hlanding, h.taken e he hfilter hnames hlanding]
    simp [or_and_right, exists_or]
  nodup call hcall := by
    rcases List.mem_append.mp hcall with hcall | hcall
    · exact h.nodup call hcall
    · obtain rfl := List.mem_singleton.mp hcall
      exact hnodup
  first e hfilter := by
    simp only [htoken]
    apply (h.first e hfilter).concat
    rw [hreturned e hfilter]
    apply and_congr_right
    rintro ⟨-, he, hnames, hlanding⟩
    rw [h.taken e he hfilter hnames hlanding]
    simp

theorem Delivered.call_idle (h : s.Delivered) {after : Correlated}
    {answer : Except Refusal (List (Envelope ν δ))}
    (htoken : after.token = s.reader.token) (haccounts : after.Accounts s.lines)
    (hknown : ∀ landing, after.landing = some landing → s.landing = some landing)
    (hidle : ∀ e, ¬(Call.mk s.lines s.landing answer).Awaited s.reader.token e)
    (hnone : (Call.mk s.lines s.landing answer).returned = [])
    (htaken : ∀ e ∈ Correlated.releases s.reader.token s.lines, s.filter e = true →
      (e.seq ∈ after.handed ↔ e.seq ∈ s.reader.handed)) :
    ({ s with reader := after, calls := s.calls ++ [⟨s.lines, s.landing, answer⟩] } :
      Following ν δ).Delivered := by
  apply h.call htoken haccounts hknown
  · rw [hnone]
    exact List.nodup_nil
  · intro e he hfilter _ _
    simp only [htaken e he hfilter, hidle e, or_false]
  · intro e _
    simp [hnone, hidle e]

theorem Delivered.fresh_ok (h : s.Delivered) {opening : Opening}
    {events : List (Envelope ν δ)} {after : Correlated}
    (hopening : ¬(opening = .notFound ∧ s.lines ≠ []))
    (hfresh : s.reader.fresh s.filter opening s.lines s.landing = (.ok events, after)) :
    ({ s with reader := after, calls := s.calls ++ [⟨s.lines, s.landing, .ok events⟩] } :
      Following ν δ).Delivered := by
  have hsame := h.landing_eq
  by_cases hunknown : opening = .notFound ∨ s.reader.landing.or s.landing = none
  · obtain ⟨rfl, rfl⟩ := Correlated.fresh_ok_of_unknown hunknown hfresh
    apply h.call_idle rfl h.accounts h.known _ rfl fun _ _ _ => Iff.rfl
    rintro e ⟨-, he, hnames, hlanding⟩
    rcases hunknown with hnotFound | hunknown
    · have hnil : s.lines = [] := by
        by_contra hlines
        exact hopening ⟨hnotFound, hlines⟩
      simp only [hnil] at he
      cases he
    · rw [hsame] at hunknown
      simp [hlanding, hunknown] at hnames
  · obtain ⟨hfound, hsome⟩ := not_or.mp hunknown
    obtain ⟨landing, hlanding⟩ := Option.ne_none_iff_exists'.mp hsome
    have hopened : opening = .opened := by
      cases opening with
      | opened => rfl
      | notFound => exact absurd rfl hfound
      | failed why => cases (Prod.mk.inj hfresh).1
    subst hopened
    obtain ⟨rfl, htoken, hafter, hhanded⟩ := Correlated.fresh_ok_of_landing hlanding hfresh
    rw [hsame] at hlanding
    have hawaited : ∀ e, (Call.mk s.lines s.landing (.ok ((s.reader.pending s.lines).filter
        fun e => e.names = some landing && s.filter e))).Awaited s.reader.token e ↔
          e ∈ Correlated.releases s.reader.token s.lines ∧ e.names = some landing := by
      intro e
      constructor
      · rintro ⟨-, he, -, hnames⟩
        exact ⟨he, hnames.trans hlanding⟩
      · rintro ⟨he, hnames⟩
        exact ⟨rfl, he, by rw [hnames]; rfl, hnames.trans hlanding.symm⟩
    apply h.call htoken
    · rcases hafter with rfl | hafter
      · exact h.accounts
      · apply accounts_of_taken h.accounts (hsame.trans hlanding) htoken hafter
        intro n hn
        rcases (hhanded n).mp hn with hn | ⟨e, he, hnames, hseq⟩
        · exact .inl hn
        · exact .inr ⟨e, (List.mem_filter.mp he).1, hnames, hseq⟩
    · rcases hafter with rfl | hafter
      · exact h.known
      · intro known hknown
        rw [hlanding, ← hafter, hknown]
    · have hnodup : (Correlated.releases s.reader.token s.lines).Nodup :=
        List.Nodup.of_map _ h.accounts.distinct
      exact (hnodup.filter _).filter _
    · intro e he _ _ hnames
      rw [hhanded, hawaited]
      constructor
      · rintro (hseq | ⟨found, hfound, hnames, hseq⟩)
        · exact .inl hseq
        · have hmem := (List.mem_filter.mp hfound).1
          rw [← h.accounts.eq_of_seq hmem he hseq]
          exact .inr ⟨hmem, hnames⟩
      · rintro (hseq | ⟨he, hnames⟩)
        · exact .inl hseq
        · by_cases hseq : e.seq ∈ s.reader.handed
          · exact .inl hseq
          · exact .inr ⟨e, List.mem_filter.mpr ⟨he, by simpa using hseq⟩, hnames, rfl⟩
    · intro e hfilter
      rw [hawaited]
      simp [Call.returned, Except.toOption, Correlated.pending, hfilter]
      tauto

theorem Delivered.fresh_error (h : s.Delivered) {opening : Opening} {refusal : Refusal}
    {after : Correlated}
    (hkeeps : s.reader.loses s.filter opening s.lines s.landing = false)
    (hfresh : s.reader.fresh s.filter opening s.lines s.landing = (.error refusal, after)) :
    ({ s with reader := after, calls := s.calls ++ [⟨s.lines, s.landing, .error refusal⟩] } :
      Following ν δ).Delivered := by
  have hidle : ∀ e : Envelope ν δ,
      ¬(Call.mk s.lines s.landing (.error refusal)).Awaited s.reader.token e := by
    rintro e ⟨hok, -⟩
    cases hok
  rcases Correlated.fresh_error_of_not_loses hkeeps hfresh with
    rfl | ⟨landing, hlanding, htoken, hafter, hkept, htaken⟩
  · exact h.call_idle rfl h.accounts h.known hidle rfl fun _ _ _ => Iff.rfl
  · apply h.call_idle htoken _ _ hidle rfl
    · intro e he hfilter
      constructor
      · intro hseq
        rcases htaken _ hseq with hseq | ⟨found, hfound, -, hunmatched, hseq⟩
        · exact hseq
        · have hmem := (List.mem_filter.mp hfound).1
          rw [h.accounts.eq_of_seq hmem he hseq, hfilter] at hunmatched
          cases hunmatched
      · exact hkept _
    · apply accounts_of_taken h.accounts hlanding htoken hafter
      intro n hn
      rcases htaken n hn with hn | ⟨e, he, hnames, -, hseq⟩
      · exact .inl hn
      · exact .inr ⟨e, (List.mem_filter.mp he).1, hnames, hseq⟩
    · intro known hknown
      rw [← h.landing_eq, hlanding, ← hafter, hknown]

/-- A release that names a commit stays on the record when a line that holds none is put
right. -/
theorem mem_releases_set {token : String} {lines : List (Entry ν δ)} {k : Nat}
    (entry : Entry ν δ)
    (hold : ∀ old, lines[k]? = some old →
      ∀ e ∈ Correlated.release token old, e.names.isNone = true)
    {e : Envelope ν δ} (he : e ∈ Correlated.releases token lines) (hnames : e.names.isSome) :
    e ∈ Correlated.releases token (lines.set k entry) := by
  obtain ⟨line, hline, hrelease⟩ := List.mem_filterMap.mp he
  obtain ⟨j, hj⟩ := List.mem_iff_getElem?.mp hline
  have hne : k ≠ j := by
    rintro rfl
    have hnone := hold line hj e hrelease
    rw [Option.isNone_iff_eq_none] at hnone
    rw [hnone] at hnames
    cases hnames
  apply List.mem_filterMap.mpr
  refine ⟨line, List.mem_iff_getElem?.mpr ⟨j, ?_⟩, hrelease⟩
  rw [List.getElem?_set_ne hne]
  exact hj

theorem Delivered.recorded (h : s.Delivered) {lines : List (Entry ν δ)}
    (hs : s.recorded lines = some s')
    (hstay : ∀ e ∈ Correlated.releases s.reader.token s.lines, e.names.isSome →
      e ∈ Correlated.releases s.reader.token lines) : s'.Delivered := by
  unfold Following.recorded at hs
  split at hs
  · next hdistinct =>
    obtain rfl := Option.some.inj hs
    exact h.lines hdistinct hstay
  · cases hs

theorem Delivered.land (h : s.Delivered) (hunknown : s.landing = none) (commit : ObjectId) :
    ({ s with landing := some commit } : Following ν δ).Delivered := by
  have hlanding : s.reader.landing = none := by
    cases hknown : s.reader.landing with
    | none => rfl
    | some landing =>
      have hsome := h.known landing hknown
      rw [hunknown] at hsome
      cases hsome
  have hnever : ∀ call ∈ s.calls, call.landing = none := by
    intro call hcall
    cases hsaw : call.landing with
    | none => rfl
    | some landing =>
      have hsome := (h.stays call hcall).1 landing hsaw
      rw [hunknown] at hsome
      cases hsome
  refine ⟨h.accounts, ?_, ?_, ?_, h.nodup, h.first⟩
  · intro landing hknown
    rw [hlanding] at hknown
    cases hknown
  · intro call hcall
    refine ⟨fun landing hsaw => ?_, (h.stays call hcall).2⟩
    rw [hnever call hcall] at hsaw
    cases hsaw
  · intro e _ _ _ _
    simp only [h.accounts.handed_of_landing hlanding]
    constructor
    · rintro ⟨⟩
    · rintro ⟨call, hcall, -, -, hnames, hsame⟩
      rw [hnever call hcall] at hsame
      simp [hsame] at hnames

theorem Delivered.step (h : s.Delivered) {act : Act ν δ} (hkeeps : s.keeps act = true)
    (hs : s.step act = some s') : s'.Delivered := by
  cases act with
  | record entry =>
    apply h.recorded hs
    intro e he _
    rw [Correlated.releases_append]
    exact List.mem_append_left _ he
  | mend k entry =>
    simp only [Following.step] at hs
    split at hs
    · next hmendable =>
      apply h.recorded hs
      intro e he hnames
      apply mem_releases_set entry _ he hnames
      intro old hold found hfound
      have hfound : Correlated.release s.reader.token old = some found := hfound
      simpa only [hold, hfound, Option.all_some] using hmendable
    · cases hs
  | land commit =>
    simp only [Following.step] at hs
    split at hs
    · next hunknown =>
      obtain rfl := Option.some.inj hs
      exact h.land (Option.isNone_iff_eq_none.mp hunknown) commit
    · cases hs
  | fresh opening =>
    have hkeeps : s.reader.loses s.filter opening s.lines s.landing = false := by
      simpa [keeps] using hkeeps
    simp only [Following.step] at hs
    split at hs
    · cases hs
    · next hopening =>
      obtain rfl := Option.some.inj hs
      cases hfresh : s.reader.fresh s.filter opening s.lines s.landing with
      | mk answer after =>
        cases answer with
        | ok events => exact h.fresh_ok hopening hfresh
        | error refusal => exact h.fresh_error hkeeps hfresh

theorem delivered_of_initial (h : (following ν δ).Initial s) : s.Delivered := by
  obtain ⟨hhanded, hlanding, hcalls, hdistinct⟩ := h
  refine ⟨⟨hdistinct, by simp [hhanded]⟩, by simp [hlanding], by simp [hcalls],
    by simp [hhanded, hcalls], by simp [hcalls], fun e _ => ?_⟩
  intro before call after hsplit
  rw [hcalls] at hsplit
  simp at hsplit

end Following

/-- In every run whose failing calls lose nothing, a call returns a release that its filter
matches exactly where it is the first that succeeded since the release was recorded and its
landing known, and returns it once. -/
theorem delivered_once {s : Following ν δ}
    (h : (following ν δ).ReachableBy (fun s act => s.keeps act = true) s) :
    (∀ call ∈ s.calls, call.returned.Nodup) ∧
      ∀ e, s.filter e = true → FirstAwaiting s.reader.token s.calls e := by
  have hdelivered : s.Delivered :=
    h.invariant (fun _ => Following.delivered_of_initial) fun _ _ _ hi hok hs => hi.step hok hs
  exact ⟨hdelivered.nodup, hdelivered.first⟩

/-! ## A call that fails on a later release -/

def landed : ObjectId := ⟨landingCommit, by decide⟩

/-- A reader of an empty record, whose session has landed. -/
def opened : Following Unit Unit :=
  ⟨[], some landed, fun _ => true, ⟨"host.org/owner/name", "releases", none, []⟩, []⟩

theorem opened_initial : (following Unit Unit).Initial opened :=
  ⟨rfl, rfl, rfl, List.nodup_nil⟩

/-- A release that names no commit, and the same put right. -/
def unnamed : Envelope Unit Unit := { observed with seq := 8, landingCommit := none }

def named : Envelope Unit Unit := { observed with seq := 8 }

theorem delivers_runs : ((following Unit Unit).run opened
    [.record (.ok unnamed), .fresh .opened, .mend 0 (.ok named), .record (.ok observed),
      .fresh .opened, .fresh .opened]).isSome := by decide

/-- The release that names no commit comes first: the call fails on it, and once it is put
right both are returned. -/
def delivers : Following Unit Unit :=
  ((following Unit Unit).run opened
    [.record (.ok unnamed), .fresh .opened, .mend 0 (.ok named), .record (.ok observed),
      .fresh .opened, .fresh .opened]).get delivers_runs

theorem delivered_once_delivers :
    (∀ call ∈ delivers.calls, call.returned.Nodup) ∧
      ∀ e, delivers.filter e = true → FirstAwaiting delivers.reader.token delivers.calls e :=
  delivered_once (Foundations.System.reachableBy_of_run opened_initial (by decide)
    (Option.some_get delivers_runs).symm)

theorem loses_runs : ((following Unit Unit).run opened
    [.record (.ok observed), .record (.ok unnamed), .fresh .opened, .mend 1 (.ok named),
      .fresh .opened]).isSome := by decide

/-- It comes last: the call has taken the release before it. -/
def losing : Following Unit Unit :=
  ((following Unit Unit).run opened
    [.record (.ok observed), .record (.ok unnamed), .fresh .opened, .mend 1 (.ok named),
      .fresh .opened]).get loses_runs

/-- The release before it is of the landing, and is never returned. -/
theorem recorded_lost : (following Unit Unit).Reachable losing ∧
    losing.filter observed = true ∧ observed ∈ Correlated.releases "releases" losing.lines ∧
    observed.names = losing.landing ∧
    losing.calls.map Call.returned = [[], [named]] ∧
    losing.calls.map (fun call => call.answer.isOk) = [false, true] :=
  ⟨Foundations.System.reachable_of_run opened_initial
    (Option.some_get loses_runs).symm, rfl, by decide, by decide, by decide, by decide⟩

end Onevcs.Streams
