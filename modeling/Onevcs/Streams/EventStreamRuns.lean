import Mathlib.Data.List.Nodup
import Mathlib.Data.List.Perm.Basic
import Onevcs.Foundations.Transition
import Onevcs.Streams.EventStream

/-!
# Runs of an event stream's reader

A reader opened on a session whose file and release record go on growing: records are
appended to either, a record not handed back yet may be put right where it lies, and the
reader reads. The emitter numbers a release record from the file under the file's lock,
so no two releases of a record share a number.

A read moves past its batch, and accounts for releases, before it knows whether it
succeeds. The runs below are those whose failing reads had no batch to lose and no release
to account for by then.
-/

namespace Onevcs.Streams

open Foundations (System)

variable {ν δ : Type}

namespace Correlated

variable {correlated : Correlated} {lines lines' : List (Entry ν δ)}
  {filter : Envelope ν δ → Bool}

/-- No two releases of the record share a number. -/
def Distinct (token : String) (lines : List (Entry ν δ)) : Prop :=
  ((releases token lines).map Envelope.seq).Nodup

instance (token : String) (lines : List (Entry ν δ)) : Decidable (Distinct token lines) :=
  inferInstanceAs (Decidable (List.Nodup _))

/-- The releases handed back by what is accounted for. -/
def handedOn (correlated : Correlated) (filter : Envelope ν δ → Bool)
    (lines : List (Entry ν δ)) : List (Envelope ν δ) :=
  (releases correlated.token lines).filter fun e =>
    e.names = correlated.landing && e.seq ∈ correlated.handed && filter e

/-- What is accounted for are releases of the landing. -/
structure Accounts (correlated : Correlated) (lines : List (Entry ν δ)) : Prop where
  distinct : Distinct correlated.token lines
  handed : ∀ n ∈ correlated.handed, ∃ landing, correlated.landing = some landing ∧
    ∃ e ∈ releases correlated.token lines, e.names = some landing ∧ e.seq = n

theorem Accounts.handed_of_landing (h : correlated.Accounts lines)
    (hlanding : correlated.landing = none) : correlated.handed = [] := by
  apply List.eq_nil_iff_forall_not_mem.mpr
  intro n hn
  obtain ⟨landing, hknown, -⟩ := h.handed n hn
  rw [hlanding] at hknown
  cases hknown

theorem Accounts.eq_of_seq (h : correlated.Accounts lines) {e f : Envelope ν δ}
    (he : e ∈ releases correlated.token lines) (hf : f ∈ releases correlated.token lines)
    (hseq : e.seq = f.seq) : e = f :=
  List.inj_on_of_nodup_map h.distinct he hf hseq

/-- A line of the record may be written, or written anew where it names no release of any
landing: what is accounted for and what was handed back stand. -/
theorem Accounts.replace (h : correlated.Accounts lines) (before after : List (Envelope ν δ))
    (old new : Option (Envelope ν δ))
    (hlines : releases correlated.token lines = before ++ old.toList ++ after)
    (hlines' : releases correlated.token lines' = before ++ new.toList ++ after)
    (hold : ∀ e ∈ old, e.names = none) (hdistinct : Distinct correlated.token lines') :
    correlated.Accounts lines' ∧
      correlated.handedOn filter lines' = correlated.handedOn filter lines := by
  have hkept : ∀ n ∈ correlated.handed, ∃ landing, correlated.landing = some landing ∧
      ∃ e, (e ∈ before ∨ e ∈ after) ∧ e.names = some landing ∧ e.seq = n := by
    intro n hn
    obtain ⟨landing, hlanding, e, he, hnames, hseq⟩ := h.handed n hn
    refine ⟨landing, hlanding, e, ?_, hnames, hseq⟩
    rw [hlines, List.mem_append, List.mem_append, Option.mem_toList] at he
    rcases he with (he | he) | he
    · exact Or.inl he
    · rw [hold e he] at hnames
      cases hnames
    · exact Or.inr he
  refine ⟨⟨hdistinct, fun n hn => ?_⟩, ?_⟩
  · obtain ⟨landing, hlanding, e, he, hnames, hseq⟩ := hkept n hn
    refine ⟨landing, hlanding, e, ?_, hnames, hseq⟩
    rw [hlines', List.mem_append, List.mem_append]
    rcases he with he | he
    · exact Or.inl (Or.inl he)
    · exact Or.inr he
  · -- The old line names no landing, and the number of the new one is not accounted for.
    have hdropped : ∀ e ∈ old, e.seq ∉ correlated.handed ∨ e.names ≠ correlated.landing := by
      intro e he
      by_cases hn : e.seq ∈ correlated.handed
      · obtain ⟨landing, hlanding, -⟩ := h.handed _ hn
        right
        rw [hold e he, hlanding]
        exact fun heq => nomatch heq
      · exact Or.inl hn
    have hnew : ∀ e ∈ new, e.seq ∉ correlated.handed := by
      intro e he hn
      obtain ⟨landing, -, f, hf, -, hseq⟩ := hkept _ hn
      have hmem := Option.mem_toList.mpr he
      unfold Distinct at hdistinct
      rw [hlines', List.map_append, List.map_append, List.nodup_append', List.nodup_append']
        at hdistinct
      obtain ⟨⟨-, -, hbefore⟩, -, hafter⟩ := hdistinct
      rcases hf with hf | hf
      · exact hbefore (hseq ▸ List.mem_map_of_mem hf) (List.mem_map_of_mem hmem)
      · exact hafter (List.mem_append_right _ (List.mem_map_of_mem hmem))
          (hseq ▸ List.mem_map_of_mem hf)
    have hnone : ∀ o : Option (Envelope ν δ),
        (∀ e ∈ o, e.seq ∉ correlated.handed ∨ e.names ≠ correlated.landing) →
        o.toList.filter (fun e => decide (e.names = correlated.landing) &&
          decide (e.seq ∈ correlated.handed) && filter e) = [] := by
      intro o ho
      cases o with
      | none => rfl
      | some e =>
        rcases ho e rfl with hseq | hnames
        · simp [hseq]
        · simp [hnames]
    unfold handedOn
    rw [hlines, hlines', List.filter_append, List.filter_append, List.filter_append,
      List.filter_append, hnone old hdropped, hnone new fun e he => Or.inl (hnew e he)]

theorem releases_append (token : String) (lines lines' : List (Entry ν δ)) :
    releases token (lines ++ lines') = releases token lines ++ releases token lines' :=
  List.filterMap_append

theorem releases_singleton (token : String) (entry : Entry ν δ) :
    releases token [entry] = (release token entry).toList := by
  cases hrelease : release token entry <;> simp [releases, hrelease]

theorem Accounts.append (h : correlated.Accounts lines) {entry : Entry ν δ}
    (hdistinct : Distinct correlated.token (lines ++ [entry])) :
    correlated.Accounts (lines ++ [entry]) ∧
      correlated.handedOn filter (lines ++ [entry]) = correlated.handedOn filter lines :=
  h.replace (releases correlated.token lines) [] none (release correlated.token entry) (by simp)
    (by rw [releases_append, releases_singleton, List.append_nil]) (by simp) hdistinct

theorem Accounts.mend (h : correlated.Accounts lines) {k : Nat} {entry : Entry ν δ}
    (hold : ∀ old, lines[k]? = some old → ∀ e ∈ release correlated.token old, e.names = none)
    (hdistinct : Distinct correlated.token (lines.set k entry)) :
    correlated.Accounts (lines.set k entry) ∧
      correlated.handedOn filter (lines.set k entry) = correlated.handedOn filter lines := by
  by_cases hk : k < lines.length
  · have hcut : lines = lines.take k ++ lines[k] :: lines.drop (k + 1) := by
      rw [← List.drop_eq_getElem_cons hk, List.take_append_drop]
    refine h.replace (releases correlated.token (lines.take k))
      (releases correlated.token (lines.drop (k + 1))) (release correlated.token lines[k])
      (release correlated.token entry) ?_ ?_ (hold _ (List.getElem?_eq_getElem hk)) hdistinct
    · conv_lhs => rw [hcut]
      rw [List.append_cons, releases_append, releases_append, releases_singleton]
    · rw [List.set_eq_take_append_cons_drop, if_pos hk, List.append_cons, releases_append,
        releases_append, releases_singleton]
  · rw [List.set_eq_of_length_le (Nat.not_lt.mp hk)]
    exact ⟨h, rfl⟩

/-- What a read that succeeds accounts for is handed back by it, once. -/
theorem Accounts.fresh (h : correlated.Accounts lines) {opening : Opening}
    {landedAt : Option ObjectId} {events : List (Envelope ν δ)} {after : Correlated}
    (hfresh : correlated.fresh filter opening lines landedAt = (.ok events, after)) :
    after.token = correlated.token ∧ after.Accounts lines ∧
      (correlated.handedOn filter lines ++ events).Perm (after.handedOn filter lines) ∧
      (opening = .opened → ∀ landing, after.landing = some landing →
        ∀ e ∈ releases after.token lines, e.names = some landing → e.seq ∈ after.handed) := by
  rcases fresh_ok hfresh with ⟨rfl, rfl, hnone⟩ | ⟨landing, hlanding, htoken, hafter, rfl, hhanded⟩
  · refine ⟨rfl, h, by rw [List.append_nil], fun hopened landing hlanding e he hnames => ?_⟩
    have hpending := hnone hopened (by rw [hlanding]; rfl)
    have hnot := List.filter_eq_nil_iff.mp hpending e he
    simpa using hnot
  · have hsame : ∀ known, correlated.landing = some known → known = landing := by
      intro known hknown
      rw [hknown] at hlanding
      exact Option.some.inj hlanding
    refine ⟨htoken, ⟨htoken ▸ h.distinct, fun n hn => ?_⟩, ?_, fun _ found hfound e he hnames => ?_⟩
    · rcases (hhanded n).mp hn with hn | ⟨e, he, hnames, hseq⟩
      · obtain ⟨known, hknown, e, he, hnames, hseq⟩ := h.handed n hn
        obtain rfl := hsame known hknown
        exact ⟨known, hafter, e, htoken ▸ he, hnames, hseq⟩
      · exact ⟨landing, hafter, e, htoken ▸ (List.mem_filter.mp he).1, hnames, hseq⟩
    · -- Of the releases handed back in all, those accounted for before and the rest.
      have hsplit := List.filter_append_perm (fun e : Envelope ν δ => e.seq ∈ correlated.handed)
        (after.handedOn filter lines)
      refine List.Perm.trans ?_ hsplit
      unfold handedOn pending
      rw [htoken, hafter, List.filter_filter, List.filter_filter, List.filter_filter]
      have hbefore : ∀ e ∈ releases correlated.token lines,
          (decide (e.names = correlated.landing) && decide (e.seq ∈ correlated.handed) &&
            filter e) = (decide (e.seq ∈ correlated.handed) && (decide (e.names = some landing) &&
              decide (e.seq ∈ after.handed) && filter e)) := by
        intro e he
        by_cases hn : e.seq ∈ correlated.handed
        · obtain ⟨known, hknown, -⟩ := h.handed _ hn
          obtain rfl := hsame known hknown
          simp [hn, hknown, (hhanded e.seq).mpr (Or.inl hn)]
        · simp [hn]
      have hnow : ∀ e ∈ releases correlated.token lines,
          ((decide (e.names = some landing) && filter e) && decide (e.seq ∉ correlated.handed)) =
            ((!decide (e.seq ∈ correlated.handed)) && (decide (e.names = some landing) &&
              decide (e.seq ∈ after.handed) && filter e)) := by
        intro e he
        by_cases hn : e.seq ∈ correlated.handed
        · simp [hn]
        · by_cases hnames : e.names = some landing
          · have hmem : e.seq ∈ after.handed :=
              (hhanded e.seq).mpr (Or.inr ⟨e, List.mem_filter.mpr ⟨he, by simpa using hn⟩,
                hnames, rfl⟩)
            simp [hn, hnames, hmem]
          · simp [hnames]
      rw [List.filter_congr hbefore, List.filter_congr hnow]
    · rw [htoken] at he
      obtain rfl : found = landing := Option.some.inj (hfound.symm.trans hafter)
      by_cases hn : e.seq ∈ correlated.handed
      · exact (hhanded _).mpr (Or.inl hn)
      · exact (hhanded _).mpr (Or.inr ⟨e, List.mem_filter.mpr ⟨he, by simpa using hn⟩, hnames, rfl⟩)

theorem Accounts.learn (h : correlated.Accounts lines) (filter : Envelope ν δ → Bool) {landedAt : Option ObjectId}
    {landing : ObjectId} (hlanding : correlated.landing.or landedAt = some landing) :
    ({ correlated with landing := some landing } : Correlated).Accounts lines ∧
      ({ correlated with landing := some landing } : Correlated).handedOn filter lines =
        correlated.handedOn filter lines := by
  cases hknown : correlated.landing with
  | some known =>
    rw [hknown] at hlanding
    obtain rfl := Option.some.inj hlanding
    have hself : ({ correlated with landing := some known } : Correlated) = correlated := by
      rw [← hknown]
    rw [hself]
    exact ⟨h, rfl⟩
  | none =>
    have hnil := h.handed_of_landing hknown
    refine ⟨⟨h.distinct, fun n hn => ?_⟩, ?_⟩
    · simp [hnil] at hn
    · simp [handedOn, hnil]

end Correlated

/-! ## The reader and its files -/

/-- The two files, the reader, and what each of its reads answered. -/
structure World (ν δ : Type) where
  own : List (Entry ν δ)
  releases : List (Entry ν δ)
  stream : EventStream ν δ
  answers : List (Except Refusal (List (Envelope ν δ)))

/-- What may happen next. -/
inductive Act (ν δ : Type)
  | append (entry : Entry ν δ)
  | repair (k : Nat) (entry : Entry ν δ)
  | record (entry : Entry ν δ)
  | mend (k : Nat) (entry : Entry ν δ)
  | read (sight : Sight)

namespace World

variable (s : World ν δ)

/-- What the reads that succeeded handed back. -/
def returned : List (Envelope ν δ) := s.answers.flatMap fun answer => answer.toOption.getD []

/-- The release record comes to hold these lines, where no two releases share a number. -/
def recorded (lines : List (Entry ν δ)) : Option (World ν δ) :=
  if s.stream.releases.all fun correlated => Correlated.Distinct correlated.token lines then
    some { s with releases := lines }
  else none

/-- The line of the release record is none a landing has a release in. -/
def mendable (k : Nat) : Bool :=
  s.releases[k]?.all fun entry => s.stream.releases.all fun correlated =>
    (Correlated.release correlated.token entry).all fun e => e.names.isNone

def step : Act ν δ → Option (World ν δ)
  | .append entry => some { s with own := s.own ++ [entry] }
  | .repair k entry =>
    -- Only what the reader has not moved past is put right.
    if s.stream.position ≤ k then some { s with own := s.own.set k entry } else none
  | .record entry => s.recorded (s.releases ++ [entry])
  | .mend k entry => if s.mendable k then s.recorded (s.releases.set k entry) else none
  | .read sight =>
    let (answer, stream) := s.stream.read s.own s.releases sight
    some { s with stream := stream, answers := s.answers ++ [answer] }

/-- A read of the step, if it is one, loses nothing. -/
def keeps : Act ν δ → Bool
  | .read sight => !s.stream.loses s.own s.releases sight
  | _ => true

/-- The events of the session admitted of what the reader has moved past. -/
def admitted : List (Envelope ν δ) := (s.own.take s.stream.position).filterMap s.stream.admits

/-- The releases handed back by what the reader has accounted for. -/
def handedOn : List (Envelope ν δ) :=
  match s.stream.releases with
  | none => []
  | some correlated => correlated.handedOn s.stream.filter s.releases

/-- Where a read leaves off: one that fails has moved past nothing and accounted for nothing;
one that succeeds has moved past every record, and accounted for every release of the
landing it knows. -/
def LeavesOff (sight : Sight) : Prop :=
  match s.stream.read s.own s.releases sight with
  | (.error _, stream) => stream.position = s.stream.position ∧
      stream.releases.map Correlated.handed = s.stream.releases.map Correlated.handed
  | (.ok _, stream) => stream.position = s.own.length ∧
      (sight.releases = .opened → ∀ correlated, stream.releases = some correlated →
        ∀ landing, correlated.landing = some landing →
          ∀ e ∈ Correlated.releases correlated.token s.releases, e.names = some landing →
            e.seq ∈ correlated.handed)

end World

/-- A reader that was just opened, beside the files it reads. -/
def reading (ν δ : Type) : System (World ν δ) (Act ν δ) where
  Initial s := s.stream.position = 0 ∧ s.answers = [] ∧
    ∀ correlated, s.stream.releases = some correlated →
      correlated.handed = [] ∧ Correlated.Distinct correlated.token s.releases
  step := World.step

namespace World

variable {s s' : World ν δ}

theorem recorded_eq_some {lines : List (Entry ν δ)} (h : s.recorded lines = some s') :
    (∀ correlated, s.stream.releases = some correlated →
      Correlated.Distinct correlated.token lines) ∧ s' = { s with releases := lines } := by
  unfold recorded at h
  split at h
  · next hall =>
    refine ⟨fun correlated hsome => ?_, (Option.some.inj h).symm⟩
    simpa [hsome] using hall
  · cases h

theorem returned_append (answer : Except Refusal (List (Envelope ν δ))) (stream : EventStream ν δ) :
    ({ s with stream := stream, answers := s.answers ++ [answer] } : World ν δ).returned =
      s.returned ++ answer.toOption.getD [] := by
  simp [returned]

/-- What a reader has moved past is what its reads handed back. -/
structure Accounted (s : World ν δ) : Prop where
  position : s.stream.position ≤ s.own.length
  accounts : ∀ correlated, s.stream.releases = some correlated → correlated.Accounts s.releases
  once : s.returned.Perm (s.admitted ++ s.handedOn)

theorem Accounted.own (h : s.Accounted) {own : List (Entry ν δ)}
    (hlength : s.own.length ≤ own.length)
    (htake : own.take s.stream.position = s.own.take s.stream.position) :
    ({ s with own := own } : World ν δ).Accounted := by
  refine ⟨Nat.le_trans h.position hlength, h.accounts, ?_⟩
  have hadmitted : ({ s with own := own } : World ν δ).admitted = s.admitted := by
    simp only [admitted, htake]
  rw [hadmitted]
  exact h.once

theorem Accounted.lines (h : s.Accounted) {lines : List (Entry ν δ)}
    (hstands : ∀ correlated, s.stream.releases = some correlated →
      correlated.Accounts lines ∧ correlated.handedOn s.stream.filter lines =
        correlated.handedOn s.stream.filter s.releases) :
    ({ s with releases := lines } : World ν δ).Accounted := by
  refine ⟨h.position, fun correlated hsome => (hstands correlated hsome).1, ?_⟩
  have hhanded : ({ s with releases := lines } : World ν δ).handedOn = s.handedOn := by
    unfold handedOn
    cases hsome : s.stream.releases with
    | none => rfl
    | some correlated => exact (hstands correlated hsome).2
  have hsame := h.once
  rw [← hhanded] at hsame
  exact hsame

theorem Accounted.read_ok (h : s.Accounted) {sight : Sight} {events : List (Envelope ν δ)}
    {stream : EventStream ν δ}
    (hread : s.stream.read s.own s.releases sight = (.ok events, stream)) :
    ({ s with stream := stream, answers := s.answers ++ [.ok events] } : World ν δ).Accounted ∧
      stream.position = s.own.length ∧
      (sight.releases = .opened → ∀ correlated, stream.releases = some correlated →
        ∀ landing, correlated.landing = some landing →
          ∀ e ∈ Correlated.releases correlated.token s.releases, e.names = some landing →
            e.seq ∈ correlated.handed) := by
  obtain ⟨hreading, hposition, fresh, rfl, hreleases⟩ := EventStream.read_ok hread
  have hend : stream.position = s.own.length := by
    rw [hposition, EventStream.batch, List.length_drop]
    have := h.position
    omega
  have hall : (s.own.take stream.position).filterMap stream.admits =
      s.admitted ++ (s.stream.batch s.own).filterMap s.stream.admits := by
    rw [hend, List.take_length, admitted, EventStream.batch, ← List.filterMap_append,
      List.take_append_drop, hreading]
  -- The releases that were handed back before, with those handed back now.
  obtain ⟨haccounts, hhanded, hnone⟩ :
      (∀ correlated, stream.releases = some correlated → correlated.Accounts s.releases) ∧
        (s.handedOn ++ fresh).Perm
          (({ s with stream := stream } : World ν δ).handedOn) ∧
        (sight.releases = .opened → ∀ correlated, stream.releases = some correlated →
          ∀ landing, correlated.landing = some landing →
            ∀ e ∈ Correlated.releases correlated.token s.releases, e.names = some landing →
              e.seq ∈ correlated.handed) := by
    rcases hreleases with ⟨hbefore, hafter, rfl⟩ | ⟨before, after, hbefore, hafter, hfresh⟩
    · simp [handedOn, hbefore, hafter]
    · obtain ⟨htoken, haccounts, hperm, hleft⟩ := (h.accounts before hbefore).fresh hfresh
      refine ⟨fun correlated hsome => ?_, ?_, fun hopened correlated hsome => ?_⟩
      · obtain rfl := Option.some.inj (hafter.symm.trans hsome)
        exact haccounts
      · simpa only [handedOn, hbefore, hafter, hreading] using hperm
      · obtain rfl := Option.some.inj (hafter.symm.trans hsome)
        exact hleft hopened
  refine ⟨⟨Nat.le_of_eq hend, haccounts, ?_⟩, hend, hnone⟩
  rw [returned_append]
  have hswap : ((s.admitted ++ s.handedOn) ++
      ((s.stream.batch s.own).filterMap s.stream.admits ++ fresh)).Perm
        ((s.admitted ++ (s.stream.batch s.own).filterMap s.stream.admits) ++
          (s.handedOn ++ fresh)) := by
    rw [List.append_assoc, List.append_assoc]
    exact (List.perm_append_comm_assoc _ _ _).append_left _
  refine (h.once.append_right _).trans (hswap.trans ?_)
  rw [← hall]
  exact hhanded.append_left _

theorem Accounted.read_error (h : s.Accounted) {sight : Sight} {refusal : Refusal}
    {stream : EventStream ν δ} (hkeeps : s.stream.loses s.own s.releases sight = false)
    (hread : s.stream.read s.own s.releases sight = (.error refusal, stream)) :
    ({ s with stream := stream, answers := s.answers ++ [.error refusal] } : World ν δ).Accounted ∧
      stream.position = s.stream.position ∧
      stream.releases.map Correlated.handed = s.stream.releases.map Correlated.handed := by
  have hreturned : ({ s with stream := stream, answers := s.answers ++ [.error refusal] } :
      World ν δ).returned = s.returned := by
    rw [returned_append]
    exact List.append_nil _
  rcases EventStream.read_error hkeeps hread with
    rfl | ⟨correlated, landing, hsome, hlanding, rfl⟩
  · refine ⟨⟨h.position, h.accounts, ?_⟩, rfl, rfl⟩
    rw [hreturned]
    exact h.once
  · have hlearned := (h.accounts correlated hsome).learn s.stream.filter hlanding
    refine ⟨⟨h.position, fun found hfound => ?_, ?_⟩, rfl, by rw [hsome]; rfl⟩
    · obtain rfl := Option.some.inj hfound
      exact hlearned.1
    · rw [hreturned]
      have honce := h.once
      unfold handedOn at honce ⊢
      simp only [hsome] at honce
      simp only [hlearned.2]
      exact honce

theorem Accounted.step (h : s.Accounted) {act : Act ν δ} (hkeeps : s.keeps act = true)
    (hs : s.step act = some s') : s'.Accounted := by
  cases act with
  | append entry =>
    obtain rfl := Option.some.inj hs
    exact h.own (by simp) (List.take_append_of_le_length h.position)
  | repair k entry =>
    simp only [World.step] at hs
    split at hs
    · next hpast =>
      obtain rfl := Option.some.inj hs
      exact h.own (by simp) (List.take_set_of_le hpast)
    · cases hs
  | record entry =>
    obtain ⟨hdistinct, rfl⟩ := recorded_eq_some hs
    exact h.lines fun correlated hsome =>
      (h.accounts correlated hsome).append (hdistinct correlated hsome)
  | mend k entry =>
    simp only [World.step] at hs
    split at hs
    · next hmendable =>
      obtain ⟨hdistinct, rfl⟩ := recorded_eq_some hs
      refine h.lines fun correlated hsome =>
        (h.accounts correlated hsome).mend (fun old hold e he => ?_) (hdistinct correlated hsome)
      have he : Correlated.release correlated.token old = some e := he
      simpa [mendable, hold, hsome, he] using hmendable
    · cases hs
  | read sight =>
    have hkeeps : s.stream.loses s.own s.releases sight = false := by simpa [keeps] using hkeeps
    cases hread : s.stream.read s.own s.releases sight with
    | mk answer stream =>
      simp only [World.step, hread] at hs
      obtain rfl := Option.some.inj hs
      cases answer with
      | ok events => exact (h.read_ok hread).1
      | error refusal => exact (h.read_error hkeeps hread).1

theorem accounted_of_initial (h : (reading ν δ).Initial s) : s.Accounted := by
  obtain ⟨hposition, hanswers, hreleases⟩ := h
  refine ⟨by rw [hposition]; exact Nat.zero_le _, fun correlated hsome => ?_, ?_⟩
  · obtain ⟨hhanded, hdistinct⟩ := hreleases correlated hsome
    exact ⟨hdistinct, by simp [hhanded]⟩
  · have hnone : s.handedOn = [] := by
      unfold handedOn
      cases hsome : s.stream.releases with
      | none => rfl
      | some correlated => simp [Correlated.handedOn, (hreleases correlated hsome).1]
    simp [returned, hanswers, admitted, hposition, hnone]

end World

section Results

variable {s : World ν δ}

/-- In every run whose reads lose nothing, what the reads that succeeded handed back is, each
once, what is admitted of the records moved past and the releases accounted for, and every
read that loses nothing leaves off as it should. -/
theorem events_once (h : (reading ν δ).ReachableBy (fun s act => s.keeps act = true) s) :
    s.returned.Perm (s.admitted ++ s.handedOn) ∧
      ∀ sight, s.keeps (.read sight) = true → s.LeavesOff sight := by
  have haccounted : s.Accounted :=
    h.invariant (fun _ => World.accounted_of_initial) fun _ _ _ hi hok hs => hi.step hok hs
  refine ⟨haccounted.once, fun sight hkeeps => ?_⟩
  have hkeeps : s.stream.loses s.own s.releases sight = false := by
    simpa [World.keeps] using hkeeps
  unfold World.LeavesOff
  cases hread : s.stream.read s.own s.releases sight with
  | mk answer stream =>
    cases answer with
    | ok events => exact (haccounted.read_ok hread).2
    | error refusal => exact (haccounted.read_error hkeeps hread).2

end Results

/-! ## Two reads of one session -/

/-- An event of the session, as it is read back. -/
def fetched : Envelope Unit Unit :=
  ⟨"session", 1, "fetch", some .development, some (.string "progress"), none, ()⟩

/-- The commit the session's work landed at. -/
def landingCommit : String := "00112233445566778899aabbccddeeff00112233"

def observed : Envelope Unit Unit :=
  ⟨"releases", 7, "release-observed", some .release, none, some (.string landingCommit), ()⟩

/-- A reader of the session, which was just opened on a file that holds one event. -/
def openedReader (releases : Option Correlated) : World Unit Unit where
  own := [.ok fetched]
  releases := []
  stream := {
    session := "session"
    filter := fun _ => true
    phases := [.development, .integrate, .release]
    position := 0
    releases := releases }
  answers := []

theorem openedReader_initial (correlated : Option Correlated)
    (h : ∀ found, correlated = some found → found.handed = []) :
    (reading Unit Unit).Initial (openedReader correlated) :=
  ⟨rfl, rfl, fun found hfound => ⟨h found hfound, List.nodup_nil⟩⟩

/-- Everything can be read, and the landing is known. -/
def clear : Sight := ⟨none, .opened, ObjectId.parse landingCommit⟩

/-- The reader of a session whose releases are its own to read. -/
def releasing : World Unit Unit :=
  openedReader (some ⟨"host.org/owner/name", "releases", none, []⟩)

theorem handsBack_runs : ((reading Unit Unit).run releasing
    [.record (.ok observed), .read clear, .append (.error "not JSON"), .repair 1 (.ok fetched),
      .read clear]).isSome := by decide

/-- The event and the release are handed back, and then an event put right in time. -/
def handsBack : World Unit Unit :=
  ((reading Unit Unit).run releasing
    [.record (.ok observed), .read clear, .append (.error "not JSON"), .repair 1 (.ok fetched),
      .read clear]).get handsBack_runs

example : handsBack.returned = [fetched, observed, fetched] := by decide

theorem events_once_handsBack :
    handsBack.returned.Perm (handsBack.admitted ++ handsBack.handedOn) ∧
      ∀ sight, handsBack.keeps (.read sight) = true → handsBack.LeavesOff sight :=
  events_once (Foundations.System.reachableBy_of_run (openedReader_initial _ (by simp)) (by decide)
    (Option.some_get handsBack_runs).symm)

theorem refused_runs : ((reading Unit Unit).run (openedReader none)
    [.append (.error "not JSON"), .read clear, .read clear]).isSome := by decide

/-- A read is refused for the second line, and the next one succeeds. -/
def refused : World Unit Unit :=
  ((reading Unit Unit).run (openedReader none)
    [.append (.error "not JSON"), .read clear, .read clear]).get refused_runs

/-- The first line is moved past, admitted and never handed back. -/
theorem refused_loses : (reading Unit Unit).Reachable refused ∧
    refused.answers = [.error (.notAnEnvelope 2 "not JSON"), .ok []] ∧
    refused.stream.position = 2 ∧ refused.admitted = [fetched] ∧
    ¬ refused.returned.Perm (refused.admitted ++ refused.handedOn) :=
  ⟨Foundations.System.reachable_of_run (openedReader_initial none (by simp))
    (Option.some_get refused_runs).symm, by decide, by decide, by decide, by decide⟩

end Onevcs.Streams
