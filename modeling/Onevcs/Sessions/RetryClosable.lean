import Onevcs.Sessions.RetryAcyclic

/-!
# When an update is refused for a link it does not change

`save` follows the link of every record it writes, also where the update set something
else: a close, an adoption. The sweep meanwhile forgets records by rules of its own, which
do not ask whether some record links to them, and from then on the linking record can be
neither followed nor written.

Where no record is forgotten that another links to, and links are saved and followed
along chains that still stand as they were read, no update is refused for the link its
record already carried.
-/

set_option linter.unusedSectionVars false

namespace Onevcs.Sessions

open Foundations (Links)

variable {τ ι β π : Type} [LinearOrder τ] [DecidableEq ι] [DecidableEq β] [DecidableEq π]

/-! ## What an update holds -/

/-- The record an update has read and will save. -/
def Stage.held : Stage τ ι β → Option (Record τ ι β)
  | .changed record => some record
  | .following record _ => some record
  | .followed record _ => some record
  | .locked | .settled => none

/-- The records an update has followed. -/
def Stage.chain : Stage τ ι β → List (τ × Record τ ι β)
  | .following _ chain => chain
  | .followed _ chain => chain
  | _ => []

/-- The update is about to decide whether its record's link can be followed. -/
def Stage.checking : Stage τ ι β → Bool
  | .changed _ => true
  | .following _ _ => true
  | _ => false

/-- The link of the record an update will save, once it was found in the store. -/
def Phase.carries : Phase τ ι β → Option τ
  -- a link the update sets, and has not looked up yet
  | .updating _ (some _) (.changed _) _ => none
  | .updating _ _ stage _ => stage.held.bind Record.retriedBy
  | _ => none

/-- The links out of the records of a chain are those it was followed by. -/
def Current (next : τ → Option τ) (chain : List (τ × Record τ ι β)) : Prop :=
  ∀ hop ∈ chain, next hop.1 = hop.2.retriedBy

instance (next : τ → Option τ) (chain : List (τ × Record τ ι β)) :
    Decidable (Current next chain) :=
  inferInstanceAs (Decidable (∀ hop ∈ chain, _))

theorem Follows.out_eq {start out : Option τ} {last : τ × Record τ ι β}
    {before : List (τ × Record τ ι β)} (h : Follows start (last :: before) out) :
    out = last.2.retriedBy := by
  cases h
  rfl

theorem Follows.reaches {next : τ → Option τ} {start out : Option τ}
    {chain : List (τ × Record τ ι β)} (h : Follows start chain out) (hcurrent : Current next chain) :
    ∀ last ∈ chain.head?, (∀ hop ∈ chain, Relation.ReflTransGen (Links next) hop.1 last.1) ∧
      ∃ first, start = some first ∧ Relation.ReflTransGen (Links next) first last.1 := by
  induction h with
  | nil =>
    intro last hlast
    cases hlast
  | @cons chain token record hprev ih =>
    intro last hlast
    obtain rfl : (token, record) = last := Option.some.inj hlast
    obtain ⟨-, hrest⟩ := List.forall_mem_cons.mp hcurrent
    cases chain with
    | nil =>
      cases hprev
      exact ⟨by simp [Relation.ReflTransGen.refl], token, rfl, .refl⟩
    | cons before chain =>
      obtain ⟨hall, first, hfirst, hreach⟩ := ih hrest before rfl
      -- the record before is linked to this one
      have hlink : Links next before.1 token :=
        (hrest before List.mem_cons_self).trans hprev.out_eq.symm
      refine ⟨fun hop hmem => ?_, first, hfirst, hreach.tail hlink⟩
      rcases List.mem_cons.mp hmem with rfl | hmem
      · exact .refl
      · exact (hall hop hmem).tail hlink

namespace World

/-- Some record links to the token, or some update is about to save one that does. -/
def Linked (s : World τ ι β π) (token : τ) : Prop :=
  (∃ t, s.next t = some token) ∨ ∃ p, (s.process p).carries = some token

/-- The chain a link is followed along stands, and the chain of a link that is set is
undisturbed. -/
def standing (s : World τ ι β π) : Label τ ι β π → Bool
  | .act p .save =>
    match s.process p with
    | .updating _ (some _) (.followed _ chain) _ => decide (Undisturbed s.next chain)
    | _ => true
  | .act p .hop =>
    match s.process p with
    | .updating _ none (.following _ chain) _ => decide (Current s.next chain)
    | _ => true
  | _ => true

/-- Nothing is forgotten that a record links to, and links are saved and followed along
chains that stand. -/
def KeepsLinks (s : World τ ι β π) (label : Label τ ι β π) : Prop :=
  s.standing label = true ∧ ∀ token, label = .forget token → ¬ s.Linked token

instance [Fintype τ] [Fintype π] (s : World τ ι β π) (token : τ) : Decidable (s.Linked token) :=
  inferInstanceAs (Decidable ((∃ _t : τ, _) ∨ ∃ _p : π, _))

instance [Fintype τ] [Fintype π] (s : World τ ι β π) (label : Label τ ι β π) :
    Decidable (s.KeepsLinks label) :=
  inferInstanceAs (Decidable (_ ∧ ∀ _token : τ, _))

/-- An update that leaves the link of its record alone is refused for that link. -/
def RefusesForLink (s s' : World τ ι β π) (p : π) : Prop :=
  ∃ target stage rest, s.process p = .updating target none stage rest ∧
    stage.checking = true ∧ s'.process p = .updating target none .settled rest

/-- What an update under way holds: the lock of its record, the link it found there, and
the identities of the sessions it followed. -/
structure Updating (s : World τ ι β π) (p : π) (target : τ) (link : Option τ)
    (stage : Stage τ ι β) : Prop where
  locked : s.lock target = some p
  kept : link = none → ∀ record, stage.held = some record →
    Belongs (fun t => s.minted.lookup t) target record ∧
      (s.records target = none ∨ s.next target = record.retriedBy)
  known : ∀ hop ∈ stage.chain, s.minted.lookup hop.1 = some hop.2.identity

/-- Links are acyclic and lead to records that are there, and updates hold what they found. -/
structure Closable (s : World τ ι β π) : Prop where
  sound : Invariant s
  linked : ∀ token, s.Linked token → (s.records token).isSome
  updating : ∀ p target link stage rest, s.process p = .updating target link stage rest →
    s.Updating p target link stage

variable {s : World τ ι β π} {p : π} {target : τ} {link : Option τ} {stage : Stage τ ι β}
  {rest : Option (τ × List τ)}

theorem Closable.goto (h : Closable s) {phase : Phase τ ι β}
    (hsound : phase.Sound fun t => s.minted.lookup t)
    (hcarries : ∀ token, phase.carries = some token → (s.records token).isSome)
    (hupdating : ∀ target link stage rest, phase = .updating target link stage rest →
      s.Updating p target link stage) : Closable (s.goto p phase) where
  sound := h.sound.goto hsound
  linked token hlinked := by
    rcases hlinked with hstored | ⟨q, hq⟩
    · exact h.linked token (Or.inl hstored)
    · by_cases hqp : q = p
      · subst hqp
        apply hcarries token
        simpa [World.goto] using hq
      · apply h.linked token
        refine Or.inr ⟨q, ?_⟩
        simpa [World.goto, Function.update_of_ne hqp] using hq
  updating q target link stage rest hq := by
    by_cases hqp : q = p
    · subst hqp
      obtain ⟨hlocked, hkept, hknown⟩ := hupdating target link stage rest (by
        simpa [World.goto] using hq)
      exact ⟨hlocked, hkept, hknown⟩
    · obtain ⟨hlocked, hkept, hknown⟩ := h.updating q target link stage rest (by
        simpa [World.goto, Function.update_of_ne hqp] using hq)
      exact ⟨hlocked, hkept, hknown⟩

theorem Closable.away (h : Closable s) {phase : Phase τ ι β}
    (hphase : ∀ target link stage rest, phase ≠ .updating target link stage rest) :
    Closable (s.goto p phase) := by
  refine h.goto ?_ ?_ fun target link stage rest heq => absurd heq (hphase target link stage rest)
  · cases phase with
    | updating target link stage rest => exact absurd rfl (hphase target link stage rest)
    | _ => trivial
  · intro token hcarries
    cases phase with
    | updating target link stage rest => exact absurd rfl (hphase target link stage rest)
    | _ => cases hcarries

/-- The chain of a link an update leaves alone can be followed a hop further. -/
theorem Closable.hop_ok (h : Closable s) {record : Record τ ι β} {chain : List (τ × Record τ ι β)}
    (hp : s.process p = .updating target none (.following record chain) rest)
    (hcurrent : Current s.next chain) :
    ∃ found, hop s.records target (target :: chain.map Prod.fst)
      (chain.headD (target, record)).1 (chain.headD (target, record)).2 = .ok found := by
  have hupdating := h.updating p target none _ rest hp
  obtain ⟨hbelongs, hkept⟩ := hupdating.kept rfl record rfl
  have hsound := h.sound.sound p
  rw [hp] at hsound
  obtain ⟨-, -, hfollows⟩ := hsound
  cases hlink : (chain.headD (target, record)).2.retriedBy with
  | none =>
    refine ⟨none, ?_⟩
    unfold hop
    rw [hlink]
  | some next =>
    -- the session linked to is there, of the same identity, and was not followed before
    have hfacts : (s.records next).isSome ∧
        s.minted.lookup next = some (chain.headD (target, record)).2.identity ∧
        next ∉ target :: chain.map Prod.fst := by
      cases chain with
      | nil =>
        have hthere : (s.records next).isSome := by
          refine h.linked next (Or.inr ⟨p, ?_⟩)
          rw [hp]
          exact hlink
        refine ⟨hthere, hbelongs.link next hlink, ?_⟩
        simp only [List.map_nil, List.mem_singleton]
        rintro rfl
        rcases hkept with hgone | hstands
        · simp [hgone] at hthere
        · exact h.sound.acyclic next (.single (hstands.trans hlink))
      | cons last before =>
        have hstands : s.next last.1 = some next :=
          (hcurrent last List.mem_cons_self).trans hlink
        have hthere := h.linked next (Or.inl ⟨last.1, hstands⟩)
        obtain ⟨hall, first, hfirst, hreach⟩ := hfollows.reaches hcurrent last rfl
        obtain ⟨stored, hstored, hretried⟩ := Option.bind_eq_some_iff.mp hstands
        have hbelongs' := h.sound.belongs last.1 stored hstored
        have hidentity : stored.identity = last.2.identity :=
          Option.some.inj (hbelongs'.own.symm.trans (hupdating.known last List.mem_cons_self))
        refine ⟨hthere, ?_, ?_⟩
        · exact hidentity ▸ hbelongs'.link next hretried
        · intro hmem
          rcases List.mem_cons.mp hmem with rfl | hmem
          · rcases hkept with hgone | hown
            · simp [hgone] at hthere
            · have hstart : Links s.next next first := hown.trans hfirst
              exact h.sound.acyclic next ((Relation.TransGen.head' hstart hreach).tail hstands)
          · obtain ⟨hop, hhop, rfl⟩ := List.mem_map.mp hmem
            exact h.sound.acyclic hop.1 (.tail' (hall hop hhop) hstands)
    obtain ⟨hthere, hidentity, hfresh⟩ := hfacts
    obtain ⟨followed, hfollowed⟩ := Option.isSome_iff_exists.mp hthere
    have hsame : followed.identity = (chain.headD (target, record)).2.identity :=
      Option.some.inj ((h.sound.belongs next followed hfollowed).own.symm.trans hidentity)
    refine ⟨some (next, followed), ?_⟩
    unfold hop
    simp only [hlink, if_neg hfresh, hfollowed]
    rw [if_neg (not_not.mpr hsame)]

/-! ## Steps -/

theorem Closable.settled (h : Closable s) (hlocked : s.lock target = some p) :
    Closable (s.goto p (.updating target link .settled rest)) := by
  refine h.goto trivial (fun token hcarries => by cases link <;> cases hcarries) ?_
  intro target' link' stage rest' heq
  cases heq
  exact ⟨hlocked, fun _ _ hheld => (by cases hheld), fun _ hmem => (by cases hmem)⟩

theorem Closable.load (h : Closable s) {s' : World τ ι β π}
    (hp : s.process p = .updating target link .locked rest)
    (hs : s.updateStep p target link rest .locked .load = some s') : Closable s' := by
  have hlocked := (h.updating p target link .locked rest hp).locked
  obtain rfl := Option.some.inj hs
  cases hrecord : s.records target with
  | none =>
    exact h.settled hlocked
  | some record =>
    have hbelongs := h.sound.belongs target record hrecord
    have hnext : s.next target = record.retriedBy := by simp [next, hrecord]
    refine h.goto hbelongs.own ?_ ?_
    · intro token hcarries
      cases link with
      | some _ => cases hcarries
      | none => exact h.linked token (Or.inl ⟨target, hnext.trans hcarries⟩)
    · intro target' link' stage rest' heq
      cases heq
      refine ⟨hlocked, ?_, fun _ hmem => by cases hmem⟩
      rintro rfl _ hheld
      obtain rfl := Option.some.inj hheld
      exact ⟨hbelongs, Or.inr hnext⟩

/-- The session a record links to is loaded: it is none of this identity, there is none to
load, or it is there. -/
theorem check_cases {s' : World τ ι β π} {record : Record τ ι β}
    (hs : s.updateStep p target link rest (.changed record) .check = some s') :
    (∃ next, record.retriedBy = some next ∧ s' = s.goto p (.updating target link .settled rest) ∧
      ∀ followed, s.records next = some followed → followed.identity ≠ record.identity) ∨
    (record.retriedBy = none ∧ s' = s.goto p (.updating target link (.followed record []) rest)) ∨
    ∃ next, record.retriedBy = some next ∧ (s.records next).isSome ∧
      s' = s.goto p (.updating target link (.following record []) rest) := by
  obtain rfl := Option.some.inj hs
  cases hlink : record.retriedBy with
  | none => exact Or.inr (Or.inl ⟨rfl, rfl⟩)
  | some next =>
    simp only
    cases hfollowed : s.records next with
    | none => exact Or.inl ⟨next, rfl, rfl, fun _ hthere => nomatch hfollowed.symm.trans hthere⟩
    | some followed =>
      by_cases hidentity : followed.identity = record.identity
      · refine Or.inr (Or.inr ⟨next, rfl, by rw [hfollowed]; rfl, ?_⟩)
        simp [hidentity]
      · refine Or.inl ⟨next, rfl, by simp [hidentity], fun other hthere => ?_⟩
        obtain rfl := Option.some.inj (hfollowed.symm.trans hthere)
        exact hidentity

theorem Closable.check (h : Closable s) {s' : World τ ι β π} {record : Record τ ι β}
    (hp : s.process p = .updating target link (.changed record) rest)
    (hs : s.updateStep p target link rest (.changed record) .check = some s') : Closable s' := by
  have hupdating := h.updating p target link _ rest hp
  have hphase := (h.sound.updateStep hp (by rintro ⟨⟩) hs).sound p
  rcases check_cases hs with ⟨-, -, rfl, -⟩ | ⟨hnone, rfl⟩ | ⟨next, hlink, hthere, rfl⟩
  · exact h.settled hupdating.locked
  · refine h.goto (by simpa [World.goto] using hphase) ?_ ?_
    · intro token hcarries
      cases link <;> simp [Phase.carries, Stage.held, hnone] at hcarries
    · intro target' link' stage rest' heq
      cases heq
      exact ⟨hupdating.locked, hupdating.kept, fun _ hmem => by cases hmem⟩
  · refine h.goto (by simpa [World.goto] using hphase) ?_ ?_
    · intro token hcarries
      obtain rfl : next = token := by
        cases link <;> simpa [Phase.carries, Stage.held, hlink] using hcarries
      exact hthere
    · intro target' link' stage rest' heq
      cases heq
      exact ⟨hupdating.locked, hupdating.kept, fun _ hmem => by cases hmem⟩

theorem hop_cases {s' : World τ ι β π} {record : Record τ ι β} {chain : List (τ × Record τ ι β)}
    (hs : s.updateStep p target link rest (.following record chain) .hop = some s') :
    (∃ broken, hop s.records target (target :: chain.map Prod.fst)
        (chain.headD (target, record)).1 (chain.headD (target, record)).2 = .error broken ∧
      s' = s.goto p (.updating target link .settled rest)) ∨
    s' = s.goto p (.updating target link (.followed record chain) rest) ∨
    ∃ next followed, s.records next = some followed ∧
      s' = s.goto p (.updating target link (.following record ((next, followed) :: chain)) rest) := by
  obtain rfl := Option.some.inj hs
  cases hhop : hop s.records target (target :: chain.map Prod.fst)
      (chain.headD (target, record)).1 (chain.headD (target, record)).2 with
  | error broken => exact Or.inl ⟨broken, rfl, rfl⟩
  | ok found =>
    cases found with
    | none => exact Or.inr (Or.inl (rfl))
    | some followed =>
      obtain ⟨next, followed⟩ := followed
      exact Or.inr (Or.inr ⟨next, followed, (hop_eq_some hhop).2.2, rfl⟩)

theorem Closable.hop (h : Closable s) {s' : World τ ι β π} {record : Record τ ι β}
    {chain : List (τ × Record τ ι β)}
    (hp : s.process p = .updating target link (.following record chain) rest)
    (hs : s.updateStep p target link rest (.following record chain) .hop = some s') :
    Closable s' := by
  have hupdating := h.updating p target link _ rest hp
  have hphase := (h.sound.updateStep hp (by rintro ⟨⟩) hs).sound p
  have hcarried : ∀ token, record.retriedBy = some token → (s.records token).isSome := by
    intro token hlink
    apply h.linked token
    refine Or.inr ⟨p, ?_⟩
    rw [hp]
    cases link <;> exact hlink
  rcases hop_cases hs with ⟨-, -, rfl⟩ | rfl | ⟨next, followed, hfollowed, rfl⟩
  · exact h.settled hupdating.locked
  · refine h.goto (by simpa [World.goto] using hphase) ?_ ?_
    · intro token hcarries
      apply hcarried token
      cases link <;> exact hcarries
    · intro target' link' stage rest' heq
      cases heq
      exact ⟨hupdating.locked, hupdating.kept, hupdating.known⟩
  · refine h.goto (by simpa [World.goto] using hphase) ?_ ?_
    · intro token hcarries
      apply hcarried token
      cases link <;> exact hcarries
    · intro target' link' stage rest' heq
      cases heq
      refine ⟨hupdating.locked, hupdating.kept, List.forall_mem_cons.mpr ⟨?_, hupdating.known⟩⟩
      exact (h.sound.belongs next followed hfollowed).own

/-- A link that is set is saved along an undisturbed chain, and one left alone is saved as
it stands, or onto a record that was forgotten and that nothing links to. -/
theorem Closable.savesAcyclic (h : Closable s) (hok : s.KeepsLinks (.act p .save)) :
    s.SavesAcyclic p := by
  intro target link record chain rest hp
  cases link with
  | some new =>
    refine h.sound.savesAcyclic ?_ target (some new) record chain rest hp
    simpa [standing, savesUndisturbed, hp] using hok.1
  | none =>
    obtain ⟨-, hgone | hstands⟩ := (h.updating p target none _ rest hp).kept rfl record rfl
    · have hunstored : ∀ token, s.Linked token → token ≠ target := by
        rintro token hlinked rfl
        have hthere := h.linked token hlinked
        simp [hgone] at hthere
      apply h.sound.acyclic.update_unlinked
      · exact fun b hb => hunstored target (Or.inl ⟨b, hb⟩) rfl
      · exact fun hself => hunstored target (Or.inr ⟨p, by rw [hp]; exact hself⟩) rfl
    · rw [← hstands, Function.update_eq_self]
      exact h.sound.acyclic

theorem Closable.alone (h : Closable s) (hlocked : s.lock target = some p) {q : π} (hq : q ≠ p)
    {target' : τ} {link' : Option τ} {stage' : Stage τ ι β} {rest' : Option (τ × List τ)}
    (hp : s.process q = .updating target' link' stage' rest') : target' ≠ target := by
  rintro rfl
  have hother := (h.updating q target' link' stage' rest' hp).locked
  exact hq (Option.some.inj (hother.symm.trans hlocked))

theorem Closable.save (h : Closable s) {s' : World τ ι β π} {record : Record τ ι β}
    {chain : List (τ × Record τ ι β)} (hok : s.KeepsLinks (.act p .save))
    (hp : s.process p = .updating target link (.followed record chain) rest)
    (hs : s.updateStep p target link rest (.followed record chain) .save = some s') :
    Closable s' := by
  have hlocked := (h.updating p target link _ rest hp).locked
  have hsound : Invariant s' := h.sound.updateStep hp (fun _ => h.savesAcyclic hok) hs
  obtain rfl := Option.some.inj hs
  have hkeeps : ∀ token, (s.records token).isSome →
      (Function.update s.records target (some record) token).isSome := by
    intro token hthere
    by_cases heq : token = target
    · rw [heq, Function.update_self]
      rfl
    · rwa [Function.update_of_ne heq]
  refine ⟨hsound, ?_, ?_⟩
  · rintro token (⟨t, ht⟩ | ⟨q, hq⟩)
    · apply hkeeps token
      apply h.linked token
      have hnext : Function.update s.next target record.retriedBy t = some token := by
        have hstored := congrFun (next_store (s := s) target (some record)) t
        exact hstored.symm.trans ht
      by_cases heq : t = target
      · rw [heq, Function.update_self] at hnext
        refine Or.inr ⟨p, ?_⟩
        rw [hp]
        cases link <;> exact hnext
      · rw [Function.update_of_ne heq] at hnext
        exact Or.inl ⟨t, hnext⟩
    · apply hkeeps token
      apply h.linked token
      by_cases hqp : q = p
      · subst hqp
        simp only [World.goto, Function.update_self] at hq
        cases link <;> cases hq
      · refine Or.inr ⟨q, ?_⟩
        simpa [World.goto, World.store, Function.update_of_ne hqp] using hq
  · intro q target' link' stage' rest' hq
    by_cases hqp : q = p
    · subst hqp
      have hsame : Phase.updating target link .settled rest = .updating target' link' stage' rest' := by
        simpa [World.goto] using hq
      cases hsame
      exact ⟨hlocked, fun _ _ hheld => (by cases hheld), fun _ hmem => (by cases hmem)⟩
    · have hq' : s.process q = .updating target' link' stage' rest' := by
        simpa [World.goto, World.store, Function.update_of_ne hqp] using hq
      have hne := h.alone hlocked hqp hq'
      obtain ⟨hlocked', hkept', hknown'⟩ := h.updating q target' link' stage' rest' hq'
      refine ⟨hlocked', fun hnone held hheld => ?_, hknown'⟩
      obtain ⟨hbelongs, hstored⟩ := hkept' hnone held hheld
      refine ⟨hbelongs, ?_⟩
      simpa [World.next, World.goto, World.store, Function.update_of_ne hne] using hstored

/-- A lock is taken, or let go, by the process whose next phase it is. -/
theorem Closable.relock (h : Closable s) (phase : Phase τ ι β) {held : Option π}
    (hsound : phase.Sound fun t => s.minted.lookup t) (hcarries : phase.carries = none)
    (hothers : ∀ q, s.lock target = some q → q = p)
    (hupdating : ∀ target' link stage rest, phase = .updating target' link stage rest →
      target' = target ∧ held = some p ∧ stage.held = none ∧ stage.chain = []) :
    Closable { s.goto p phase with lock := Function.update s.lock target held } where
  sound := (h.sound.goto hsound).locks _
  linked token hlinked := by
    apply h.linked token
    rcases hlinked with hstored | ⟨q, hq⟩
    · exact Or.inl hstored
    · by_cases hqp : q = p
      · subst hqp
        simp [World.goto, hcarries] at hq
      · refine Or.inr ⟨q, ?_⟩
        simpa [World.goto, Function.update_of_ne hqp] using hq
  updating q target' link stage rest hq := by
    by_cases hqp : q = p
    · subst hqp
      obtain ⟨rfl, rfl, hheld, hchain⟩ := hupdating target' link stage rest (by
        simpa [World.goto] using hq)
      refine ⟨Function.update_self .., fun _ record hrecord => ?_, fun hop hmem => ?_⟩
      · cases hheld.symm.trans hrecord
      · simp [hchain] at hmem
    · have hq' : s.process q = .updating target' link stage rest := by
        simpa [World.goto, Function.update_of_ne hqp] using hq
      obtain ⟨hlocked, hkept, hknown⟩ := h.updating q target' link stage rest hq'
      have hne : target' ≠ target := by
        rintro rfl
        exact hqp (hothers q hlocked)
      exact ⟨(Function.update_of_ne hne ..).trans hlocked, hkept, hknown⟩

theorem Closable.lockFor (h : Closable s) {s' : World τ ι β π}
    (hs : s.lockFor p target link rest = some s') : Closable s' := by
  unfold World.lockFor at hs
  split at hs
  · cases hs
  · rename_i hfree
    obtain rfl := Option.some.inj hs
    refine h.relock (.updating target link .locked rest) trivial ?_ ?_ ?_
    · cases link <;> rfl
    · intro q hq
      cases hfree.symm.trans hq
    · intro target' link' stage rest' heq
      cases heq
      exact ⟨rfl, rfl, rfl, rfl⟩

theorem Closable.release (h : Closable s) {s' : World τ ι β π}
    (hp : s.process p = .updating target link .settled rest)
    (hs : s.updateStep p target link rest .settled .release = some s') : Closable s' := by
  have hlocked := (h.updating p target link _ rest hp).locked
  obtain rfl := Option.some.inj hs
  refine h.relock _ ?_ ?_ ?_ ?_
  · cases rest <;> trivial
  · cases rest <;> rfl
  · intro q hq
    exact Option.some.inj (hq.symm.trans hlocked)
  · intro target' link' stage rest' heq
    cases rest <;> cases heq

/-- A session's first record links to nothing, and no record was there. -/
theorem Closable.create (h : Closable s) {token : τ} {identity : ι} {branch : β}
    (hnew : s.minted.lookup token = none) (hfree : s.lock token = none) :
    Closable { (s.store token (some ⟨identity, branch, none⟩)).goto p
      (.opened token ⟨identity, branch, none⟩) with minted := (token, identity) :: s.minted } := by
  have hsound : Invariant { (s.store token (some ⟨identity, branch, none⟩)).goto p
      (.opened token ⟨identity, branch, none⟩) with minted := (token, identity) :: s.minted } := by
    have hcreated : Invariant { s.store token (some ⟨identity, branch, none⟩) with
      minted := (token, identity) :: s.minted } := h.sound.create hnew
    exact hcreated.goto (p := p) trivial
  have hmono : ∀ t i, s.minted.lookup t = some i →
      ((token, identity) :: s.minted).lookup t = some i :=
    fun _ _ ht => lookup_cons_of_some hnew ht
  refine ⟨hsound, ?_, ?_⟩
  · rintro t hlinked
    have hbefore : s.Linked t := by
      rcases hlinked with ⟨a, ha⟩ | ⟨q, hq⟩
      · left
        by_cases heq : a = token
        · subst heq
          simp [World.next, World.goto, World.store] at ha
        · exact ⟨a, by simpa [World.next, World.goto, World.store, Function.update_of_ne heq] using ha⟩
      · right
        by_cases hqp : q = p
        · subst hqp
          simp [World.goto, Phase.carries] at hq
        · exact ⟨q, by simpa [World.goto, World.store, Function.update_of_ne hqp] using hq⟩
    have hthere := h.linked t hbefore
    by_cases heq : t = token
    · simp [World.goto, World.store, heq]
    · simpa [World.goto, World.store, Function.update_of_ne heq] using hthere
  · intro q target' link' stage' rest' hq
    by_cases hqp : q = p
    · subst hqp
      simp [World.goto] at hq
    · have hq' : s.process q = .updating target' link' stage' rest' := by
        simpa [World.goto, World.store, Function.update_of_ne hqp] using hq
      obtain ⟨hlocked, hkept, hknown⟩ := h.updating q target' link' stage' rest' hq'
      have hne : target' ≠ token := by
        rintro rfl
        cases hfree.symm.trans hlocked
      refine ⟨hlocked, fun hnone held hheld => ?_, fun hop hmem => hmono _ _ (hknown hop hmem)⟩
      obtain ⟨hbelongs, hstored⟩ := hkept hnone held hheld
      refine ⟨hbelongs.mono hmono, ?_⟩
      simpa [World.next, World.goto, World.store, Function.update_of_ne hne] using hstored

theorem Closable.forget (h : Closable s) {token : τ} (hunlinked : ¬ s.Linked token) :
    Closable (s.store token none) where
  sound := h.sound.store (h.sound.acyclic.update_none token) (by simp)
  linked t hlinked := by
    have hbefore : s.Linked t := by
      rcases hlinked with ⟨a, ha⟩ | hcarried
      · left
        by_cases heq : a = token
        · subst heq
          simp [World.next, World.store] at ha
        · exact ⟨a, by simpa [World.next, World.store, Function.update_of_ne heq] using ha⟩
      · exact Or.inr hcarried
    have hne : t ≠ token := by
      rintro rfl
      exact hunlinked hbefore
    simpa [World.store, Function.update_of_ne hne] using h.linked t hbefore
  updating q target link stage rest hq := by
    obtain ⟨hlocked, hkept, hknown⟩ := h.updating q target link stage rest hq
    refine ⟨hlocked, fun hnone held hheld => ?_, hknown⟩
    obtain ⟨hbelongs, hstored⟩ := hkept hnone held hheld
    refine ⟨hbelongs, ?_⟩
    by_cases heq : target = token
    · subst heq
      simp [World.store]
    · simpa [World.next, World.store, Function.update_of_ne heq] using hstored

theorem act_process_of_ne {s' : World τ ι β π} {q : π} {act : Act τ ι β} (hne : p ≠ q)
    (hs : s.act q act = some s') : s'.process p = s.process p := by
  have hstays : ∀ phase : Phase τ ι β, Function.update s.process q phase p = s.process p :=
    fun phase => Function.update_of_ne hne ..
  have hlock : ∀ {target : τ} {link : Option τ} {rest : Option (τ × List τ)},
      s.lockFor q target link rest = some s' → s'.process p = s.process p := by
    intro target link rest hs
    unfold World.lockFor at hs
    split at hs
    · cases hs
    · obtain rfl := Option.some.inj hs
      exact hstays _
  unfold World.act at hs
  split at hs
  · split_ifs at hs
    obtain rfl := Option.some.inj hs
    exact hstays _
  · obtain rfl := Option.some.inj hs
    exact hstays _
  · obtain rfl := Option.some.inj hs
    exact hstays _
  · obtain rfl := Option.some.inj hs
    exact hstays _
  · obtain rfl := Option.some.inj hs
    exact hstays _
  · obtain rfl := Option.some.inj hs
    exact hstays _
  · exact hlock hs
  · exact hlock hs
  · unfold World.updateStep at hs
    split at hs
    · obtain rfl := Option.some.inj hs
      exact hstays _
    · obtain rfl := Option.some.inj hs
      exact hstays _
    · obtain rfl := Option.some.inj hs
      exact hstays _
    · obtain rfl := Option.some.inj hs
      exact hstays _
    · obtain rfl := Option.some.inj hs
      exact hstays _
    · cases hs
  · cases hs

theorem Closable.updateStep (h : Closable s) {s' : World τ ι β π} {act : Act τ ι β}
    (hp : s.process p = .updating target link stage rest) (hok : s.KeepsLinks (.act p act))
    (hs : s.updateStep p target link rest stage act = some s') : Closable s' := by
  cases stage with
  | locked =>
    cases act with
    | load => exact h.load hp hs
    | _ => cases hs
  | changed record =>
    cases act with
    | check => exact h.check hp hs
    | _ => cases hs
  | following record chain =>
    cases act with
    | hop => exact h.hop hp hs
    | _ => cases hs
  | followed record chain =>
    cases act with
    | save => exact h.save hok hp hs
    | _ => cases hs
  | settled =>
    cases act with
    | release => exact h.release hp hs
    | _ => cases hs

theorem Closable.act (h : Closable s) {s' : World τ ι β π} {act : Act τ ι β}
    (hok : s.KeepsLinks (.act p act)) (hs : s.act p act = some s') : Closable s' := by
  unfold World.act at hs
  split at hs
  · -- create
    split_ifs at hs with hused
    obtain rfl := Option.some.inj hs
    simp only [not_or, Bool.not_eq_true, Option.isSome_eq_false_iff, Option.isNone_iff_eq_none]
      at hused
    exact h.create hused.1 hused.2
  · obtain rfl := Option.some.inj hs
    exact h.away (by rintro _ _ _ _ ⟨⟩)
  · obtain rfl := Option.some.inj hs
    exact h.away (by rintro _ _ _ _ ⟨⟩)
  · obtain rfl := Option.some.inj hs
    exact h.away (by rintro _ _ _ _ ⟨⟩)
  · obtain rfl := Option.some.inj hs
    exact h.away (by rintro _ _ _ _ ⟨⟩)
  · obtain rfl := Option.some.inj hs
    exact h.away (by rintro _ _ _ _ ⟨⟩)
  · exact h.lockFor hs
  · exact h.lockFor hs
  · rename_i hp
    exact h.updateStep hp hok hs
  · cases hs

theorem Closable.step (h : Closable s) {s' : World τ ι β π} {label : Label τ ι β π}
    (hok : s.KeepsLinks label) (hs : s.step label = some s') : Closable s' := by
  cases label with
  | act p act => exact h.act hok hs
  | forget token =>
    obtain rfl := Option.some.inj hs
    exact h.forget (hok.2 token rfl)

theorem closable_of_reachable
    (h : (opens τ ι β π).ReachableBy (fun s label => s.KeepsLinks label) s) : Closable s := by
  refine h.invariant ?_ fun _ _ _ hi hok hs => hi.step hok hs
  intro s hinitial
  have hsound : Invariant s := invariant_initial hinitial
  obtain ⟨hrecords, -, -, hprocess⟩ := hinitial
  refine ⟨hsound, ?_, ?_⟩
  · rintro token (⟨t, ht⟩ | ⟨q, hq⟩)
    · simp [World.next, hrecords] at ht
    · simp [hprocess, Phase.carries] at hq
  · intro q target link stage rest hq
    simp [hprocess] at hq

/-- A step of an update that leaves its record's link alone does not refuse it. -/
theorem Closable.not_refuses (h : Closable s) {s' : World τ ι β π} {label : Label τ ι β π}
    (hok : s.KeepsLinks label) (hs : s.step label = some s') (p : π) :
    ¬ RefusesForLink s s' p := by
  rintro ⟨target, stage, rest, hp, hchecking, hrefused⟩
  have hupdating := h.updating p target none stage rest hp
  -- the step is one of the update's own
  have hown : ∃ act, label = .act p act ∧ s.updateStep p target none rest stage act = some s' := by
    have hmoved : s'.process p ≠ s.process p := by
      rw [hp, hrefused]
      rintro ⟨⟩
      cases hchecking
    cases label with
    | forget token =>
      obtain rfl := Option.some.inj hs
      exact absurd rfl hmoved
    | act q act =>
      by_cases hqp : q = p
      · subst hqp
        refine ⟨act, rfl, ?_⟩
        change s.act q act = some s' at hs
        unfold World.act at hs
        rw [hp] at hs
        exact hs
      · exact absurd (act_process_of_ne (Ne.symm hqp) hs) hmoved
  obtain ⟨act, rfl, hs⟩ := hown
  cases stage with
  | changed record =>
    cases act with
    | check =>
      rcases check_cases hs with ⟨next, hlink, rfl, hmissing⟩ | ⟨-, rfl⟩ | ⟨-, -, -, rfl⟩
      · have hthere : (s.records next).isSome := by
          refine h.linked next (Or.inr ⟨p, ?_⟩)
          rw [hp]
          exact hlink
        obtain ⟨followed, hfollowed⟩ := Option.isSome_iff_exists.mp hthere
        apply hmissing followed hfollowed
        have hbelongs := (hupdating.kept rfl record rfl).1
        have hown := (h.sound.belongs next followed hfollowed).own
        exact Option.some.inj (hown.symm.trans (hbelongs.link next hlink))
      · simp [World.goto] at hrefused
      · simp [World.goto] at hrefused
    | _ => cases hs
  | following record chain =>
    cases act with
    | hop =>
      have hcurrent : Current s.next chain := by simpa [standing, hp] using hok.1
      obtain ⟨found, hfound⟩ := h.hop_ok hp hcurrent
      rcases hop_cases hs with ⟨broken, hbroken, -⟩ | rfl | ⟨next, followed, -, rfl⟩
      · cases hfound.symm.trans hbroken
      · simp [World.goto] at hrefused
      · simp [World.goto] at hrefused
    | _ => cases hs
  | _ => cases hchecking

end World

/-- In every run that forgets no record another links to, and that follows and saves links
along chains that stand, no update is refused for a link it leaves alone. -/
theorem updates_closable {s s' : World τ ι β π} {label : Label τ ι β π}
    (h : (opens τ ι β π).ReachableBy (fun s label => s.KeepsLinks label) s)
    (hok : s.KeepsLinks label) (hs : s.step label = some s') (p : π) :
    ¬ s.RefusesForLink s' p :=
  (World.closable_of_reachable h).not_refuses hok hs p

/-! ## A record that was continued -/

/-- A host that has no session yet, for two sessions and two processes. -/
def twoSessions : World Bool Unit Unit Bool :=
  ⟨fun _ => none, [], fun _ => none, fun _ => .idle⟩

theorem twoSessions_initial : (opens Bool Unit Unit Bool).Initial twoSessions :=
  ⟨rfl, rfl, rfl, rfl⟩

/-- The second session continues the branch of the first. -/
def continues : List (Label Bool Unit Unit Bool) :=
  [.act false (.create false () ()), .act false .finish, .act true (.create true () ()),
    .act true (.list [false, true]), .act true .read, .act true .read, .act true .read,
    .act true .take, .act true .load, .act true .check, .act true .hop, .act true .hop,
    .act true .save, .act true .release, .act true .take]

/-- The first session is being closed: its record is read and changed. -/
def closes : List (Label Bool Unit Unit Bool) := [.act false (.update false), .act false .load]

theorem closing_runs :
    ((opens Bool Unit Unit Bool).run twoSessions (continues ++ closes)).isSome := by decide

/-- The host while the first session is being closed. -/
def closing : World Bool Unit Unit Bool :=
  ((opens Bool Unit Unit Bool).run twoSessions (continues ++ closes)).get closing_runs

theorem updates_closable_closing : ∃ s', closing.step (.act false .check) = some s' ∧
    ¬ closing.RefusesForLink s' false := by
  have hreach : (opens Bool Unit Unit Bool).ReachableBy
      (fun s label => s.KeepsLinks label) closing :=
    Foundations.System.reachableBy_of_run twoSessions_initial (by decide)
      (Option.some_get closing_runs).symm
  have hsteps : (closing.step (.act false .check)).isSome := by decide
  refine ⟨_, (Option.some_get hsteps).symm, ?_⟩
  exact updates_closable hreach (by decide) (Option.some_get hsteps).symm false

theorem forgetting_runs : ((opens Bool Unit Unit Bool).run twoSessions
    (continues ++ [.forget true] ++ closes)).isSome := by decide

/-- The host while the first session is being closed, and the second was forgotten. -/
def forgetting : World Bool Unit Unit Bool :=
  ((opens Bool Unit Unit Bool).run twoSessions
    (continues ++ [.forget true] ++ closes)).get forgetting_runs

theorem forgetting_checks : (forgetting.step (.act false .check)).isSome := by decide

/-- Its close is refused for the link it carries. -/
theorem forgetting_refuses : (opens Bool Unit Unit Bool).Reachable forgetting ∧
    ∃ s', forgetting.step (.act false .check) = some s' ∧ forgetting.RefusesForLink s' false := by
  refine ⟨Foundations.System.reachable_of_run twoSessions_initial
    (Option.some_get forgetting_runs).symm, _, (Option.some_get forgetting_checks).symm, false,
    .changed ⟨(), (), some true⟩, none, ?_⟩
  decide

end Onevcs.Sessions
