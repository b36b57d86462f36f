import Mathlib.Algebra.BigOperators.Group.Finset.Basic
import Mathlib.Data.Set.Card
import Onevcs.NativeObjects.PaintAnswers
import Onevcs.NativeObjects.Ranges

/-!
# What the counts and the ranges are

That `View::count` and `View::linear_range` answer about the history: the number of commits that
are reached from one and from none of the others, and those commits as a single line.
-/

namespace Foundations.Dag

variable {κ : Type*}

/-- Reached from a tip, and from none of the hidden commits. -/
def Outgoing (G : Dag κ) (tip : κ) (hidden : List κ) (c : κ) : Prop :=
  G.Reaches tip c ∧ ∀ h ∈ hidden, ¬ G.Reaches h c

/-- The commits of a history, and their parents once more for each. -/
def size (G : Dag κ) : ℕ := G.nodes.card + ∑ c ∈ G.nodes, (G.parents c).length

end Foundations.Dag

namespace Onevcs.NativeObjects

open Foundations

variable {κ : Type*} [DecidableEq κ] {G : Dag κ} {view : View κ}

section Listing

variable {root next c : κ} {seen set : Finset κ} {pending : List κ} {reader : Reader κ}

theorem foldl_note (parents : List κ) (noted : Finset κ × List κ) :
    (parents.foldl note noted).1 = noted.1 ∪ parents.toFinset ∧
      ∃ fresh, (parents.foldl note noted).2 = fresh ++ noted.2 ∧
        (∀ c ∈ fresh, c ∈ parents) ∧ (∀ c ∈ parents, c ∈ noted.1 ∨ c ∈ fresh) ∧
        fresh.length + noted.1.card = (parents.foldl note noted).1.card := by
  induction parents generalizing noted with
  | nil => exact ⟨by simp, [], rfl, nofun, nofun, by simp⟩
  | cons parent rest ih =>
    rw [List.foldl_cons]
    obtain ⟨hseen, fresh, hpending, hfresh, hall, hcard⟩ := ih (note noted parent)
    by_cases hin : parent ∈ noted.1
    · have hnote : note noted parent = noted := if_pos hin
      rw [hnote] at hseen hpending hcard hall ⊢
      refine ⟨?_, fresh, hpending, fun c hc => List.mem_cons_of_mem _ (hfresh c hc), ?_, hcard⟩
      · rw [hseen, List.toFinset_cons, Finset.union_insert, Finset.insert_eq_of_mem]
        exact Finset.mem_union_left _ hin
      · intro c hc
        rcases List.mem_cons.mp hc with rfl | hc
        · exact .inl hin
        · exact hall c hc
    · have hnote : note noted parent = (insert parent noted.1, parent :: noted.2) := if_neg hin
      rw [hnote] at hseen hpending hcard hall ⊢
      refine ⟨?_, fresh ++ [parent], by simp [hpending], ?_, ?_, ?_⟩
      · rw [hseen, List.toFinset_cons, Finset.union_insert, Finset.insert_union]
      · intro c hc
        rcases List.mem_append.mp hc with hc | hc
        · exact List.mem_cons_of_mem _ (hfresh c hc)
        · exact List.mem_singleton.mp hc ▸ List.mem_cons_self
      · intro c hc
        rcases List.mem_cons.mp hc with rfl | hc
        · exact .inr (List.mem_append_right _ List.mem_cons_self)
        · rcases hall c hc with hin | hin
          · rcases Finset.mem_insert.mp hin with rfl | hin
            · exact .inr (List.mem_append_right _ List.mem_cons_self)
            · exact .inl hin
          · exact .inr (List.mem_append_left _ hin)
      · rw [← hcard, Finset.card_insert_of_notMem hin, List.length_append, List.length_singleton]
        omega

/-- What the loop of `View::ancestors` has seen: ancestors only, with the parents of those that
are not pending. -/
structure Seen (G : Dag κ) (root : κ) (seen : Finset κ) (pending : List κ) : Prop where
  starts : root ∈ seen
  reached : ∀ c ∈ seen, G.Reaches root c
  noted : ∀ c ∈ pending, c ∈ seen
  closed : ∀ c ∈ seen, c ∉ pending → ∀ p ∈ G.parents c, p ∈ seen

omit [DecidableEq κ] in
theorem Seen.start : Seen G root {root} [root] where
  starts := Finset.mem_singleton_self root
  reached c hc := by
    rw [Finset.mem_singleton.mp hc]
    exact Dag.Reaches.refl root
  noted c hc := Finset.mem_singleton.mpr (List.mem_singleton.mp hc)
  closed c hc hnot := absurd (List.mem_singleton.mpr (Finset.mem_singleton.mp hc)) hnot

theorem Seen.turn (h : Seen G root seen (next :: pending)) :
    Seen G root ((G.parents next).foldl note (seen, pending)).1
      ((G.parents next).foldl note (seen, pending)).2 := by
  obtain ⟨hseen, fresh, hpending, hfresh, hall, -⟩ :=
    foldl_note (G.parents next) (seen, pending)
  rw [hseen, hpending]
  have hnext : next ∈ seen := h.noted next List.mem_cons_self
  refine ⟨Finset.mem_union_left _ h.starts, ?_, ?_, ?_⟩
  · intro c hc
    rcases Finset.mem_union.mp hc with hc | hc
    · exact h.reached c hc
    · exact (h.reached next hnext).tail (List.mem_toFinset.mp hc)
  · intro c hc
    rcases List.mem_append.mp hc with hc | hc
    · exact Finset.mem_union_right _ (List.mem_toFinset.mpr (hfresh c hc))
    · exact Finset.mem_union_left _ (h.noted c (List.mem_cons_of_mem _ hc))
  · intro c hc hnot p hp
    rw [List.mem_append, not_or] at hnot
    have hold : c ∈ seen := by
      rcases Finset.mem_union.mp hc with hc | hc
      · exact hc
      · exact (hall c (List.mem_toFinset.mp hc)).resolve_right hnot.1
    by_cases hcn : c = next
    · subst hcn
      exact Finset.mem_union_right _ (List.mem_toFinset.mpr hp)
    · refine Finset.mem_union_left _ (h.closed c hold ?_ p hp)
      rw [List.mem_cons, not_or]
      exact ⟨hcn, hnot.2⟩

omit [DecidableEq κ] in
theorem Seen.mem_iff (h : Seen G root seen []) : c ∈ seen ↔ G.Reaches root c := by
  refine ⟨h.reached c, fun hreach => ?_⟩
  have hall : c ∈ seen ∨ False :=
    hreach.of_closed (· ∈ seen) (fun _ => False) (.inl h.starts)
      (fun d hd p hp => .inl (h.closed d hd nofun p hp)) nofun
  exact hall.resolve_right id

theorem list_exact (hreads : view.Reads G) (h : Seen G root seen pending) {fuel : ℕ}
    (hlist : (view.list fuel seen pending reader).1 = .answered set) :
    ∀ c, c ∈ set ↔ G.Reaches root c := by
  induction fuel generalizing seen pending reader with
  | zero => cases hlist
  | succ fuel ih =>
    cases pending with
    | nil =>
      obtain rfl : seen = set := Outcome.answered.inj hlist
      exact fun c => h.mem_iff
    | cons next pending =>
      rw [View.list] at hlist
      split at hlist
      · cases hlist
      · next parsed reader' hcommit =>
        have hparents := hreads.parents _ _ (View.commit_stored hcommit)
        rw [hparents] at hlist
        dsimp only at hlist
        split at hlist
        · cases hlist
        · exact ih h.turn hlist

end Listing

/-- Every ancestry that is remembered is one. -/
def Lister.Remembers (G : Dag κ) (s : Lister κ) : Prop :=
  ∀ id set, s.listed id = some (some set) → ∀ c, c ∈ set ↔ G.Reaches id c

section Remembering

variable {s : Lister κ} {id c : κ} {set : Finset κ}

omit [DecidableEq κ] in
theorem Lister.Remembers.renewed (hs : s.Remembers G) (reader : Reader κ) :
    Lister.Remembers G { s with reader := reader } := hs

theorem Lister.Remembers.update (hs : s.Remembers G) (reader : Reader κ)
    {known : Option (Finset κ)} (h : ∀ set, known = some set → ∀ c, c ∈ set ↔ G.Reaches id c) :
    Lister.Remembers G ⟨reader, Function.update s.listed id (some known)⟩ := by
  intro other set hset
  change Function.update s.listed id (some known) other = _ at hset
  by_cases hother : other = id
  · subst hother
    rw [Function.update_self] at hset
    exact h set (Option.some.inj hset)
  · rw [Function.update_of_ne hother] at hset
    exact hs other set hset

theorem ancestors_exact (hreads : view.Reads G) (hs : s.Remembers G) (fuel : ℕ) (id : κ) :
    (view.ancestors fuel s id).2.Remembers G ∧
      ∀ set, (view.ancestors fuel s id).1 = .answered set → ∀ c, c ∈ set ↔ G.Reaches id c := by
  unfold View.ancestors
  split
  · next known hknown =>
    refine ⟨hs, fun set hset => ?_⟩
    obtain rfl : known = set := Outcome.answered.inj hset
    exact hs id known hknown
  · exact ⟨hs, nofun⟩
  · dsimp only
    split
    · exact ⟨hs.renewed _, nofun⟩
    · exact ⟨hs.update _ nofun, nofun⟩
    · next known hlist =>
      have hexact := list_exact hreads Seen.start hlist
      refine ⟨hs.update _ fun set hset => ?_, fun set hset => ?_⟩
      · exact Option.some.inj hset ▸ hexact
      · exact Outcome.answered.inj hset ▸ hexact

theorem excluded_exact (hreads : view.Reads G) (hs : s.Remembers G) (fuel : ℕ)
    (hidden : List κ) :
    (view.excluded fuel s hidden).2.Remembers G ∧
      ∀ sets, (view.excluded fuel s hidden).1 = .answered sets →
        ∀ c, (∃ set ∈ sets, c ∈ set) ↔ ∃ h ∈ hidden, G.Reaches h c := by
  induction hidden generalizing s with
  | nil =>
    refine ⟨hs, fun sets hsets => ?_⟩
    obtain rfl : [] = sets := Outcome.answered.inj hsets
    simp
  | cons id rest ih =>
    obtain ⟨hkept, hexact⟩ := ancestors_exact hreads hs fuel id
    rw [View.excluded]
    dsimp only
    split
    · exact ⟨hkept, nofun⟩
    · exact ⟨hkept, nofun⟩
    · next known hknown =>
      obtain ⟨hothers, hrest⟩ := ih hkept
      refine ⟨hothers, fun sets hsets => ?_⟩
      cases hmade : (view.excluded fuel (view.ancestors fuel s id).2 rest).1 with
      | unfinished => simp [hmade, Outcome.map] at hsets
      | declined => simp [hmade, Outcome.map] at hsets
      | answered others =>
        rw [hmade] at hsets
        obtain rfl : known :: others = sets := Outcome.answered.inj hsets
        intro c
        simp only [List.exists_mem_cons_iff, hexact known hknown c, hrest others hmade c]

end Remembering

section Gathering

variable {tip next c : κ} {members set : Finset κ} {pending : List κ} {reader : Reader κ}
variable {excluded : List (Finset κ)}

/-- What the loop of `View::only` has gathered of what a tip reaches. -/
structure Gathered (G : Dag κ) (tip : κ) (out : κ → Prop) (members : Finset κ)
    (pending : List κ) : Prop where
  starts : tip ∈ members ∨ out tip ∨ tip ∈ pending
  reached : ∀ c ∈ members, G.Reaches tip c ∧ ¬ out c
  waits : ∀ c ∈ pending, G.Reaches tip c
  closed : ∀ c ∈ members, ∀ p ∈ G.parents c, p ∈ members ∨ out p ∨ p ∈ pending

variable {out : κ → Prop}

omit [DecidableEq κ] in
theorem Gathered.start : Gathered G tip out ∅ [tip] where
  starts := .inr (.inr List.mem_cons_self)
  reached _ hc := absurd hc (Finset.notMem_empty _)
  waits c hc := by
    rw [List.mem_singleton.mp hc]
    exact Dag.Reaches.refl tip
  closed _ hc := absurd hc (Finset.notMem_empty _)

omit [DecidableEq κ] in
theorem Gathered.skip (h : Gathered G tip out members (next :: pending))
    (hnext : out next ∨ next ∈ members) : Gathered G tip out members pending := by
  have hpassed : ∀ c, c ∈ members ∨ out c ∨ c ∈ next :: pending →
      c ∈ members ∨ out c ∨ c ∈ pending := by
    rintro c (hc | hc | hc)
    · exact .inl hc
    · exact .inr (.inl hc)
    · rcases List.mem_cons.mp hc with rfl | hc
      · exact hnext.symm.imp_right .inl
      · exact .inr (.inr hc)
  exact ⟨hpassed tip h.starts, h.reached,
    fun c hc => h.waits c (List.mem_cons_of_mem _ hc),
    fun c hc p hp => hpassed p (h.closed c hc p hp)⟩

theorem Gathered.take (h : Gathered G tip out members (next :: pending)) (hnext : ¬ out next) :
    Gathered G tip out (insert next members) ((G.parents next).reverse ++ pending) := by
  have hreach := h.waits next List.mem_cons_self
  have hkept : ∀ c, c ∈ members ∨ out c ∨ c ∈ next :: pending →
      c ∈ insert next members ∨ out c ∨ c ∈ (G.parents next).reverse ++ pending := by
    rintro c (hc | hc | hc)
    · exact .inl (Finset.mem_insert_of_mem hc)
    · exact .inr (.inl hc)
    · rcases List.mem_cons.mp hc with rfl | hc
      · exact .inl (Finset.mem_insert_self _ _)
      · exact .inr (.inr (List.mem_append_right _ hc))
  refine ⟨hkept tip h.starts, ?_, ?_, ?_⟩
  · intro c hc
    rcases Finset.mem_insert.mp hc with rfl | hc
    · exact ⟨hreach, hnext⟩
    · exact h.reached c hc
  · intro c hc
    rcases List.mem_append.mp hc with hc | hc
    · exact hreach.tail (List.mem_reverse.mp hc)
    · exact h.waits c (List.mem_cons_of_mem _ hc)
  · intro c hc p hp
    rcases Finset.mem_insert.mp hc with rfl | hc
    · exact .inr (.inr (List.mem_append_left _ (List.mem_reverse.mpr hp)))
    · exact hkept p (h.closed c hc p hp)

omit [DecidableEq κ] in
theorem Gathered.mem_iff (h : Gathered G tip out members [])
    (hdown : ∀ c, out c → ∀ p ∈ G.parents c, out p) :
    c ∈ members ↔ G.Reaches tip c ∧ ¬ out c := by
  have hdone : ∀ c, c ∈ members ∨ out c ∨ c ∈ ([] : List κ) → c ∈ members ∨ out c := by
    rintro c (hc | hc | hc)
    · exact .inl hc
    · exact .inr hc
    · cases hc
  refine ⟨h.reached c, fun ⟨hreach, hnot⟩ => ?_⟩
  have hall := hreach.of_closed (· ∈ members) out (hdone tip h.starts)
    (fun d hd p hp => hdone p (h.closed d hd p hp)) hdown
  exact hall.resolve_right hnot

theorem gather_exact (hreads : view.Reads G)
    (hout : ∀ c, (∃ set ∈ excluded, c ∈ set) ↔ out c)
    (hdown : ∀ c, out c → ∀ p ∈ G.parents c, out p) (h : Gathered G tip out members pending)
    {fuel : ℕ} (hgather : (view.gather excluded fuel members pending reader).1 = .answered set) :
    ∀ c, c ∈ set ↔ G.Reaches tip c ∧ ¬ out c := by
  induction fuel generalizing members pending reader with
  | zero => cases hgather
  | succ fuel ih =>
    cases pending with
    | nil =>
      obtain rfl : members = set := Outcome.answered.inj hgather
      exact fun c => h.mem_iff hdown
    | cons next pending =>
      have hany : (excluded.any fun set => next ∈ set) = true ↔ out next := by
        rw [← hout, List.any_eq_true]
        simp
      rw [View.gather] at hgather
      split at hgather
      · next hskip =>
        rw [Bool.or_eq_true, hany, decide_eq_true_eq] at hskip
        exact ih (h.skip hskip) hgather
      · next hskip =>
        rw [Bool.or_eq_true, hany, not_or] at hskip
        split at hgather
        · cases hgather
        · next parsed reader' hcommit =>
          rw [hreads.parents _ _ (View.commit_stored hcommit)] at hgather
          exact ih (h.take hskip.1) hgather

theorem only_exact (hreads : view.Reads G) {s : Lister κ} (hs : s.Remembers G) (fuel : ℕ)
    (tip : κ) (hidden : List κ) :
    (view.only fuel s tip hidden).2.Remembers G ∧
      ∀ set, (view.only fuel s tip hidden).1 = .answered set →
        ∀ c, c ∈ set ↔ G.Outgoing tip hidden c := by
  obtain ⟨hkept, hsets⟩ := excluded_exact hreads hs fuel hidden
  unfold View.only
  dsimp only
  split
  · exact ⟨hkept, nofun⟩
  · exact ⟨hkept, nofun⟩
  · next excluded hexcluded =>
    refine ⟨hkept.renewed _, fun set hset c => ?_⟩
    have hdown : ∀ c, (∃ h ∈ hidden, G.Reaches h c) → ∀ p ∈ G.parents c,
        ∃ h ∈ hidden, G.Reaches h p := fun c ⟨h, hmem, hreach⟩ p hp =>
      ⟨h, hmem, hreach.tail hp⟩
    rw [gather_exact hreads (hsets excluded hexcluded) hdown Gathered.start hset c]
    simp [Dag.Outgoing]

end Gathering

theorem count_exact (hreads : view.Reads G) {s : Lister κ} (hs : s.Remembers G) (fuel : ℕ)
    (a : κ) (hidden : List κ) :
    (view.count fuel s a hidden).2.Remembers G ∧
      ∀ n, (view.count fuel s a hidden).1 = .answered n →
        n = {c | G.Outgoing a hidden c}.ncard := by
  unfold View.count
  split
  · exact ⟨hs, nofun⟩
  · next parsed reader hcommit =>
    obtain ⟨hkept, hexact⟩ := only_exact hreads (hs.renewed reader) fuel a hidden
    refine ⟨hkept, fun n hn => ?_⟩
    dsimp only at hn
    cases hmade : (view.only fuel { s with reader := reader } a hidden).1 with
    | unfinished => simp [hmade, Outcome.map] at hn
    | declined => simp [hmade, Outcome.map] at hn
    | answered members =>
      rw [hmade] at hn
      obtain rfl : members.card = n := Outcome.answered.inj hn
      have hset : {c | G.Outgoing a hidden c} = ↑members := by
        ext c
        exact (hexact members hmade c).symm
      rw [hset, Set.ncard_coe_finset]

/-! ## A single line of history -/

/-- What is outgoing from a commit to a tip, newest first: each has the next as its only parent,
and the oldest has none, or one that the other commit reaches. -/
structure Line (G : Dag κ) (since tip : κ) (chain : List κ) : Prop where
  mem_iff : ∀ c, c ∈ chain ↔ G.Outgoing tip [since] c
  nodup : chain.Nodup
  newest : ∀ c ∈ chain.head?, c = tip
  single : chain.IsChain fun c next => G.parents c = [next]
  oldest : ∀ c ∈ chain.getLast?, G.parents c = [] ∨ ∃ p, G.parents c = [p] ∧ G.Reaches since p

section Following

variable {members : Finset κ} {next : Option κ} {chain : List κ} {reader : Reader κ}

/-- What the loop of `View::linear_range` follows of the members. -/
structure Followed (G : Dag κ) (members : Finset κ) (next : Option κ) (chain : List κ) : Prop where
  mem : ∀ c ∈ chain, c ∈ members
  head : ∀ c ∈ chain.head?, next = some c
  single : chain.IsChain fun c next => G.parents c = [next]
  last : ∀ c ∈ chain.getLast?, G.parents c = [] ∨ ∃ p, G.parents c = [p] ∧ p ∉ members
  ends : chain = [] → ∀ c ∈ next, c ∉ members

omit [DecidableEq κ] in
theorem Followed.cons {id : κ} (hid : id ∈ members) (hparents : (G.parents id).length ≤ 1)
    (h : Followed G members (G.parents id).head? chain) :
    Followed G members (some id) (id :: chain) := by
  have hone : ∀ p, (G.parents id).head? = some p → G.parents id = [p] := by
    intro p hp
    match hlist : G.parents id, hp, hparents with
    | [first], hp, _ => exact congrArg (fun c => [c]) (Option.some.inj hp)
  refine ⟨List.forall_mem_cons.mpr ⟨hid, h.mem⟩, fun c hc => hc, ?_, ?_, nofun⟩
  · rw [List.isChain_cons]
    exact ⟨fun c hc => hone c (h.head c hc), h.single⟩
  · intro c hc
    cases chain with
    | nil =>
      obtain rfl : id = c := Option.some.inj hc
      cases hhead : (G.parents id).head? with
      | none => exact .inl (List.head?_eq_none_iff.mp hhead)
      | some p => exact .inr ⟨p, hone p hhead, h.ends rfl p hhead⟩
    | cons second rest =>
      rw [List.getLast?_cons_cons] at hc
      exact h.last c hc

/-- A chain ends at what is no member, or goes on from a member with one parent at most. -/
theorem follow_answered {left : ℕ}
    (h : (view.follow members left next reader).1 = .answered chain) :
    (chain = [] ∧ ∀ c ∈ next, c ∉ members) ∨
      ∃ id parsed reader' fewer rest, left = fewer + 1 ∧ next = some id ∧ id ∈ members ∧
        view.commit reader id = some (parsed, reader') ∧ parsed.parents.length ≤ 1 ∧
        chain = id :: rest ∧
        (view.follow members fewer parsed.parents.head? reader').1 = .answered rest := by
  unfold View.follow at h
  cases hnext : next.filter (· ∈ members) with
  | none =>
    rw [hnext] at h
    obtain rfl : [] = chain := Outcome.answered.inj h
    exact .inl ⟨rfl, fun c hc => by simpa using Option.filter_eq_none_iff.mp hnext c hc⟩
  | some id =>
    simp only [hnext] at h
    obtain ⟨hsome, hid⟩ := Option.filter_eq_some_iff.mp hnext
    split at h
    · cases h
    · next parsed reader' hcommit =>
      split at h
      · cases h
      · next hparents =>
        cases left with
        | zero => cases h
        | succ fewer =>
          dsimp only at h
          cases hrest : (view.follow members fewer parsed.parents.head? reader').1 with
          | unfinished => simp [hrest, Outcome.map] at h
          | declined => simp [hrest, Outcome.map] at h
          | answered rest =>
            rw [hrest] at h
            obtain rfl : id :: rest = chain := Outcome.answered.inj h
            exact .inr ⟨id, parsed, reader', fewer, rest, rfl, hsome,
              of_decide_eq_true hid, hcommit, not_lt.mp hparents, rfl, hrest⟩

theorem follow_followed (hreads : view.Reads G) {left : ℕ}
    (h : (view.follow members left next reader).1 = .answered chain) :
    Followed G members next chain := by
  induction chain generalizing left next reader with
  | nil =>
    rcases follow_answered h with
      ⟨-, hends⟩ | ⟨id, parsed, reader', fewer, rest, -, -, -, -, -, heq, -⟩
    · exact ⟨nofun, nofun, List.isChain_nil, nofun, fun _ => hends⟩
    · cases heq
  | cons first rest ih =>
    rcases follow_answered h with
      ⟨heq, -⟩ | ⟨id, parsed, reader', fewer, others, rfl, rfl, hid, hcommit, hone, heq, hrest⟩
    · cases heq
    · obtain ⟨rfl, rfl⟩ := List.cons_eq_cons.mp heq
      rw [hreads.parents _ _ (View.commit_stored hcommit)] at hone hrest
      exact (ih hrest).cons hid hone

omit [DecidableEq κ] in
theorem Followed.nodup (h : Followed G members next chain) : chain.Nodup := by
  have habove : chain.IsChain G.Above :=
    h.single.imp fun c d hparents =>
      Dag.above_of_parent (by rw [hparents]; exact List.mem_cons_self)
  have hpairs : chain.Pairwise G.Above := List.isChain_iff_pairwise.mp habove
  refine hpairs.imp fun {c d} hcd heq => ?_
  rw [heq] at hcd
  exact Dag.Above.irrefl d hcd

omit [DecidableEq κ] in
theorem whole_eq_answered {outcome : Outcome (List κ)}
    (h : View.whole members outcome = .answered chain) :
    outcome = .answered chain ∧ chain.length = members.card := by
  cases outcome with
  | unfinished => cases h
  | declined => cases h
  | answered followed =>
    rw [View.whole] at h
    split at h
    · next hlength =>
      obtain rfl : followed = chain := Outcome.answered.inj h
      exact ⟨rfl, hlength⟩
    · cases h

theorem line_of_followed {since tip : κ} (hmem : ∀ c, c ∈ members ↔ G.Outgoing tip [since] c)
    (h : Followed G members (some tip) chain) (hlength : chain.length = members.card) :
    Line G since tip chain := by
  have hall : chain.toFinset = members := by
    refine Finset.eq_of_subset_of_card_le (fun c hc => h.mem c (List.mem_toFinset.mp hc)) ?_
    rw [List.toFinset_card_of_nodup h.nodup, hlength]
  have hin : ∀ c, c ∈ chain ↔ G.Outgoing tip [since] c := by
    intro c
    rw [← hmem, ← hall, List.mem_toFinset]
  refine ⟨hin, h.nodup, fun c hc => (Option.some.inj (h.head c hc)).symm, h.single, ?_⟩
  intro c hc
  refine (h.last c hc).imp_right fun ⟨p, hparents, hnot⟩ => ⟨p, hparents, ?_⟩
  -- the parent is reached from the tip, so it is missing because the other commit reaches it
  have hreach : G.Reaches tip p :=
    ((hin c).mp (List.mem_of_getLast? hc)).1.tail (by rw [hparents]; exact List.mem_cons_self)
  by_contra hsince
  exact hnot ((hmem p).mpr ⟨hreach, by simpa using hsince⟩)

end Following

theorem linearRange_exact (hreads : view.Reads G) {s : Lister κ} (hs : s.Remembers G) (fuel : ℕ)
    (since tip : κ) :
    (view.linearRange fuel s since tip).2.Remembers G ∧
      ∀ chain, (view.linearRange fuel s since tip).1 = .answered chain →
        Line G since tip chain := by
  unfold View.linearRange
  split
  · exact ⟨hs, nofun⟩
  · next parsed reader hcommit =>
    obtain ⟨hkept, hexact⟩ := only_exact hreads (hs.renewed reader) fuel tip [since]
    dsimp only
    split
    · exact ⟨hkept, nofun⟩
    · exact ⟨hkept, nofun⟩
    · next members hmembers =>
      refine ⟨hkept.renewed _, fun chain hchain => ?_⟩
      have hmem := hexact members hmembers
      obtain ⟨hfollow, hlength⟩ := whole_eq_answered hchain
      exact line_of_followed hmem (follow_followed hreads hfollow) hlength

section Answered

variable {root tip id : κ} {seen members : Finset κ} {pending hidden : List κ}
variable {reader : Reader κ} {s : Lister κ} {fuel : ℕ}

theorem sum_sdiff_insert {next : κ} (hnode : next ∈ G.nodes) (hnot : next ∉ members) :
    ∑ c ∈ G.nodes \ members, (G.parents c).length =
      (∑ c ∈ G.nodes \ insert next members, (G.parents c).length) + (G.parents next).length := by
  have hmem : next ∈ G.nodes \ members := Finset.mem_sdiff.mpr ⟨hnode, hnot⟩
  rw [Finset.sdiff_insert, Finset.sum_erase_add _ _ hmem]

omit [DecidableEq κ] in
theorem finite_reaches (hroot : root ∈ G.nodes) : {c | G.Reaches root c}.Finite :=
  G.nodes.finite_toSet.subset fun _ hc => Dag.Reaches.mem_nodes hc hroot

theorem list_answered (hreads : view.Reads G) (ha : view.Affords G reader) (hroot : root ∈ G.nodes)
    (hfew : {c | G.Reaches root c}.ncard ≤ ancestry) (h : Seen G root seen pending)
    (hfuel : pending.length + (G.nodes \ seen).card < fuel) :
    ∃ set reader', view.list fuel seen pending reader = (.answered set, reader') ∧
      view.Affords G reader' := by
  induction fuel generalizing seen pending reader with
  | zero => omega
  | succ fuel ih =>
    cases pending with
    | nil => exact ⟨seen, reader, rfl, ha⟩
    | cons next pending =>
      have hnext : next ∈ G.nodes :=
        (h.reached next (h.noted next List.mem_cons_self)).mem_nodes hroot
      obtain ⟨parsed, reader', hcommit, ha'⟩ := ha.commit hnext
      have hparents := hreads.parents _ _ (View.commit_stored hcommit)
      have hturn := h.turn
      have hnodes : ∀ {seen : Finset κ}, (∀ c ∈ seen, G.Reaches root c) →
          seen ⊆ G.nodes := fun hreached c hc => (hreached c hc).mem_nodes hroot
      have hcard : ((G.parents next).foldl note (seen, pending)).1.card ≤ ancestry := by
        refine le_trans ?_ hfew
        rw [← Set.ncard_coe_finset]
        exact Set.ncard_le_ncard hturn.reached (finite_reaches hroot)
      have hmeasure : ((G.parents next).foldl note (seen, pending)).2.length +
          (G.nodes \ ((G.parents next).foldl note (seen, pending)).1).card < fuel := by
        obtain ⟨-, fresh, hpending, -, -, hadded⟩ := foldl_note (G.parents next) (seen, pending)
        rw [Finset.card_sdiff_of_subset (hnodes hturn.reached), hpending, List.length_append]
        rw [Finset.card_sdiff_of_subset (hnodes h.reached), List.length_cons] at hfuel
        have hle := Finset.card_le_card (hnodes hturn.reached)
        dsimp only at hadded ⊢
        omega
      obtain ⟨set, last, hlist, hlast⟩ := ih ha' hturn hmeasure
      refine ⟨set, last, ?_, hlast⟩
      rw [View.list, hcommit]
      simp only [hparents, if_neg (not_lt.mpr hcard), hlist]

theorem gather_answered (hreads : view.Reads G) {excluded : List (Finset κ)}
    (ha : view.Affords G reader) (hpending : ∀ c ∈ pending, c ∈ G.nodes)
    (hfuel : pending.length + ∑ c ∈ G.nodes \ members, (G.parents c).length < fuel) :
    ∃ set reader', view.gather excluded fuel members pending reader =
      (.answered set, reader') := by
  induction fuel generalizing members pending reader with
  | zero => omega
  | succ fuel ih =>
    cases pending with
    | nil => exact ⟨members, reader, rfl⟩
    | cons next pending =>
      obtain ⟨hnext, hrest⟩ := List.forall_mem_cons.mp hpending
      rw [List.length_cons] at hfuel
      rw [View.gather]
      split
      · exact ih ha hrest (by omega)
      · next hskip =>
        rw [Bool.or_eq_true, not_or, decide_eq_true_eq] at hskip
        obtain ⟨parsed, reader', hcommit, ha'⟩ := ha.commit hnext
        have hparents := hreads.parents _ _ (View.commit_stored hcommit)
        simp only [hcommit, hparents]
        refine ih ha' ?_ ?_
        · intro c hc
          rcases List.mem_append.mp hc with hc | hc
          · exact G.closed next hnext c (List.mem_reverse.mp hc)
          · exact hrest c hc
        · rw [sum_sdiff_insert hnext hskip.2] at hfuel
          rw [List.length_append, List.length_reverse]
          omega

/-- The ancestry of the commit can be listed: it is short, and no read was declined before. -/
def Listable (G : Dag κ) (s : Lister κ) (id : κ) : Prop :=
  id ∈ G.nodes ∧ {c | G.Reaches id c}.ncard ≤ ancestry ∧ s.listed id ≠ some none

theorem ancestors_answered (hreads : view.Reads G) (ha : view.Affords G s.reader)
    (hid : Listable G s id) (hfuel : G.size + 1 < fuel) :
    ∃ set s', view.ancestors fuel s id = (.answered set, s') ∧ view.Affords G s'.reader ∧
      ∀ other, s.listed other ≠ some none → s'.listed other ≠ some none := by
  obtain ⟨hnode, hfew, hlisted⟩ := hid
  unfold View.ancestors
  cases hknown : s.listed id with
  | some known =>
    cases known with
    | none => exact absurd hknown hlisted
    | some known => exact ⟨known, s, rfl, ha, fun _ h => h⟩
  | none =>
    have hmeasure : [id].length + (G.nodes \ {id}).card < fuel := by
      have hle := Finset.card_le_card (Finset.sdiff_subset : G.nodes \ {id} ⊆ G.nodes)
      rw [Dag.size] at hfuel
      rw [List.length_singleton]
      omega
    obtain ⟨set, reader', hlist, ha'⟩ :=
      list_answered hreads ha hnode hfew Seen.start hmeasure
    refine ⟨set, _, by simp only [hlist]; rfl, ha', fun other hother => ?_⟩
    change Function.update s.listed id _ other ≠ some none
    by_cases heq : other = id
    · subst heq
      rw [Function.update_self]
      exact nofun
    · rwa [Function.update_of_ne heq]

theorem excluded_answered (hreads : view.Reads G) (ha : view.Affords G s.reader)
    (hhidden : ∀ h ∈ hidden, Listable G s h) (hfuel : G.size + 1 < fuel) :
    ∃ sets s', view.excluded fuel s hidden = (.answered sets, s') ∧
      view.Affords G s'.reader := by
  induction hidden generalizing s with
  | nil => exact ⟨[], s, rfl, ha⟩
  | cons id rest ih =>
    obtain ⟨hid, hrest⟩ := List.forall_mem_cons.mp hhidden
    obtain ⟨set, s₁, hfirst, ha₁, hkept⟩ := ancestors_answered hreads ha hid hfuel
    obtain ⟨sets, s₂, hothers, ha₂⟩ :=
      ih ha₁ fun h hh => ⟨(hrest h hh).1, (hrest h hh).2.1, hkept h (hrest h hh).2.2⟩
    refine ⟨set :: sets, s₂, ?_, ha₂⟩
    rw [View.excluded]
    simp only [hfirst, hothers]
    rfl

/-- A count is answered where every commit is stored and may be read, and every ancestry that it
excludes can be listed. -/
theorem count_answered (hreads : view.Reads G) (ha : view.Affords G s.reader)
    (htip : tip ∈ G.nodes) (hhidden : ∀ h ∈ hidden, Listable G s h) (hfuel : G.size + 1 < fuel) :
    ∃ n, (view.count fuel s tip hidden).1 = .answered n := by
  obtain ⟨parsed, reader', hcommit, ha'⟩ := ha.commit htip
  obtain ⟨sets, s₁, hsets, ha₁⟩ :
      ∃ sets s₁, view.excluded fuel { s with reader := reader' } hidden = (.answered sets, s₁) ∧
        view.Affords G s₁.reader := excluded_answered hreads ha' hhidden hfuel
  have hmeasure : [tip].length + ∑ c ∈ G.nodes \ ∅, (G.parents c).length < fuel := by
    rw [Dag.size] at hfuel
    rw [Finset.sdiff_empty, List.length_singleton]
    omega
  obtain ⟨set, reader₂, hgather⟩ :
      ∃ set reader₂, view.gather sets fuel ∅ [tip] s₁.reader = (.answered set, reader₂) :=
    gather_answered hreads ha₁ (by simpa using htip) hmeasure
  refine ⟨set.card, ?_⟩
  unfold View.count View.only
  simp only [hcommit, hsets, hgather]
  rfl

end Answered

/-- What a view may remember: of no question, or of one more that was asked on any allowance. -/
inductive View.Used (view : View κ) : Lister κ → Prop
  | fresh (reader : Reader κ) : Used view ⟨reader, fun _ => none⟩
  | renewed {s : Lister κ} (reader : Reader κ) : Used view s → Used view { s with reader := reader }
  | counted {s : Lister κ} (fuel : ℕ) (a : κ) (hidden : List κ) : Used view s →
      Used view (view.count fuel s a hidden).2
  | ranged {s : Lister κ} (fuel : ℕ) (since tip : κ) : Used view s →
      Used view (view.linearRange fuel s since tip).2

theorem View.Used.remembers (hreads : view.Reads G) {s : Lister κ} (hs : view.Used s) :
    s.Remembers G := by
  induction hs with
  | fresh reader => exact nofun
  | renewed reader _ ih => exact ih
  | counted fuel a hidden _ ih => exact (count_exact hreads ih fuel a hidden).1
  | ranged fuel since tip _ ih => exact (linearRange_exact hreads ih fuel since tip).1

/-- For every history that a view reads, whatever it was asked before: a count that is answered is
the number of the commits that are reached from one and from none of the others, and it is answered
where every commit may be read and every ancestry listed; and a range that is answered lists what
is outgoing as a line, of which the oldest commit has no parent, or one that is not outgoing. -/
theorem ranges_exact (hreads : view.Reads G) {s : Lister κ} (hs : view.Used s) (fuel : ℕ)
    (tip : κ) :
    (∀ hidden,
      (∀ n, (view.count fuel s tip hidden).1 = .answered n →
        n = {c | G.Outgoing tip hidden c}.ncard) ∧
      (view.Affords G s.reader → tip ∈ G.nodes → (∀ h ∈ hidden, Listable G s h) →
        G.size + 1 < fuel → ∃ n, (view.count fuel s tip hidden).1 = .answered n)) ∧
      ∀ since chain, (view.linearRange fuel s since tip).1 = .answered chain →
        Line G since tip chain := by
  have hremembers := hs.remembers hreads
  refine ⟨fun hidden => ⟨?_, ?_⟩, fun since => ?_⟩
  · exact (count_exact hreads hremembers fuel tip hidden).2
  · exact count_answered hreads
  · exact (linearRange_exact hreads hremembers fuel since tip).2

/-- The parents of the commits of a fork. -/
def forkParents : ℕ → List ℕ
  | 1 | 2 => [0]
  | _ => []

theorem forkParents_lt {c p : ℕ} (h : p ∈ forkParents c) : p < c := by
  unfold forkParents at h
  split at h
  · simp_all
  · simp_all
  · cases h

/-- A root, and two commits on it. -/
def fork : Dag ℕ where
  nodes := {0, 1, 2}
  parents := forkParents
  closed := by decide
  acyclic c h := by
    have hlt : ∀ {a b : ℕ}, Relation.TransGen (fun c p => p ∈ forkParents c) a b → b < a := by
      intro a b hab
      induction hab with
      | single hp => exact forkParents_lt hp
      | tail _ hp ih => exact (forkParents_lt hp).trans ih
    exact lt_irrefl c (hlt h)

def forkView : View ℕ where
  stored c := if c ∈ fork.nodes then some ⟨fork.parents c, 0⟩ else none

theorem forkView_reads : forkView.Reads fork where
  node c parsed h := by
    simp only [forkView] at h
    split at h
    · assumption
    · cases h
  parents c parsed h := by
    simp only [forkView] at h
    split at h
    · rw [← Option.some.inj h]
    · cases h

/-- A read that may read a hundred commits. -/
def forkReader : Lister ℕ := ⟨⟨100, ∅⟩, fun _ => none⟩

/-- One commit is outgoing, and the range is a line of it. -/
theorem fork_counted :
    (forkView.count 10 forkReader 2 [1]).1 = .answered 1 ∧ Line fork 1 2 [2] :=
  ⟨by decide +kernel,
    (ranges_exact forkView_reads (.fresh _) 10 2).2 1 [2]
      (by decide +kernel : (forkView.linearRange 10 forkReader 1 2).1 = .answered [2])⟩

/-- The oldest commit of a range need not be on the commit the range starts from. -/
theorem sidestep_listed :
    (forkView.linearRange 10 forkReader 1 2).1 = .answered [2] ∧ fork.parents 2 = [0] ∧
      fork.parents 2 ≠ [1] :=
  ⟨by decide +kernel, by decide, by decide⟩

end Onevcs.NativeObjects
