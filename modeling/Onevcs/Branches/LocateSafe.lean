import Onevcs.Foundations.Outcome
import Onevcs.Branches.Locate

/-!
# No copy is dropped

A copy passed over is accounted for when the chosen copy reaches its tip, when every copy
has the content of the base, or when all it holds beyond the chosen copy and the base is
clean merges of base commits and its tip is kept.

What a copy holds is read by the plain name of the branch. Where that names something
else, as a tag of the branch's name does, copies that hold work can all be read as the
base: the first is then chosen, whatever the others hold.
-/

set_option linter.unusedSectionVars false

namespace Onevcs.Branches

open Foundations (History bind_eq_ok bind_ite_eq_ok)

variable {κ τ : Type} [DecidableEq κ] [DecidableEq τ] (G : Commits κ τ)

/-! ## What may be passed over -/

/-- What a tip reaches beyond the copy it is passed over for and the base. -/
def Outside (extra onto : κ) (bases : List κ) (commit : κ) : Prop :=
  G.history.Reaches extra commit ∧ ¬ G.history.Reached (onto :: bases) commit

/-- One side of a merge is a base commit, and the other the chosen copy's history or more
of the same. -/
def MergesBase (extra onto : κ) (bases : List κ) (merged side : κ) : Prop :=
  G.history.Reached bases merged ∧
    (Outside G extra onto bases side ∨ G.history.Reaches onto side)

/-- A merge of two parents, one of them a base commit, that records what merging them
cleanly writes. -/
def CleanBaseMerge (extra onto : κ) (bases : List κ) (commit : κ) : Prop :=
  ∃ first second, G.history.parents commit = [first, second] ∧
    (MergesBase G extra onto bases second first ∨ MergesBase G extra onto bases first second) ∧
    G.cleanMerge first second = some (G.tree commit)

/-- All a tip holds beyond another and the base is clean merges of base commits. -/
def OnlyBaseMerges (extra onto : κ) (bases : List κ) : Prop :=
  ∀ commit, Outside G extra onto bases commit → CleanBaseMerge G extra onto bases commit

/-- A copy holds nothing the base does not have. -/
def HoldsNothing (search : Search κ) (copy : Copy κ) : Prop :=
  ∃ base, judgedAgainst (copy.checkout.view none) copy.checkout.base search.current = some base ∧
    G.tree base = G.tree copy.tip

/-- A copy passed over for another, with its tip kept first. -/
def PassedOver (search : Search κ) (kept : Kept κ) (chosen other : Copy κ) : Prop :=
  ∃ bases, (search.bases chosen other).mapM id = some bases ∧
    OnlyBaseMerges G other.tip chosen.tip bases ∧ kept other.tip = some other.tip

/-- Choosing one copy drops nothing of another. -/
def Accounted (search : Search κ) (kept : Kept κ) (chosen other : Copy κ) : Prop :=
  G.history.Reaches chosen.tip other.tip ∨ (∀ copy ∈ search.copies, HoldsNothing G search copy) ∨
    PassedOver G search kept chosen other

/-- Every copy's name reads as the base, and the first copy does not account for another. -/
def Misnamed (search : Search κ) (kept : Kept κ) : Prop :=
  ∃ first second rest, search.copies = first :: second :: rest ∧
    (∀ copy ∈ search.copies, treesDiffer G search copy = .ok false) ∧
    ∃ other ∈ search.copies, ¬ Accounted G search kept first other

variable {G} {search : Search κ} {kept kept' : Kept κ} {view : View κ} {extra onto : κ}
  {bases : List κ} {copy chosen other : Copy κ}

theorem mem_beyond_iff {commit : κ} :
    commit ∈ G.history.beyond (onto :: bases) extra ↔ Outside G extra onto bases commit :=
  History.mem_beyond

theorem ask_ok {α : Type} {question : Question κ} {answer found : α}
    (h : view.ask question answer = .ok found) : found = answer := by
  unfold View.ask at h
  split at h
  · cases h
  · exact (Except.ok.inj h).symm

theorem isAncestor_ok {ancestor descendant : κ} {answer : Bool}
    (h : isAncestor G view ancestor descendant = .ok answer) :
    answer = true ↔ G.history.Reaches descendant ancestor := by
  rw [ask_ok h, decide_eq_true_iff]

theorem knownToReach_ok {ancestor descendant : κ}
    (h : knownToReach G view ancestor descendant = .ok true) :
    G.history.Reaches descendant ancestor := by
  unfold knownToReach at h
  split at h
  · exact (isAncestor_ok h).mp rfl
  · cases h

theorem inBase_ok {merged : κ} (h : inBase G view merged bases = .ok true) :
    G.history.Reached bases merged := by
  induction bases with
  | nil => cases h
  | cons base rest ih =>
    rcases bind_ite_eq_ok.mp h with ⟨hbase, -⟩ | ⟨-, hrest⟩
    · exact ⟨base, List.mem_cons_self, (isAncestor_ok hbase).mp rfl⟩
    · obtain ⟨tip, hmem, hreach⟩ := ih hrest
      exact ⟨tip, List.mem_cons_of_mem _ hmem, hreach⟩

theorem mergesBase_ok {merged side : κ}
    (h : mergesBase G view (G.history.beyond (onto :: bases) extra) onto bases merged side =
      .ok true) : MergesBase G extra onto bases merged side := by
  rcases bind_ite_eq_ok.mp h with ⟨hbase, hside⟩ | ⟨-, hfalse⟩
  · refine ⟨inBase_ok hbase, ?_⟩
    by_cases hmem : side ∈ G.history.beyond (onto :: bases) extra
    · exact Or.inl (mem_beyond_iff.mp hmem)
    · rw [if_neg hmem] at hside
      exact Or.inr ((isAncestor_ok hside).mp rfl)
  · cases hfalse

theorem cleanBaseMerge_ok {commit : κ}
    (h : cleanBaseMerge G view (G.history.beyond (onto :: bases) extra) onto bases commit
      (G.history.parents commit) = .ok true) : CleanBaseMerge G extra onto bases commit := by
  unfold cleanBaseMerge at h
  split at h
  · rename_i first second hparents
    rcases bind_ite_eq_ok.mp h with ⟨hmerges, h⟩ | ⟨-, hfalse⟩
    · obtain ⟨clean, hclean, h⟩ := bind_eq_ok.mp h
      obtain ⟨tree, htree, h⟩ := bind_eq_ok.mp h
      refine ⟨first, second, hparents, ?_, ?_⟩
      · rcases bind_ite_eq_ok.mp hmerges with ⟨hsecond, -⟩ | ⟨-, hfirst⟩
        · exact Or.inl (mergesBase_ok hsecond)
        · exact Or.inr (mergesBase_ok hfirst)
      · rw [← ask_ok hclean, ← ask_ok htree]
        exact of_decide_eq_true (Except.ok.inj h)
    · cases hfalse
  · cases h

/-- A base the view does not hold is judged against the base of the checkout itself. -/
example : judgedAgainst (⟨fun n => n < 3, fun _ => none⟩ : View ℕ) (some 0) (some 5) = some 0 := by
  decide +kernel

theorem allCleanBaseMerges_ok {commits : List κ}
    (h : allCleanBaseMerges G view (G.history.beyond (onto :: bases) extra) onto bases
      (commits.map fun commit => (commit, G.history.parents commit)) = .ok true) :
    ∀ commit ∈ commits, CleanBaseMerge G extra onto bases commit := by
  induction commits with
  | nil =>
    intro commit hmem
    cases hmem
  | cons commit rest ih =>
    rcases bind_ite_eq_ok.mp h with ⟨hclean, hrest⟩ | ⟨-, hfalse⟩
    · intro other hmem
      rcases List.mem_cons.mp hmem with rfl | hmem
      · exact cleanBaseMerge_ok hclean
      · exact ih hrest other hmem
    · cases hfalse

theorem onlyCleanBaseMerges_ok {views : List (Option κ)}
    (h : onlyCleanBaseMerges G view extra onto views = .ok true) :
    ∃ bases, views.mapM id = some bases ∧ OnlyBaseMerges G extra onto bases := by
  unfold onlyCleanBaseMerges at h
  split at h
  · split at h
    · cases h
    · rename_i bases hbases
      obtain ⟨commits, hcommits, h⟩ := bind_eq_ok.mp h
      obtain rfl := ask_ok hcommits
      split at h
      · cases h
      · refine ⟨bases, hbases, fun commit houtside => ?_⟩
        rw [List.map_map] at h
        have hsame : (G.history.beyond (onto :: bases) extra).map (Prod.fst ∘ fun commit =>
            (commit, G.history.parents commit)) = G.history.beyond (onto :: bases) extra :=
          List.map_id _
        rw [hsame] at h
        exact allCleanBaseMerges_ok h commit (mem_beyond_iff.mpr houtside)
  · cases h

theorem readHeld_ok {copies : List (Copy κ)} {held : List (Held κ)}
    (h : readHeld G search copies = .ok held) :
    held.map Held.toCopy = copies ∧
      ∀ one ∈ held, treesDiffer G search one.toCopy = .ok (decide (one.holds = .work)) := by
  induction copies generalizing held with
  | nil =>
    obtain rfl := Except.ok.inj h
    simp
  | cons copy rest ih =>
    obtain ⟨differs, hdiffers, h⟩ := bind_eq_ok.mp h
    obtain ⟨later, hlater, h⟩ := bind_eq_ok.mp h
    obtain rfl := Except.ok.inj h
    obtain ⟨hcopies, hall⟩ := ih hlater
    refine ⟨by simp [hcopies], fun one hmem => ?_⟩
    rcases List.mem_cons.mp hmem with rfl | hmem
    · cases differs <;> simpa using hdiffers
    · exact hall one hmem

theorem carriesTheRest_ok {held : List (Held κ)} (h : carriesTheRest G copy held = .ok true) :
    ∀ other ∈ held, G.history.Reaches copy.tip other.tip := by
  induction held with
  | nil =>
    intro other hmem
    cases hmem
  | cons first rest ih =>
    rcases bind_ite_eq_ok.mp h with ⟨hreach, hrest⟩ | ⟨-, hfalse⟩
    · intro other hmem
      rcases List.mem_cons.mp hmem with rfl | hmem
      · exact knownToReach_ok hreach
      · exact ih hrest other hmem
    · cases hfalse

theorem firstCarrying_ok {held among : List (Held κ)} {found : Held κ}
    (h : firstCarrying G held among = .ok (some found)) :
    ∀ other ∈ held, G.history.Reaches found.tip other.tip := by
  induction among with
  | nil => cases h
  | cons first rest ih =>
    rcases bind_ite_eq_ok.mp h with ⟨hcarries, hfound⟩ | ⟨-, hrest⟩
    · obtain rfl := Option.some.inj (Except.ok.inj hfound)
      exact carriesTheRest_ok hcarries
    · exact ih hrest

theorem carriesTheRestButBaseMerges_ok {held spent : List (Held κ)}
    (h : carriesTheRestButBaseMerges G search copy held = .ok (some spent)) :
    ∀ other ∈ held, G.history.Reaches copy.tip other.tip ∨ (other ∈ spent ∧
      ∃ bases, (search.bases copy other.toCopy).mapM id = some bases ∧
        OnlyBaseMerges G other.tip copy.tip bases) := by
  induction held generalizing spent with
  | nil =>
    intro other hmem
    cases hmem
  | cons first rest ih =>
    rcases bind_ite_eq_ok.mp h with ⟨hreach, hrest⟩ | ⟨-, h⟩
    · intro other hmem
      rcases List.mem_cons.mp hmem with rfl | hmem
      · exact Or.inl (knownToReach_ok hreach)
      · exact ih hrest other hmem
    · rcases bind_ite_eq_ok.mp h with ⟨-, hnone⟩ | ⟨-, h⟩
      · cases Except.ok.inj hnone
      · rcases bind_ite_eq_ok.mp h with ⟨honly, h⟩ | ⟨-, hnone⟩
        · obtain ⟨later, hlater, h⟩ := bind_eq_ok.mp h
          obtain ⟨others, rfl, rfl⟩ := Option.map_eq_some_iff.mp (Except.ok.inj h)
          intro other hmem
          rcases List.mem_cons.mp hmem with rfl | hmem
          · exact Or.inr ⟨List.mem_cons_self, onlyCleanBaseMerges_ok honly⟩
          · exact (ih hlater other hmem).imp_right fun ⟨hspent, hbases⟩ =>
              ⟨List.mem_cons_of_mem _ hspent, hbases⟩
        · cases Except.ok.inj hnone

theorem firstCarryingButBaseMerges_ok {held among spent : List (Held κ)} {found : Held κ}
    (h : firstCarryingButBaseMerges G search held among = .ok (some (found, spent))) :
    ∀ other ∈ held, G.history.Reaches found.tip other.tip ∨ (other ∈ spent ∧
      ∃ bases, (search.bases found.toCopy other.toCopy).mapM id = some bases ∧
        OnlyBaseMerges G other.tip found.tip bases) := by
  induction among with
  | nil => cases h
  | cons first rest ih =>
    obtain ⟨-, -, h⟩ := bind_eq_ok.mp h
    obtain ⟨passed, hpassed, h⟩ := bind_eq_ok.mp h
    cases passed with
    | none => exact ih h
    | some others =>
      have hsame := Option.some.inj (Except.ok.inj h)
      obtain rfl : first = found := congrArg Prod.fst hsame
      obtain rfl : others = spent := congrArg Prod.snd hsame
      exact carriesTheRestButBaseMerges_ok hpassed

theorem keepPassedOver_ok {path : String} {tip : κ}
    (h : keepPassedOver search path tip kept = .ok kept') :
    kept' tip = some tip ∧ ∀ commit, kept commit = some commit → kept' commit = some commit := by
  unfold keepPassedOver at h
  split at h
  · rename_i hkept
    obtain rfl := Except.ok.inj h
    exact ⟨hkept, fun _ => id⟩
  · split at h
    · cases h
    · split at h
      · cases h
      · obtain rfl := Except.ok.inj h
        refine ⟨Function.update_self .., fun commit hcommit => ?_⟩
        by_cases heq : commit = tip
        · rw [heq, Function.update_self]
        · rwa [Function.update_of_ne heq]

theorem keepAll_ok {spent : List (Held κ)} (h : keepAll search spent kept = (.ok (), kept')) :
    (∀ other ∈ spent, kept' other.tip = some other.tip) ∧
      ∀ commit, kept commit = some commit → kept' commit = some commit := by
  induction spent generalizing kept with
  | nil =>
    obtain rfl := (Prod.mk.inj h).2
    exact ⟨fun _ hmem => (nomatch hmem), fun _ => id⟩
  | cons first rest ih =>
    unfold keepAll at h
    split at h
    · cases (Prod.mk.inj h).1
    · rename_i between hbetween
      obtain ⟨hfirst, hbefore⟩ := keepPassedOver_ok hbetween
      obtain ⟨hrest, hafter⟩ := ih h
      refine ⟨fun other hmem => ?_, fun commit hcommit => hafter _ (hbefore _ hcommit)⟩
      rcases List.mem_cons.mp hmem with rfl | hmem
      · exact hafter _ hfirst
      · exact hrest other hmem

/-- What a choice comes from: the only copy, the first of copies that all read as the
base, or a copy that carries the others but those it is to keep. -/
theorem choose_ok {found : Held κ} {spent : List (Held κ)}
    (h : choose G search = .ok (found, spent)) :
    (search.copies = [found.toCopy] ∧ spent = []) ∨
    (∃ second rest, search.copies = found.toCopy :: second :: rest ∧
      (∀ copy ∈ search.copies, treesDiffer G search copy = .ok false) ∧ spent = []) ∨
    ∀ other ∈ search.copies, G.history.Reaches found.tip other.tip ∨
      ((∃ one ∈ spent, one.toCopy = other) ∧
        ∃ bases, (search.bases found.toCopy other).mapM id = some bases ∧
          OnlyBaseMerges G other.tip found.tip bases) := by
  obtain ⟨held, hheld, h⟩ := bind_eq_ok.mp h
  obtain ⟨hcopies, hdiffer⟩ := readHeld_ok hheld
  rw [← hcopies]
  match held, h with
  | [], h => cases h
  | [only], h =>
    have hsame := Except.ok.inj h
    obtain rfl : only = found := congrArg Prod.fst hsame
    obtain rfl : [] = spent := congrArg Prod.snd hsame
    exact Or.inl ⟨rfl, rfl⟩
  | first :: second :: rest, h =>
    simp only at h
    split at h
    · rename_i hall
      have hsame := Except.ok.inj h
      obtain rfl : first = found := congrArg Prod.fst hsame
      obtain rfl : [] = spent := congrArg Prod.snd hsame
      refine Or.inr (Or.inl ⟨second.toCopy, rest.map Held.toCopy, rfl, ?_, rfl⟩)
      intro copy hmem
      obtain ⟨one, hone, rfl⟩ := List.mem_map.mp hmem
      rw [hdiffer one hone, of_decide_eq_true (List.all_eq_true.mp hall one hone)]
      rfl
    · obtain ⟨carrying, hcarrying, h⟩ := bind_eq_ok.mp h
      refine Or.inr (Or.inr fun other hmem => ?_)
      obtain ⟨one, hone, rfl⟩ := List.mem_map.mp hmem
      cases carrying with
      | some copy =>
        obtain rfl : copy = found := congrArg Prod.fst (Except.ok.inj h)
        exact Or.inl (firstCarrying_ok hcarrying one hone)
      | none =>
        obtain ⟨passing, hpassing, h⟩ := bind_eq_ok.mp h
        cases passing with
        | some passed =>
          obtain rfl := Except.ok.inj h
          exact (firstCarryingButBaseMerges_ok hpassing one hone).imp_right
            fun ⟨hspent, hbases⟩ => ⟨⟨one, hspent, rfl⟩, hbases⟩
        | none =>
          obtain ⟨-, -, h⟩ := bind_eq_ok.mp h
          obtain ⟨-, -, h⟩ := bind_eq_ok.mp h
          cases h

theorem choose_first {first second : Copy κ} {rest : List (Copy κ)}
    (hcopies : search.copies = first :: second :: rest)
    (hall : ∀ copy ∈ search.copies, treesDiffer G search copy = .ok false) :
    choose G search = .ok (⟨first, .whatTheBaseHas⟩, []) := by
  have hread : ∀ copies : List (Copy κ), (∀ copy ∈ copies, treesDiffer G search copy = .ok false) →
      readHeld G search copies = .ok (copies.map fun copy => ⟨copy, .whatTheBaseHas⟩) := by
    intro copies
    induction copies with
    | nil => exact fun _ => rfl
    | cons copy rest ih =>
      intro hsame
      refine bind_eq_ok.mpr ⟨false, hsame copy List.mem_cons_self, bind_eq_ok.mpr ⟨_, ih ?_, rfl⟩⟩
      exact fun other hmem => hsame other (List.mem_cons_of_mem _ hmem)
  refine bind_eq_ok.mpr ⟨_, hread _ hall, ?_⟩
  rw [hcopies]
  simp only [List.map_cons]
  rw [if_pos]
  · rfl
  · simp

theorem locate_ok (h : (locate G search kept).1 = .ok chosen) :
    ∃ holds spent, choose G search = .ok (⟨chosen, holds⟩, spent) ∧
      ∀ one ∈ spent, (locate G search kept).2 one.tip = some one.tip := by
  unfold locate at h ⊢
  split at h
  · cases h
  · rename_i found spent hchoose
    split at h
    · cases h
    · rename_i kept' hkeep
      obtain rfl := Except.ok.inj h
      exact ⟨found.holds, spent, hchoose, (keepAll_ok hkeep).1⟩

/-- Locating a branch answers with a copy every other is accounted for by, exactly where
its copies are not misnamed. -/
theorem locate_accounts_iff (G : Commits κ τ) (search : Search κ) (kept : Kept κ) :
    (∀ chosen, (locate G search kept).1 = .ok chosen → ∀ other ∈ search.copies,
      Accounted G search (locate G search kept).2 chosen other) ↔ ¬ Misnamed G search kept := by
  constructor
  · rintro haccounted ⟨first, second, rest, hcopies, hall, other, hmem, hnot⟩
    have hlocate : locate G search kept = (.ok first, kept) := by
      unfold locate
      rw [choose_first hcopies hall]
      rfl
    have hother := haccounted first (by rw [hlocate]) other hmem
    rw [hlocate] at hother
    exact hnot hother
  · intro hnot chosen hchosen other hmem
    obtain ⟨holds, spent, hchoose, hkept⟩ := locate_ok hchosen
    rcases choose_ok hchoose with ⟨hcopies, -⟩ | ⟨second, rest, hcopies, hall, rfl⟩ | hcarries
    · rw [hcopies] at hmem
      obtain rfl := List.mem_singleton.mp hmem
      exact Or.inl (History.Reaches.refl _)
    · have hlocate : locate G search kept = (.ok chosen, kept) := by
        unfold locate
        rw [hchoose]
        rfl
      rw [hlocate]
      by_contra hother
      exact hnot ⟨chosen, second, rest, hcopies, hall, other, hmem, hother⟩
    · rcases hcarries other hmem with hreach | ⟨⟨one, hone, rfl⟩, bases, hbases, honly⟩
      · exact Or.inl hreach
      · exact Or.inr (Or.inr ⟨bases, hbases, honly, hkept one hone⟩)

/-- A continued session opens at one of the copies there are, and each of them is an ancestor of it,
or holds nothing beyond it and the base but clean merges of base commits and is kept by its name. -/
theorem openedAt_accounts {clone : View κ} {fetchFails : String → Option String}
    {integrated : Option κ} {continued : Continued κ} {tip : κ}
    (h : openedAt G search clone fetchFails integrated kept continued = .ok (tip, kept')) :
    tip ∈ continued.tips ∧
      (∀ copy ∈ continued.tips, G.history.Reaches tip copy ∨ ∃ base, integrated = some base ∧
        OnlyBaseMerges G copy tip [base] ∧ kept' copy = some copy) ∧
      ∀ commit, kept commit = some commit → kept' commit = some commit := by
  have halone : ∀ copy ∈ [tip], G.history.Reaches tip copy := by
    intro copy hcopy
    rw [List.mem_singleton.mp hcopy]
    exact History.Reaches.refl tip
  cases continued with
  | held path only =>
    obtain ⟨-, -, h⟩ := bind_eq_ok.mp h
    cases h
    exact ⟨List.mem_cons_self, fun copy hcopy => .inl (halone copy hcopy), fun _ => id⟩
  | pushed only =>
    cases h
    exact ⟨List.mem_cons_self, fun copy hcopy => .inl (halone copy hcopy), fun _ => id⟩
  | both path held pushed =>
    simp only [Continued.tips, List.mem_cons, List.not_mem_nil, or_false, forall_eq_or_imp,
      forall_eq]
    obtain ⟨-, -, h⟩ := bind_eq_ok.mp h
    rcases bind_ite_eq_ok.mp h with ⟨hheld, hsame⟩ | ⟨-, h⟩
    · cases hsame
      exact ⟨.inl rfl, ⟨.inl (History.Reaches.refl _), .inl ((isAncestor_ok hheld).mp rfl)⟩,
        fun _ => id⟩
    rcases bind_ite_eq_ok.mp h with ⟨hpushed, hsame⟩ | ⟨-, h⟩
    · cases hsame
      exact ⟨.inr rfl, ⟨.inl ((isAncestor_ok hpushed).mp rfl), .inl (History.Reaches.refl _)⟩,
        fun _ => id⟩
    -- neither copy reaches the other: origin's is opened at, if at all
    rcases bind_ite_eq_ok.mp h with ⟨honly, h⟩ | ⟨-, hrefused⟩
    · obtain ⟨after, hafter, hsame⟩ := bind_eq_ok.mp h
      cases hsame
      obtain ⟨bases, hbases, hmerges⟩ := onlyCleanBaseMerges_ok honly
      cases integrated with
      | none => cases hbases
      | some base =>
        obtain rfl : [base] = bases := Option.some.inj hbases
        obtain ⟨hkept, hstill⟩ := keepPassedOver_ok hafter
        exact ⟨.inr rfl, ⟨.inr ⟨base, rfl, hmerges, hkept⟩, .inl (History.Reaches.refl _)⟩, hstill⟩
    · cases hrefused

/-- Two checkouts whose copies of a branch diverged from one base, and a tag of the
branch's name at the base in both. -/
def tagged : Search (Fin 3) where
  branch := "feature"
  checkouts := [⟨"/one", some 1, some 0, some 0, fun _ => ⟨fun _ => true, fun _ => none⟩⟩,
    ⟨"/two", some 2, some 0, some 0, fun _ => ⟨fun _ => true, fun _ => none⟩⟩]
  publication := ⟨"/one", some 1, some 0, some 0, fun _ => ⟨fun _ => true, fun _ => none⟩⟩
  current := some 0
  hosted := none
  fetchFails := fun _ => none
  updateFails := fun _ => false

/-- Each copy changes the base in its own way. -/
def diverging : Commits (Fin 3) Nat where
  history := {
    parents := fun commit => if commit = 0 then [] else [0]
    generation := fun commit => if commit = 0 then 0 else 1
    older := by decide
  }
  tree := fun commit => commit
  cleanMerge := fun _ _ => none

theorem openedAt_accounts_pushed : diverging.history.Reaches 1 0 := by
  have hopened := openedAt_accounts
    (show openedAt diverging tagged ⟨fun _ => true, fun _ => none⟩ (fun _ => none) (some 0)
      (fun _ => none) (.both "/one" 0 1) = .ok (1, fun _ => none) from rfl)
  refine (hopened.2.1 0 List.mem_cons_self).resolve_right ?_
  rintro ⟨_, -, -, hkept⟩
  cases hkept

/-- The first copy is answered with, and nothing accounts for the other. -/
theorem tagged_drops : ∃ chosen other, (locate diverging tagged fun _ => none).1 = .ok chosen ∧
    other ∈ tagged.copies ∧
    ¬ Accounted diverging tagged (locate diverging tagged fun _ => none).2 chosen other := by
  refine ⟨_, _, rfl, List.mem_cons_of_mem _ List.mem_cons_self, ?_⟩
  rintro (hreach | hall | ⟨bases, -, -, hkept⟩)
  · revert hreach
    decide
  · obtain ⟨base, hbase, htree⟩ := hall _ List.mem_cons_self
    obtain rfl : 0 = base := Option.some.inj hbase
    revert htree
    decide
  · cases hkept

end Onevcs.Branches
