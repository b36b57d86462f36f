import Onevcs.GitHub.Listed

/-!
# The memo of listed change requests

What a read recalls was kept in the operation that is going on, in every run; and it is what the
host has at that moment, in every run whose writes spare what is kept. A retarget that hands a body
over does not forget, so it is the write that spares nothing.
-/

namespace Onevcs.GitHub

open Foundations (Memo System Text)

namespace Listed

variable {listed : Listed} {operation : Option ℕ} {id : Text} {kept : ListedChange}
  {R : Text → ListedChange → Prop}

theorem keptNow_eq_some_iff : listed.keptNow operation id = some kept ↔
    listed id = some kept ∧ operation = some kept.operation := by
  cases operation with
  | none => simp [keptNow]
  | some current =>
    rw [keptNow, Option.bind_some, Option.filter_eq_some_iff, decide_eq_true_iff, Option.some_inj,
      eq_comm (a := current)]

theorem forget_eq_some_iff {other : Text} :
    listed.forget id other = some kept ↔ listed other = some kept ∧ other ≠ id := by
  rw [forget, Memo.retain_eq_some, decide_eq_true_iff]

theorem keeps_forget (h : listed.Keeps R) (id : Text) : (listed.forget id).Keeps R :=
  h.retain fun _ _ hkept _ => hkept

theorem keeps_keep (h : listed.Keeps R) {draft : Option Bool} {description : Option Description}
    (hkept : ∀ current ∈ operation, R id ⟨current, draft, description⟩) :
    (listed.keep operation id draft description).Keeps R := by
  cases operation with
  | none => exact keeps_forget h id
  | some current => exact h.insert (hkept current rfl)

/-- The relation does not ask for a half of what is kept. -/
structure Halved (R : Text → ListedChange → Prop) : Prop where
  draft : ∀ id kept, R id kept → R id { kept with draft := none }
  description : ∀ id kept, R id kept → R id { kept with description := none }

theorem keeps_takeDraft (hhalved : Halved R) (h : listed.Keeps R) :
    (listed.takeDraft operation id).2.Keeps R := by
  unfold takeDraft
  split
  case h_1 kept hkept =>
    exact h.insert (hhalved.draft id kept (h id kept (keptNow_eq_some_iff.mp hkept).1))
  case h_2 => exact h

theorem keeps_takeDescription (hhalved : Halved R) (h : listed.Keeps R) :
    (listed.takeDescription operation id).2.Keeps R := by
  unfold takeDescription
  split
  case h_1 kept hkept =>
    exact h.insert (hhalved.description id kept (h id kept (keptNow_eq_some_iff.mp hkept).1))
  case h_2 => exact h

theorem takeDraft_eq_some {draft : Bool} (h : (listed.takeDraft operation id).1 = some draft) :
    ∃ kept, listed id = some kept ∧ operation = some kept.operation ∧ kept.draft = some draft := by
  unfold takeDraft at h
  split at h
  case h_1 kept hkept =>
    obtain ⟨hlisted, hoperation⟩ := keptNow_eq_some_iff.mp hkept
    exact ⟨kept, hlisted, hoperation, h⟩
  case h_2 => cases h

theorem takeDescription_eq_some {description : Description}
    (h : (listed.takeDescription operation id).1 = some description) :
    ∃ kept, listed id = some kept ∧ operation = some kept.operation ∧
      kept.description = some description := by
  unfold takeDescription at h
  split at h
  case h_1 kept hkept =>
    obtain ⟨hlisted, hoperation⟩ := keptNow_eq_some_iff.mp hkept
    exact ⟨kept, hlisted, hoperation, h⟩
  case h_2 => cases h

end Listed

section Calls

variable {gh : Gh} {listed : Listed} {operation : Option ℕ} {id base : Text}
  {R : Text → ListedChange → Prop}

theorem findItems_keeps {items : List Item} (h : listed.Keeps R)
    (hitems : ∀ current ∈ operation, ∀ entry ∈ World.listing gh base items,
      R entry.1 ⟨current, entry.2.1, entry.2.2⟩) :
    (findItems gh operation base listed items).2.Keeps R := by
  induction items generalizing listed with
  | nil => exact h
  | cons item rest ih =>
    rw [findItems]
    cases hrequest : item.request gh base with
    | error refusal => exact h
    | ok request =>
      simp only [World.listing, hrequest] at hitems
      refine ih (Listed.keeps_keep h fun current hcurrent => ?_)
        fun current hcurrent entry hentry => ?_
      · exact hitems current hcurrent _ List.mem_cons_self
      · exact hitems current hcurrent entry (List.mem_cons_of_mem _ hentry)

theorem described_keeps {view : View} (h : listed.Keeps R)
    (hview : ∀ current ∈ operation, ∀ entry ∈ World.viewing id (some view),
      R entry.1 ⟨current, entry.2.1, entry.2.2⟩) :
    (view.described operation id listed).2.Keeps R := by
  obtain ⟨title, body, draft⟩ := view
  cases title with
  | none => exact h
  | some title =>
    cases body with
    | none => exact h
    | some body =>
      exact Listed.keeps_keep h fun current hcurrent =>
        hview current hcurrent _ List.mem_cons_self

theorem changeDescription_keeps (hhalved : Listed.Halved R) {heard : Option View}
    (h : listed.Keeps R)
    (hview : addressable id = true → (listed.takeDescription operation id).1 = none →
      ∀ current ∈ operation, ∀ entry ∈ World.viewing id heard,
        R entry.1 ⟨current, entry.2.1, entry.2.2⟩) :
    (changeDescription operation id heard listed).2.Keeps R := by
  have htaken : (listed.takeDescription operation id).2.Keeps R :=
    Listed.keeps_takeDescription hhalved h
  unfold changeDescription
  by_cases haddressable : addressable id = true
  · simp only [haddressable, Bool.not_true, Bool.false_eq_true, if_false]
    cases hanswer : (listed.takeDescription operation id).1 with
    | some description => exact htaken
    | none =>
      cases heard with
      | none => exact htaken
      | some view => exact described_keeps htaken (hview haddressable hanswer)
  · simp only [Bool.not_eq_true] at haddressable
    simp only [haddressable, Bool.not_false, if_true]
    exact h

theorem isDraft_keeps (hhalved : Listed.Halved R) {heard : Option View} (h : listed.Keeps R) :
    (isDraft operation id heard listed).2.Keeps R := by
  have htaken : (listed.takeDraft operation id).2.Keeps R := Listed.keeps_takeDraft hhalved h
  unfold isDraft
  by_cases haddressable : addressable id = true
  · simp only [haddressable, Bool.not_true, Bool.false_eq_true, if_false]
    cases (listed.takeDraft operation id).1 with
    | some draft => exact htaken
    | none =>
      cases heard with
      | none => exact htaken
      | some view =>
        dsimp only
        cases view.isDraft <;> exact htaken
  · simp only [Bool.not_eq_true] at haddressable
    simp only [haddressable, Bool.not_false, if_true]
    exact h

theorem isDraft_ok {heard : Option View} {draft : Bool}
    (h : (isDraft operation id heard listed).1 = .ok draft) :
    (listed.takeDraft operation id).1 = some draft ∨
      (listed.takeDraft operation id).1 = none ∧ ∃ view ∈ heard, view.isDraft = some draft := by
  unfold isDraft at h
  by_cases haddressable : addressable id = true
  · simp only [haddressable, Bool.not_true, Bool.false_eq_true, if_false] at h
    cases hanswer : (listed.takeDraft operation id).1 with
    | some kept =>
      rw [hanswer] at h
      exact .inl (congrArg some (Except.ok.inj h))
    | none =>
      rw [hanswer] at h
      cases heard with
      | none => cases h
      | some view =>
        dsimp only at h
        cases hdraft : view.isDraft with
        | none =>
          rw [hdraft] at h
          cases h
        | some said =>
          rw [hdraft] at h
          exact .inr ⟨rfl, view, rfl, hdraft.trans (congrArg some (Except.ok.inj h))⟩
  · simp only [Bool.not_eq_true] at haddressable
    simp only [haddressable, Bool.not_false, if_true] at h
    cases h

theorem described_ok {view : View} {description : Description}
    (h : (view.described operation id listed).1 = .ok description) :
    view.title = some description.title ∧ view.body = some description.body := by
  obtain ⟨title, body, draft⟩ := view
  cases title with
  | none => cases h
  | some title =>
    cases body with
    | none => cases h
    | some body =>
      obtain rfl := Except.ok.inj h
      exact ⟨rfl, rfl⟩

theorem changeDescription_ok {heard : Option View} {description : Description}
    (h : (changeDescription operation id heard listed).1 = .ok description) :
    (listed.takeDescription operation id).1 = some description ∨
      (listed.takeDescription operation id).1 = none ∧ ∃ view ∈ heard,
        view.title = some description.title ∧ view.body = some description.body := by
  unfold changeDescription at h
  by_cases haddressable : addressable id = true
  · simp only [haddressable, Bool.not_true, Bool.false_eq_true, if_false] at h
    cases hanswer : (listed.takeDescription operation id).1 with
    | some kept =>
      rw [hanswer] at h
      exact .inl (congrArg some (Except.ok.inj h))
    | none =>
      rw [hanswer] at h
      cases heard with
      | none => cases h
      | some view => exact .inr ⟨rfl, view, rfl, described_ok h⟩
  · simp only [Bool.not_eq_true] at haddressable
    simp only [haddressable, Bool.not_false, if_true] at h
    cases h

theorem findChanges_keeps {head : Text} {heard : Option (List Item)} (h : listed.Keeps R)
    (hitems : ∀ current ∈ operation, ∀ entry ∈ World.listing gh base
      (if gh.validBranch head && gh.validBranch base then heard.getD [] else []),
      R entry.1 ⟨current, entry.2.1, entry.2.2⟩) :
    (findChanges gh operation head base heard listed).2.Keeps R := by
  unfold findChanges
  split
  case isTrue => exact h
  case isFalse hhead =>
    split
    case isTrue => exact h
    case isFalse hbase =>
      cases heard with
      | none => exact h
      | some items =>
        simp only [Bool.not_eq_true', Bool.not_eq_false] at hhead hbase
        rw [hhead, hbase] at hitems
        exact findItems_keeps h hitems

end Calls

/-! ## What is kept in an operation -/

/-- The operations that are going on: all but the outermost are part of it. -/
inductive Nested : Option ℕ → List (Option ℕ) → Prop
  | outside : Nested none []
  | outermost (operation : ℕ) : Nested (some operation) [none]
  | inner {operation : ℕ} {outer : List (Option ℕ)} :
      Nested (some operation) outer → Nested (some operation) (some operation :: outer)

/-- What is kept for an id was kept in an operation that has begun and, where that is the current
one, is among what was kept in it. -/
structure Here (operation : Option ℕ) (nextOperation : ℕ) (entries : List (Text × ListedChange))
    (id : Text) (kept : ListedChange) : Prop where
  begun : kept.operation < nextOperation
  draft : operation = some kept.operation → ∀ draft ∈ kept.draft,
    ∃ entry ∈ entries, entry.1 = id ∧ entry.2.draft = some draft
  description : operation = some kept.operation → ∀ description ∈ kept.description,
    ∃ entry ∈ entries, entry.1 = id ∧ entry.2.description = some description

/-- What is recalled was kept in the operation that is going on. -/
structure KeptHere (world : World) : Prop where
  nested : Nested world.operation world.outer
  begun : ∀ operation ∈ world.operation, operation < world.nextOperation
  here : world.listed.Keeps (Here world.operation world.nextOperation world.kept)
  drafts : ∀ told ∈ world.drafts, told.recalled = true → told.keptHere = true
  descriptions : ∀ told ∈ world.descriptions, told.recalled = true → told.keptHere = true

section Entries

variable {operation : Option ℕ} {nextOperation : ℕ} {entries : List (Text × ListedChange)}

theorem halved_here : Listed.Halved (Here operation nextOperation entries) where
  draft _ _ h := { h with draft := fun _ _ hdraft => (nomatch hdraft) }
  description _ _ h := { h with description := fun _ _ hdescription => (nomatch hdescription) }

theorem Here.mono {more : List (Text × ListedChange)} {id : Text} {kept : ListedChange}
    (h : Here operation nextOperation entries id kept)
    (hmore : operation = some kept.operation → ∀ entry ∈ entries, entry ∈ more) :
    Here operation nextOperation more id kept := by
  refine ⟨h.begun, fun hoperation draft hdraft => ?_, fun hoperation description hdescription => ?_⟩
  · obtain ⟨entry, hentry, hsaid⟩ := h.draft hoperation draft hdraft
    exact ⟨entry, hmore hoperation entry hentry, hsaid⟩
  · obtain ⟨entry, hentry, hsaid⟩ := h.description hoperation description hdescription
    exact ⟨entry, hmore hoperation entry hentry, hsaid⟩

theorem here_of_ne {id : Text} {kept : ListedChange} (hbegun : kept.operation < nextOperation)
    (hne : operation ≠ some kept.operation) : Here operation nextOperation entries id kept :=
  ⟨hbegun, fun heq => absurd heq hne, fun heq => absurd heq hne⟩

end Entries

section Keeping

variable {world : World} {read : List (Text × Option Bool × Option Description)}

theorem keeps_keeping
    (h : world.listed.Keeps (Here world.operation world.nextOperation world.kept)) :
    world.listed.Keeps (Here world.operation world.nextOperation (world.keeping read)) := by
  refine Memo.Keeps.mono h fun id kept here => here.mono fun hoperation entry hentry => ?_
  unfold World.keeping
  rw [hoperation]
  exact List.mem_append_right _ hentry

theorem here_of_mem (hbegun : ∀ operation ∈ world.operation, operation < world.nextOperation)
    {operation : ℕ} (hoperation : operation ∈ world.operation)
    {entry : Text × Option Bool × Option Description} (hentry : entry ∈ read) :
    Here world.operation world.nextOperation (world.keeping read) entry.1
      ⟨operation, entry.2.1, entry.2.2⟩ := by
  have hmem : (entry.1, (⟨operation, entry.2.1, entry.2.2⟩ : ListedChange)) ∈
      world.keeping read := by
    unfold World.keeping
    rw [Option.mem_def.mp hoperation]
    exact List.mem_append_left _ (List.mem_map.mpr ⟨entry, hentry, rfl⟩)
  exact ⟨hbegun operation hoperation, fun _ draft hdraft => ⟨_, hmem, rfl, hdraft⟩,
    fun _ description hdescription => ⟨_, hmem, rfl, hdescription⟩⟩

end Keeping

section Telling

variable {α : Type} [DecidableEq α] {world : World} {id : Text} {answer : Except Refusal α}
  {host kept : Option α} {half : ListedChange → Option α} {told : List (Told α)}

theorem mem_telling {one : Told α} (h : one ∈ world.telling id answer host kept half told) :
    one ∈ told ∨ ∃ given, answer = .ok given ∧ one.answer = given ∧ one.host = host ∧
      one.recalled = kept.isSome ∧ one.keptHere = (world.operation.isSome &&
        world.kept.any fun entry => decide (entry.1 = id ∧ half entry.2 = some given)) := by
  unfold World.telling at h
  cases answer with
  | error refusal => exact .inl h
  | ok given =>
    rcases List.mem_cons.mp h with rfl | h
    · exact .inr ⟨given, rfl, rfl, rfl, rfl, rfl⟩
    · exact .inl h

theorem telling_keptHere (htold : ∀ one ∈ told, one.recalled = true → one.keptHere = true)
    (hanswer : ∀ given, answer = .ok given → kept.isSome = true → world.operation.isSome = true ∧
      ∃ entry ∈ world.kept, entry.1 = id ∧ half entry.2 = some given) :
    ∀ one ∈ world.telling id answer host kept half told,
      one.recalled = true → one.keptHere = true := by
  intro one hone hrecalled
  rcases mem_telling hone with hone | ⟨given, hgiven, -, -, hsome, hhere⟩
  · exact htold one hone hrecalled
  · obtain ⟨hoperation, entry, hentry, hid, hhalf⟩ := hanswer given hgiven (hsome ▸ hrecalled)
    rw [hhere, hoperation, Bool.true_and, List.any_eq_true]
    exact ⟨entry, hentry, decide_eq_true ⟨hid, hhalf⟩⟩

theorem telling_exact (htold : ∀ one ∈ told, one.host = some one.answer)
    (hanswer : ∀ given, answer = .ok given → host = some given) :
    ∀ one ∈ world.telling id answer host kept half told, one.host = some one.answer := by
  intro one hone
  rcases mem_telling hone with hone | ⟨given, hgiven, hanswered, hhost, -, -⟩
  · exact htold one hone
  · rw [hhost, hanswered]
    exact hanswer given hgiven

end Telling

section Steps

variable {gh : Gh} {world : World}

theorem KeptHere.enter (h : KeptHere world) : KeptHere world.enter := by
  cases hoperation : world.operation with
  | none =>
    have hnested := h.nested
    rw [hoperation] at hnested
    generalize houter : world.outer = outer at hnested
    cases hnested
    simp only [World.enter, hoperation, houter, Option.getD_none, Option.isNone_none, if_true]
    refine ⟨.outermost _, fun operation hmem => ?_, fun id kept hkept => ?_, h.drafts,
      h.descriptions⟩
    · obtain rfl := Option.some.inj hmem
      exact Nat.lt_succ_self _
    · -- what was kept before is of an operation that has ended
      have hbegun := (h.here id kept hkept).begun
      exact here_of_ne (Nat.lt_succ_of_lt hbegun) fun heq =>
        hbegun.ne' (Option.some.inj heq)
  | some operation =>
    have hnested := h.nested
    have hbegun := h.begun
    have hhere := h.here
    rw [hoperation] at hnested hbegun hhere
    simp only [World.enter, hoperation, Option.getD_some, Option.isNone_some, Bool.false_eq_true,
      if_false]
    exact ⟨.inner hnested, hbegun, hhere, h.drafts, h.descriptions⟩

theorem leave_cases {after : World} (hnested : Nested world.operation world.outer)
    (hleave : world.leave = some after) :
    after = { world with operation := none, outer := [], kept := [] } ∨
      ∃ outer, Nested world.operation outer ∧ after = { world with outer } := by
  obtain ⟨listed, operation, outer, nextOperation, changes, kept, drafts, descriptions⟩ := world
  dsimp only at hnested
  cases hnested with
  | outside => cases hleave
  | outermost operation => exact .inl (Option.some.inj hleave).symm
  | @inner operation outer hinner => exact .inr ⟨outer, hinner, (Option.some.inj hleave).symm⟩

theorem KeptHere.leave {after : World} (h : KeptHere world) (hleave : world.leave = some after) :
    KeptHere after := by
  obtain rfl | ⟨outer, hnested, rfl⟩ := leave_cases h.nested hleave
  · refine ⟨.outside, fun _ hmem => (nomatch hmem), fun id kept hkept => ?_, h.drafts,
      h.descriptions⟩
    exact here_of_ne (h.here id kept hkept).begun fun heq => (nomatch heq)
  · exact ⟨hnested, h.begun, h.here, h.drafts, h.descriptions⟩

theorem KeptHere.asked {write : Except Refusal Write} {listed : Listed} {taken : Bool}
    (h : KeptHere world)
    (hlisted : listed.Keeps (Here world.operation world.nextOperation world.kept)) :
    KeptHere (world.asked write listed taken) := by
  cases write with
  | error refusal => exact ⟨h.nested, h.begun, hlisted, h.drafts, h.descriptions⟩
  | ok write => exact ⟨h.nested, h.begun, hlisted, h.drafts, h.descriptions⟩

theorem readyForReview_keeps {listed : Listed} {id : Text} {R : Text → ListedChange → Prop}
    (h : listed.Keeps R) : (readyForReview gh id listed).2.Keeps R := by
  unfold readyForReview
  split
  · exact h
  · exact Listed.keeps_forget h id

theorem describeChange_keeps {listed : Listed} {id body : Text} {title : Option Text}
    {scratch : Bool} {R : Text → ListedChange → Prop} (h : listed.Keeps R) :
    (describeChange gh id title body scratch listed).2.Keeps R := by
  unfold describeChange
  split
  · exact h
  · split <;> exact Listed.keeps_forget h id

theorem KeptHere.changeDescription (h : KeptHere world) {id : Text} {heard : Option View}
    {host : Option Description} :
    let taken := (world.listed.takeDescription world.operation id).1
    let answered := GitHub.changeDescription world.operation id heard world.listed
    KeptHere
      { world with
        listed := answered.2
        kept := if addressable id && taken.isNone then world.keeping (World.viewing id heard)
          else world.kept
        descriptions :=
          world.telling id answered.1 host taken (·.description) world.descriptions } := by
  intro taken answered
  refine ⟨h.nested, h.begun, ?_, h.drafts, telling_keptHere h.descriptions ?_⟩
  · dsimp only
    split
    case isTrue hasked =>
      exact changeDescription_keeps halved_here (keeps_keeping h.here)
        fun _ _ _ hcurrent _ hentry => here_of_mem h.begun hcurrent hentry
    case isFalse hasked =>
      refine changeDescription_keeps halved_here h.here fun haddressable hnone => ?_
      exact absurd (by rw [haddressable, Bool.true_and]; exact Option.isNone_iff_eq_none.mpr hnone)
        hasked
  · intro given hgiven hkept
    rcases changeDescription_ok hgiven with htaken | ⟨hnone, -⟩
    · obtain ⟨kept, hlisted, hoperation, hdescription⟩ := Listed.takeDescription_eq_some htaken
      refine ⟨by rw [hoperation]; rfl, ?_⟩
      exact (h.here id kept hlisted).description hoperation given hdescription
    · rw [show taken = none from hnone] at hkept
      cases hkept

theorem KeptHere.isDraft (h : KeptHere world) {id : Text} {heard : Option View}
    {host : Option Bool} :
    let taken := (world.listed.takeDraft world.operation id).1
    let answered := GitHub.isDraft world.operation id heard world.listed
    KeptHere
      { world with
        listed := answered.2
        drafts := world.telling id answered.1 host taken (·.draft) world.drafts } := by
  intro taken answered
  refine ⟨h.nested, h.begun, isDraft_keeps halved_here h.here, telling_keptHere h.drafts ?_,
    h.descriptions⟩
  intro given hgiven hkept
  rcases isDraft_ok hgiven with htaken | ⟨hnone, -⟩
  · obtain ⟨kept, hlisted, hoperation, hdraft⟩ := Listed.takeDraft_eq_some htaken
    refine ⟨by rw [hoperation]; rfl, ?_⟩
    exact (h.here id kept hlisted).draft hoperation given hdraft
  · rw [show taken = none from hnone] at hkept
    cases hkept

theorem KeptHere.step {after : World} (h : KeptHere world) {act : Act}
    (hstep : world.step gh act = some after) : KeptHere after := by
  cases act with
  | enter =>
    obtain rfl := Option.some.inj hstep
    exact h.enter
  | leave => exact h.leave hstep
  | elsewhere =>
    obtain rfl := Option.some.inj hstep
    refine ⟨h.nested, fun operation hmem => Nat.lt_succ_of_lt (h.begun operation hmem),
      h.here.mono fun _ _ here => ?_, h.drafts, h.descriptions⟩
    exact ⟨Nat.lt_succ_of_lt here.begun, here.draft, here.description⟩
  | findChanges head base heard =>
    rw [World.step] at hstep
    split at hstep
    case isFalse => cases hstep
    case isTrue =>
      obtain rfl := Option.some.inj hstep
      refine ⟨h.nested, h.begun, ?_, h.drafts, h.descriptions⟩
      exact findChanges_keeps (keeps_keeping h.here)
        fun _ hcurrent _ hentry => here_of_mem h.begun hcurrent hentry
  | changeDescription id heard =>
    rw [World.step] at hstep
    split at hstep
    case isFalse => cases hstep
    case isTrue =>
      obtain rfl := Option.some.inj hstep
      exact h.changeDescription
  | isDraft id heard =>
    rw [World.step] at hstep
    split at hstep
    case isFalse => cases hstep
    case isTrue =>
      obtain rfl := Option.some.inj hstep
      exact h.isDraft
  | readyForReview id taken =>
    obtain rfl := Option.some.inj hstep
    exact h.asked (readyForReview_keeps h.here)
  | describeChange id title body scratch taken =>
    obtain rfl := Option.some.inj hstep
    exact h.asked (describeChange_keeps h.here)
  | retargetChange id base body taken =>
    obtain rfl := Option.some.inj hstep
    exact h.asked h.here
  | reopenChange id taken =>
    obtain rfl := Option.some.inj hstep
    exact h.asked h.here
  | merge id policy taken =>
    rw [World.step] at hstep
    split at hstep
    · obtain rfl := Option.some.inj hstep
      exact h
    · obtain rfl := Option.some.inj hstep
      exact h
    · obtain rfl := Option.some.inj hstep
      exact h.asked h.here

end Steps

/-! ## What is kept is so -/

/-- What is kept in the operation for an id is so of the change request that it names. -/
def Right (operation : Option ℕ) (named : Text → Option Change) (id : Text) (kept : ListedChange) :
    Prop :=
  operation = some kept.operation → ∃ change ∈ named id,
    (∀ draft ∈ kept.draft, draft = change.draft) ∧
      ∀ description ∈ kept.description, description = change.description

/-- What is kept now is so, and what was told was. -/
structure Exact (gh : Gh) (world : World) : Prop where
  right : world.listed.Keeps (Right world.operation (world.named gh))
  drafts : ∀ told ∈ world.drafts, told.host = some told.answer
  descriptions : ∀ told ∈ world.descriptions, told.host = some told.answer

/-- The write changes nothing that is kept now, but for what it forgets: a draft is not readied and
a description not written over under another of its ids, and a retarget hands over no other body
than one that is kept. -/
def Spares (gh : Gh) (world : World) : Act → Prop
  | .readyForReview id _ => addressable id = true → ∀ other kept, other ≠ id →
      world.listed.keptNow world.operation other = some kept → gh.names other = gh.names id →
        kept.draft ≠ some true
  | .describeChange id title body scratch _ => addressable id = true → scratch = true →
      ∀ other kept, other ≠ id → world.listed.keptNow world.operation other = some kept →
        gh.names other = gh.names id → ∀ description ∈ kept.description,
          description.body = body ∧ ∀ given ∈ title, description.title = given
  | .retargetChange id _ body _ => ∀ number ∈ digits id, ∀ given ∈ body, ∀ other kept,
      world.listed.keptNow world.operation other = some kept → gh.names other = some number →
        ∀ description ∈ kept.description, description.body = given
  | _ => True

theorem halved_right {operation : Option ℕ} {named : Text → Option Change} :
    Listed.Halved (Right operation named) where
  draft _ _ h hoperation := by
    obtain ⟨change, hchange, -, hdescription⟩ := h hoperation
    exact ⟨change, hchange, fun _ hdraft => (nomatch hdraft), hdescription⟩
  description _ _ h hoperation := by
    obtain ⟨change, hchange, hdraft, -⟩ := h hoperation
    exact ⟨change, hchange, hdraft, fun _ hdescription => (nomatch hdescription)⟩

section Reading

variable {gh : Gh} {world : World}

theorem right_of_mem_listing {base : Text} {items : List Item} {operation : ℕ}
    (htrue : ∀ item ∈ items, item.TrueOf world.changes)
    {entry : Text × Option Bool × Option Description}
    (hentry : entry ∈ World.listing gh base items) :
    Right world.operation (world.named gh) entry.1 ⟨operation, entry.2.1, entry.2.2⟩ := by
  induction items with
  | nil => cases hentry
  | cons item rest ih =>
    rw [List.forall_mem_cons] at htrue
    cases hrequest : item.request gh base with
    | error refusal =>
      simp only [World.listing, hrequest] at hentry
      cases hentry
    | ok request =>
      simp only [World.listing, hrequest] at hentry
      rcases List.mem_cons.mp hentry with rfl | hentry
      · intro _
        obtain ⟨number, hnumber, hid⟩ : ∃ number, item.number = some number ∧
            request.id = Nat.toDigits 10 number := by
          unfold Item.request at hrequest
          split at hrequest
          · split at hrequest
            · cases hrequest
            · cases hrequest
            · next number _ hnumber _ =>
              obtain rfl := Except.ok.inj hrequest
              exact ⟨number, hnumber, rfl⟩
          · cases hrequest
        obtain ⟨change, hchange, htitle, hbody, hdraft⟩ := htrue.1 number hnumber
        refine ⟨change, ?_, hdraft, fun description hdescription => ?_⟩
        · simp only [World.named, hid, gh.names_number, Option.bind_some]
          exact hchange
        · unfold Item.description at hdescription
          split at hdescription
          case h_1 title body htitled hbodied =>
            obtain rfl := Option.some.inj hdescription
            rw [htitle title htitled, hbody body hbodied]
          case h_2 => cases hdescription
      · exact ih htrue.2 hentry

theorem right_of_mem_viewing {id : Text} {heard : Option View} {operation : ℕ}
    (htrue : ∀ view ∈ heard, world.Says gh id view)
    {entry : Text × Option Bool × Option Description} (hentry : entry ∈ World.viewing id heard) :
    Right world.operation (world.named gh) entry.1 ⟨operation, entry.2.1, entry.2.2⟩ := by
  intro _
  unfold World.viewing at hentry
  split at hentry
  case h_1 title body draft =>
    obtain rfl := List.mem_singleton.mp hentry
    obtain ⟨change, hchange, -, -, hdraft⟩ := htrue _ rfl
    exact ⟨change, hchange, hdraft, fun _ hdescription => (nomatch hdescription)⟩
  case h_2 => cases hentry

theorem Exact.draft_ok (h : Exact gh world) {id : Text} {heard : Option View}
    (htrue : ∀ view ∈ heard, world.Says gh id view) {draft : Bool}
    (hok : (isDraft world.operation id heard world.listed).1 = .ok draft) :
    (world.named gh id).map (·.draft) = some draft := by
  rcases isDraft_ok hok with htaken | ⟨-, view, hview, hdraft⟩
  · obtain ⟨kept, hlisted, hoperation, hkept⟩ := Listed.takeDraft_eq_some htaken
    obtain ⟨change, hchange, hright, -⟩ := h.right id kept hlisted hoperation
    rw [Option.mem_def.mp hchange, Option.map_some, hright draft hkept]
  · obtain ⟨change, hchange, -, -, hright⟩ := htrue view hview
    rw [Option.mem_def.mp hchange, Option.map_some, hright draft hdraft]

theorem Exact.description_ok (h : Exact gh world) {id : Text} {heard : Option View}
    (htrue : ∀ view ∈ heard, world.Says gh id view) {description : Description}
    (hok : (changeDescription world.operation id heard world.listed).1 = .ok description) :
    (world.named gh id).map (·.description) = some description := by
  rcases changeDescription_ok hok with htaken | ⟨-, view, hview, htitle, hbody⟩
  · obtain ⟨kept, hlisted, hoperation, hkept⟩ := Listed.takeDescription_eq_some htaken
    obtain ⟨change, hchange, -, hright⟩ := h.right id kept hlisted hoperation
    rw [Option.mem_def.mp hchange, Option.map_some, hright description hkept]
  · obtain ⟨change, hchange, htitled, hbodied, -⟩ := htrue view hview
    rw [Option.mem_def.mp hchange, Option.map_some]
    obtain ⟨title, body⟩ := description
    rw [htitled title htitle, hbodied body hbody]

end Reading

section Writing

variable {gh : Gh} {world : World}

theorem bind_take (write : Write) (changes : Changes) (number : Option ℕ) :
    number.bind (write.take changes) =
      if write.number = number then (number.bind changes).map write.change
      else number.bind changes := by
  cases number with
  | none => simp
  | some n =>
    unfold Write.take
    cases hwrite : write.number with
    | none => simp
    | some m =>
      by_cases heq : m = n
      · subst heq
        cases hchange : changes m <;> simp [hchange, Memo.insert]
      · rw [if_neg (by simpa using heq)]
        cases hchange : changes m with
        | none => simp [hchange]
        | some change =>
          simp only [hchange, Option.bind_some]
          exact Function.update_of_ne (Ne.symm heq) _ _

/-- A write that spares what is kept once the call has forgotten. -/
theorem Exact.asked {write : Except Refusal Write} {listed : Listed} {taken : Bool}
    (h : Exact gh world)
    (hlisted : ∀ id kept, listed id = some kept → world.listed id = some kept)
    (hspares : ∀ asked, write = .ok asked → ∀ other kept change, listed other = some kept →
      world.operation = some kept.operation → asked.number = gh.names other →
      (∀ draft ∈ kept.draft, draft = change.draft) →
      (∀ description ∈ kept.description, description = change.description) →
      (∀ draft ∈ kept.draft, draft = (asked.change change).draft) ∧
        ∀ description ∈ kept.description, description = (asked.change change).description) :
    Exact gh (world.asked write listed taken) := by
  have hright : listed.Keeps (Right world.operation (world.named gh)) :=
    fun id kept hkept => h.right id kept (hlisted id kept hkept)
  cases write with
  | error refusal => exact ⟨hright, h.drafts, h.descriptions⟩
  | ok asked =>
    cases taken with
    | false => exact ⟨hright, h.drafts, h.descriptions⟩
    | true =>
      refine ⟨fun other kept hkept hoperation => ?_, h.drafts, h.descriptions⟩
      obtain ⟨change, hchange, hdraft, hdescription⟩ := hright other kept hkept hoperation
      simp only [World.asked, World.named, if_true, bind_take]
      have hchange : (gh.names other).bind world.changes = some change := hchange
      by_cases hnumber : asked.number = gh.names other
      · rw [if_pos hnumber, hchange]
        exact ⟨_, rfl, hspares asked rfl other kept change hkept hoperation hnumber hdraft
          hdescription⟩
      · rw [if_neg hnumber, hchange]
        exact ⟨change, rfl, hdraft, hdescription⟩

theorem Exact.readyForReview (h : Exact gh world) {id : Text} {taken : Bool}
    (hspares : Spares gh world (.readyForReview id taken)) :
    Exact gh (world.asked (readyForReview gh id world.listed).1
      (readyForReview gh id world.listed).2 taken) := by
  unfold GitHub.readyForReview
  by_cases haddressable : addressable id = true
  · rw [if_neg (by simp [haddressable])]
    refine h.asked (fun other kept hkept => (Listed.forget_eq_some_iff.mp hkept).1) ?_
    intro asked hasked other kept change hkept hoperation hnumber hdraft hdescription
    obtain rfl := Except.ok.inj hasked
    obtain ⟨hlisted, hne⟩ := Listed.forget_eq_some_iff.mp hkept
    refine ⟨fun draft hkeeps => ?_, hdescription⟩
    have hnot := hspares haddressable other kept hne
      (Listed.keptNow_eq_some_iff.mpr ⟨hlisted, hoperation⟩) hnumber.symm
    cases draft with
    | false => rfl
    | true => exact absurd hkeeps hnot
  · rw [if_pos (by simpa using haddressable)]
    exact h.asked (fun _ _ hkept => hkept) fun _ hasked => (nomatch hasked)

theorem Exact.describeChange (h : Exact gh world) {id body : Text} {title : Option Text}
    {scratch taken : Bool}
    (hspares : Spares gh world (.describeChange id title body scratch taken)) :
    Exact gh (world.asked (describeChange gh id title body scratch world.listed).1
      (describeChange gh id title body scratch world.listed).2 taken) := by
  unfold GitHub.describeChange
  by_cases haddressable : addressable id = true
  · rw [if_neg (by simp [haddressable])]
    cases scratch with
    | false =>
      exact h.asked (fun other kept hkept => (Listed.forget_eq_some_iff.mp hkept).1)
        fun _ hasked => (nomatch hasked)
    | true =>
      refine h.asked (fun other kept hkept => (Listed.forget_eq_some_iff.mp hkept).1) ?_
      intro asked hasked other kept change hkept hoperation hnumber hdraft hdescription
      obtain rfl := Except.ok.inj hasked
      obtain ⟨hlisted, hne⟩ := Listed.forget_eq_some_iff.mp hkept
      refine ⟨hdraft, fun description hkeeps => ?_⟩
      obtain ⟨hbody, htitle⟩ := hspares haddressable rfl other kept hne
        (Listed.keptNow_eq_some_iff.mpr ⟨hlisted, hoperation⟩) hnumber.symm description hkeeps
      obtain rfl := hdescription description hkeeps
      cases title with
      | none =>
        dsimp only [Option.getD_none]
        rw [← hbody]
      | some given =>
        dsimp only [Option.getD_some]
        rw [← hbody, ← htitle given rfl]
  · rw [if_pos (by simpa using haddressable)]
    exact h.asked (fun _ _ hkept => hkept) fun _ hasked => (nomatch hasked)

theorem Exact.retargetChange (h : Exact gh world) {id base : Text} {body : Option Text}
    {taken : Bool} (hspares : Spares gh world (.retargetChange id base body taken)) :
    Exact gh (world.asked (retargetChange id base body) world.listed taken) := by
  refine h.asked (fun _ _ hkept => hkept) ?_
  intro asked hasked other kept change hkept hoperation hnumber hdraft hdescription
  unfold GitHub.retargetChange at hasked
  split at hasked
  case h_1 => cases hasked
  case h_2 number hdigits =>
    obtain rfl := Except.ok.inj hasked
    refine ⟨hdraft, fun description hkeeps => ?_⟩
    have hdescribed := hdescription description hkeeps
    cases body with
    | none => exact hdescribed
    | some given =>
      have hgiven := hspares number hdigits given rfl other kept
        (Listed.keptNow_eq_some_iff.mpr ⟨hkept, hoperation⟩) hnumber.symm description hkeeps
      dsimp only [Option.getD_some]
      rw [← hgiven, ← hdescribed]

theorem Exact.asked_apart (h : Exact gh world) {write : Except Refusal Write} {taken : Bool}
    (happart : ∀ asked, write = .ok asked → ∀ change,
      (asked.change change).draft = change.draft ∧
        (asked.change change).description = change.description) :
    Exact gh (world.asked write world.listed taken) := by
  refine h.asked (fun _ _ hkept => hkept) ?_
  intro asked hasked other kept change _ _ _ hdraft hdescription
  rw [(happart asked hasked change).1, (happart asked hasked change).2]
  exact ⟨hdraft, hdescription⟩

end Writing

theorem Exact.step {gh : Gh} {world after : World} (hkept : KeptHere world) (h : Exact gh world)
    {act : Act} (hspares : Spares gh world act) (hstep : world.step gh act = some after) :
    Exact gh after := by
  cases act with
  | enter =>
    obtain rfl := Option.some.inj hstep
    refine ⟨fun id kept hheld hoperation => ?_, h.drafts, h.descriptions⟩
    cases hcurrent : world.operation with
    | none =>
      simp only [World.enter, hcurrent, Option.getD_none, Option.some_inj] at hoperation
      exact absurd hoperation (hkept.here id kept hheld).begun.ne'
    | some operation =>
      simp only [World.enter, hcurrent, Option.getD_some] at hoperation
      exact h.right id kept hheld (hcurrent.trans hoperation)
  | leave =>
    obtain rfl | ⟨outer, -, rfl⟩ := leave_cases hkept.nested hstep
    · exact ⟨fun _ _ _ hoperation => (nomatch hoperation), h.drafts, h.descriptions⟩
    · exact ⟨h.right, h.drafts, h.descriptions⟩
  | elsewhere =>
    obtain rfl := Option.some.inj hstep
    exact ⟨h.right, h.drafts, h.descriptions⟩
  | findChanges head base heard =>
    rw [World.step] at hstep
    split at hstep
    case isFalse => cases hstep
    case isTrue htrue =>
      obtain rfl := Option.some.inj hstep
      refine ⟨findChanges_keeps h.right fun _ _ entry hentry => ?_, h.drafts, h.descriptions⟩
      refine right_of_mem_listing (fun item hitem => ?_) hentry
      split at hitem
      · cases heard with
        | none => cases hitem
        | some items => exact htrue items rfl item hitem
      · cases hitem
  | changeDescription id heard =>
    rw [World.step] at hstep
    split at hstep
    case isFalse => cases hstep
    case isTrue hview =>
      obtain rfl := Option.some.inj hstep
      exact ⟨changeDescription_keeps halved_right h.right fun _ _ _ _ entry hentry =>
          right_of_mem_viewing hview hentry, h.drafts,
        telling_exact h.descriptions fun _ hok => h.description_ok hview hok⟩
  | isDraft id heard =>
    rw [World.step] at hstep
    split at hstep
    case isFalse => cases hstep
    case isTrue hview =>
      obtain rfl := Option.some.inj hstep
      exact ⟨isDraft_keeps halved_right h.right,
        telling_exact h.drafts fun _ hok => h.draft_ok hview hok, h.descriptions⟩
  | readyForReview id taken =>
    obtain rfl := Option.some.inj hstep
    exact h.readyForReview hspares
  | describeChange id title body scratch taken =>
    obtain rfl := Option.some.inj hstep
    exact h.describeChange hspares
  | retargetChange id base body taken =>
    obtain rfl := Option.some.inj hstep
    exact h.retargetChange hspares
  | reopenChange id taken =>
    obtain rfl := Option.some.inj hstep
    refine h.asked_apart fun asked hasked change => ?_
    unfold GitHub.reopenChange at hasked
    split at hasked
    · cases hasked
    · obtain rfl := Except.ok.inj hasked
      exact ⟨rfl, rfl⟩
  | merge id policy taken =>
    rw [World.step] at hstep
    split at hstep
    · obtain rfl := Option.some.inj hstep
      exact h
    · obtain rfl := Option.some.inj hstep
      exact h
    · next write hwrite =>
      obtain rfl := Option.some.inj hstep
      refine h.asked_apart fun asked hasked change => ?_
      obtain rfl := Except.ok.inj hasked
      unfold GitHub.merge at hwrite
      split at hwrite
      · cases hwrite
      · cases hwrite
      · split at hwrite
        · cases hwrite
        · obtain rfl := Option.some.inj (Except.ok.inj hwrite)
          exact ⟨rfl, rfl⟩
      · split at hwrite
        · cases hwrite
        · obtain rfl := Option.some.inj (Except.ok.inj hwrite)
          exact ⟨rfl, rfl⟩

/-! ## Whole runs -/

theorem keptHere_of_reachable {gh : Gh} {world : World} (hreach : (system gh).Reachable world) :
    KeptHere world := by
  refine System.ReachableBy.invariant hreach ?_ fun _ _ _ h _ hstep => h.step hstep
  rintro _ ⟨changes, nextOperation, rfl⟩
  exact ⟨.outside, fun _ hmem => (nomatch hmem), Memo.keeps_empty, fun _ hmem => (nomatch hmem),
    fun _ hmem => (nomatch hmem)⟩

theorem exact_of_reachableBy {gh : Gh} {world : World}
    (hreach : (system gh).ReachableBy (Spares gh) world) : Exact gh world := by
  have hboth : KeptHere world ∧ Exact gh world := by
    induction hreach with
    | @start world hinit =>
      have hstart : (system gh).Reachable world := .start hinit
      have hkept := keptHere_of_reachable hstart
      obtain ⟨changes, nextOperation, rfl⟩ := hinit
      exact ⟨hkept, Memo.keeps_empty, fun _ hmem => (nomatch hmem), fun _ hmem => (nomatch hmem)⟩
    | step _ hspares hstep ih => exact ⟨ih.1.step hstep, ih.2.step ih.1 hspares hstep⟩
  exact hboth.2

/-- In every run, what is recalled was kept in the operation that is going on; and where each
write spares what is kept, every answer is the host's. -/
theorem listed_transparent (gh : Gh) (world : World) (hreach : (system gh).Reachable world) :
    ((∀ told ∈ world.drafts, told.recalled = true → told.keptHere = true) ∧
      ∀ told ∈ world.descriptions, told.recalled = true → told.keptHere = true) ∧
    ((system gh).ReachableBy (Spares gh) world →
      (∀ told ∈ world.drafts, told.host = some told.answer) ∧
        ∀ told ∈ world.descriptions, told.host = some told.answer) :=
  have hkept := keptHere_of_reachable hreach
  ⟨⟨hkept.drafts, hkept.descriptions⟩, fun hspares =>
    have hexact := exact_of_reachableBy hspares
    ⟨hexact.drafts, hexact.descriptions⟩⟩

/-- A `gh` that takes a number for what it says, and anything else for no change request. -/
def plain : Gh where
  names id := if Foundations.isNumeral id then some (Nat.ofDigitChars 10 id 0) else none
  validBranch _ := true
  validUrl _ := true
  names_number n := by
    rw [if_pos (Foundations.isNumeral_toDigits n),
      Nat.ofDigitChars_toDigits (by decide) (by decide)]

def seven : Change where
  draft := true
  description := { title := "t".toList, body := "old".toList }
  base := "main".toList
  state := .opened

def seventh : Item where
  url := "u".toList
  number := some 7
  headSha := some "h".toList
  isDraft := some true
  title := some "t".toList
  body := some "old".toList

/-- The host has change request 7 alone. -/
def start : World := .fresh (Memo.empty.insert 7 seven) 1

/-- A listing, a retarget that hands a body over or does not, and a read of the description. -/
def calls (body : Option Text) : List Act :=
  [.enter, .findChanges "h".toList "main".toList (some [seventh]),
    .retargetChange "7".toList "next".toList body true, .changeDescription "7".toList none, .leave]

theorem listed_transparent_retargeted : ∃ world, (system plain).Reachable world ∧
    (world.descriptions.map fun told => (told.recalled, told.host)) =
      [(true, some seven.description)] ∧
    (∀ told ∈ world.descriptions, told.recalled = true → told.keptHere = true) ∧
    ∀ told ∈ world.descriptions, told.host = some told.answer := by
  obtain ⟨world, hrun⟩ : ∃ world, (system plain).run start (calls none) = some world := ⟨_, rfl⟩
  have hreach := System.reachable_of_run (S := system plain) ⟨_, _, rfl⟩ hrun
  have hspares : ∀ act ∈ calls none, ∀ world, Spares plain world act := by
    intro act hact world
    simp only [calls, List.mem_cons, List.not_mem_nil, or_false] at hact
    obtain rfl | rfl | rfl | rfl | rfl := hact
    · trivial
    · trivial
    · exact fun _ _ _ hgiven => (nomatch hgiven)
    · trivial
    · trivial
  have htransparent := listed_transparent plain world hreach
  refine ⟨world, hreach, ?_, htransparent.1.2, (htransparent.2 ?_).2⟩
  · have hdescriptions : ((system plain).run start (calls none)).map
        (fun world => world.descriptions.map fun told => (told.recalled, told.host)) =
          some [(true, some seven.description)] := by decide +kernel
    rw [hrun] at hdescriptions
    exact Option.some.inj hdescriptions
  · exact System.reachableBy_of_run ⟨_, _, rfl⟩ (System.runMeets_of_forall hspares start) hrun

/-- The description that is recalled is the one that the retarget has written over. -/
theorem retargeted_body_stale : ∃ world, (system plain).Reachable world ∧
    ∃ told ∈ world.descriptions, told.answer = { title := "t".toList, body := "old".toList } ∧
      told.host = some { title := "t".toList, body := "new".toList } := by
  obtain ⟨world, hrun⟩ : ∃ world,
      (system plain).run start (calls (some "new".toList)) = some world := ⟨_, rfl⟩
  have hdescriptions : ((system plain).run start (calls (some "new".toList))).map
      (fun world => world.descriptions.map fun told => (told.answer, told.host)) =
        some [({ title := "t".toList, body := "old".toList },
          some { title := "t".toList, body := "new".toList })] := by decide +kernel
  rw [hrun] at hdescriptions
  have hmem := Option.some.inj hdescriptions ▸ List.mem_singleton_self _
  obtain ⟨told, htold, heq⟩ := List.mem_map.mp hmem
  exact ⟨world, System.reachable_of_run ⟨_, _, rfl⟩ hrun, told, htold, congrArg Prod.fst heq,
    congrArg Prod.snd heq⟩

end Onevcs.GitHub
