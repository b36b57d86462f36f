import Onevcs.Integrate.Train

/-!
# What a train lands

A step lemma for each part of a candidate's way to the base, from the squash outward, and the
train by induction on the candidates. The invariant is that the refs have the names they had
after the fetch, so that a plain name stays one, and that origin's base has not moved.
-/

namespace Onevcs.Integrate

open Foundations

variable {κ τ : Type} {H : History κ} {tree : κ → τ} {git : Git κ}
variable {base branch remoteBase name : Text} {refs after fetched final : Refs κ} {c tip : κ}

theorem named_ok : named refs name = .ok c ↔ resolve refs name = some c := by
  unfold named
  cases resolve refs name <;> simp

theorem headSha_ok : headSha refs branch = .ok c ↔ refs (headRef branch) = some c := by
  unfold headSha
  cases refs (headRef branch) <;> simp

theorem calling_ok {α : Type} {x : Except Text α} {a : α} : calling x = .ok a ↔ x = .ok a := by
  cases x <;> simp [calling]

@[simp] theorem moveBranch_self (refs : Refs κ) (branch : Text) (tip : κ) :
    moveBranch refs branch tip (headRef branch) = some tip := by
  simp [moveBranch]

theorem moveBranch_of_ne {full : Text} (h : full ≠ headRef branch) :
    moveBranch refs branch tip full = refs full :=
  Function.update_of_ne h _ _

theorem Merged.reaches_reference {head reference : κ} (h : Merged H head reference tip) :
    H.Reaches tip reference := by
  rcases h with ⟨rfl, hreach⟩ | ⟨rfl, -⟩ | hparents
  · exact hreach
  · exact .refl _
  · exact .of_parent (by simp [hparents]) (.refl _)

theorem Lawful.forwarded_child (lawful : Lawful H tree git) {head sha : κ}
    (hparents : H.parents sha = [head]) (h : git.mergeFfOnly head sha = .ok tip) : tip = sha := by
  have hchild : H.Reaches sha head := .of_parent (by simp [hparents]) (.refl _)
  rcases lawful.forwarded h with ⟨rfl, -⟩ | ⟨rfl, hback⟩
  · rfl
  · exact hback.antisymm hchild

/-! ## The refs a candidate may move -/

/-- Only the base and the candidate were moved, and no ref was added or removed. -/
structure Moves (base branch : Text) (refs after : Refs κ) : Prop where
  names : SameNames refs after
  others : ∀ full, full ≠ headRef base → full ≠ headRef branch → after full = refs full

theorem Moves.refl (base branch : Text) (refs : Refs κ) : Moves base branch refs refs :=
  ⟨.refl refs, fun _ _ _ => rfl⟩

theorem Moves.trans {later : Refs κ} (h : Moves base branch refs after)
    (h' : Moves base branch after later) : Moves base branch refs later where
  names := h.names.trans h'.names
  others full hbase hbranch := (h'.others full hbase hbranch).trans (h.others full hbase hbranch)

theorem Moves.candidate (h : refs (headRef branch) = some c) (tip : κ) :
    Moves base branch refs (moveBranch refs branch tip) where
  names := .update h tip
  others _ _ hbranch := moveBranch_of_ne hbranch

theorem Moves.onBase (h : refs (headRef base) = some c) (tip : κ) :
    Moves base branch refs (moveBranch refs base tip) where
  names := .update h tip
  others _ hbase _ := moveBranch_of_ne hbase

/-- The refs in which one candidate is on its way: the base and the candidate have plain names
and are where the train left them. -/
structure OnWay (base branch : Text) (head tip : κ) (refs : Refs κ) : Prop where
  ne : base ≠ branch
  plainBase : Plain refs base
  plainBranch : Plain refs branch
  atHead : refs (headRef base) = some head
  atTip : refs (headRef branch) = some tip

section

variable {head : κ}

theorem OnWay.base_eq (h : OnWay base branch head tip refs) (hnamed : named refs base = .ok c) :
    c = head := by
  rw [named_ok, resolve_of_plain h.plainBase h.atHead] at hnamed
  exact (Option.some.inj hnamed).symm

theorem OnWay.branch_eq (h : OnWay base branch head tip refs)
    (hnamed : named refs branch = .ok c) : c = tip := by
  rw [named_ok, resolve_of_plain h.plainBranch h.atTip] at hnamed
  exact (Option.some.inj hnamed).symm

theorem OnWay.headSha_eq (h : OnWay base branch head tip refs)
    (hsha : headSha refs base = .ok c) : c = head := by
  rw [headSha_ok, h.atHead] at hsha
  exact (Option.some.inj hsha).symm

theorem OnWay.move (h : OnWay base branch head tip refs) (c : κ) :
    OnWay base branch head c (moveBranch refs branch c) where
  ne := h.ne
  plainBase := h.plainBase.of_sameNames (.update h.atTip c)
  plainBranch := h.plainBranch.of_sameNames (.update h.atTip c)
  atHead := by
    rw [moveBranch_of_ne fun heq => h.ne (headRef_injective heq)]
    exact h.atHead
  atTip := moveBranch_self refs branch c

/-! ## From the squash outward -/

theorem squashOnto_ok (lawful : Lawful H tree git) {message : Text} {landed : Bool}
    (hway : OnWay base branch head tip refs) (hreach : H.Reaches tip head)
    (h : squashOnto git base branch message head refs = .ok (landed, after)) :
    (landed = false ∧ after = refs) ∨
      (landed = true ∧ ∃ sha, H.parents sha = [head] ∧ tree sha = tree tip ∧
        after = moveBranch refs base sha) := by
  rw [squashOnto, bind_eq_ok] at h
  obtain ⟨found, hfound, h⟩ := h
  obtain rfl := hway.branch_eq hfound
  rw [bind_eq_ok] at h
  obtain ⟨squashed, hsquash, h⟩ := h
  cases squashed with
  | none =>
    obtain ⟨rfl, rfl⟩ := Prod.mk.inj (Except.ok.inj h)
    exact Or.inl ⟨rfl, rfl⟩
  | some sha =>
    obtain ⟨hparents, htree⟩ := lawful.squashed hreach hsquash
    dsimp only at h
    rw [bind_eq_ok] at h
    obtain ⟨onto, honto, h⟩ := h
    obtain rfl := hway.headSha_eq honto
    rw [bind_eq_ok] at h
    obtain ⟨advanced, hforward, h⟩ := h
    obtain rfl := lawful.forwarded_child hparents hforward
    obtain ⟨rfl, rfl⟩ := Prod.mk.inj (Except.ok.inj h)
    exact Or.inr ⟨rfl, advanced, hparents, htree, rfl⟩

theorem squashPublish_ok (lawful : Lawful H tree git) {message : Text} {landed : Bool}
    (hway : OnWay base branch head tip refs) (hreach : H.Reaches tip head)
    (h : squashPublish git base branch message refs = .ok (landed, after)) :
    (landed = false ∧ after = refs) ∨
      (landed = true ∧ ∃ sha, H.parents sha = [head] ∧ tree sha = tree tip ∧
        after = moveBranch refs base sha) := by
  obtain ⟨scratch, hscratch, h⟩ := bind_eq_ok.mp h
  obtain rfl := hway.base_eq hscratch
  obtain ⟨_, -, h⟩ := bind_eq_ok.mp h
  obtain ⟨_, -, h⟩ := bind_eq_ok.mp h
  exact squashOnto_ok lawful hway hreach h

theorem land_ok (lawful : Lawful H tree git) {status : Status}
    (hway : OnWay base branch head tip refs) (hreach : H.Reaches tip head)
    (h : land git base branch tip refs = .ok (status, after)) :
    (status ≠ .merged ∧ after = refs) ∨
      (status = .merged ∧ ∃ sha, H.parents sha = [head] ∧ tree sha = tree tip ∧
        after = moveBranch refs base sha) := by
  obtain ⟨_, -, h⟩ := bind_eq_ok.mp h
  obtain ⟨_, -, h⟩ := bind_eq_ok.mp h
  obtain ⟨contained, -, h⟩ := bind_eq_ok.mp h
  cases contained with
  | false =>
    obtain ⟨rfl, rfl⟩ := Prod.mk.inj (Except.ok.inj h)
    exact Or.inl ⟨nofun, rfl⟩
  | true =>
    obtain ⟨_, -, h⟩ := bind_eq_ok.mp h
    obtain ⟨subject, -, h⟩ := bind_eq_ok.mp h
    cases subject with
    | error reason =>
      obtain ⟨rfl, rfl⟩ := Prod.mk.inj (Except.ok.inj h)
      exact Or.inl ⟨nofun, rfl⟩
    | ok subject =>
      obtain ⟨_, -, h⟩ := bind_eq_ok.mp h
      obtain ⟨_, -, h⟩ := bind_eq_ok.mp h
      obtain ⟨⟨landed, left⟩, hsquash, h⟩ := bind_eq_ok.mp h
      obtain ⟨rfl, rfl⟩ := Prod.mk.inj (Except.ok.inj h)
      rcases squashPublish_ok lawful hway hreach hsquash with
        ⟨rfl, rfl⟩ | ⟨rfl, sha, hparents, htree, rfl⟩
      · exact Or.inl ⟨nofun, rfl⟩
      · exact Or.inr ⟨rfl, sha, hparents, htree, rfl⟩

/-- What a candidate on its way did: the base stays, or has the candidate's landing. -/
inductive Did (H : History κ) (tree : κ → τ) (origin : Option κ) (base branch : Text)
    (refs : Refs κ) : Status → Refs κ → Prop
  | stayed {status : Status} {after : Refs κ} (hstatus : status ≠ .merged)
      (hmoves : Moves base branch refs after)
      (hbase : after (headRef base) = refs (headRef base)) :
      Did H tree origin base branch refs status after
  | landed {after : Refs κ} (l : Landing κ) (hbranch : l.branch = branch) (hne : base ≠ branch)
      (hmoves : Moves base branch refs after)
      (htip : refs (headRef branch) = some l.tip) (hbase : refs (headRef base) = some l.base)
      (hcommit : after (headRef base) = some l.commit) (hexact : l.Exact H tree origin) :
      Did H tree origin base branch refs .merged after

variable {origin : Option κ} {status : Status} {synced : κ}

/-- A candidate that merged origin's base lands what it is after the local one. -/
theorem mergeBase_ok (lawful : Lawful H tree git) {start : Refs κ}
    (hstart : OnWay base branch head tip start) (hsynced : Merged H tip (origin.getD head) synced)
    (h : mergeBase git base branch synced (moveBranch start branch synced) = .ok (status, after)) :
    Did H tree origin base branch start status after := by
  have hway := hstart.move synced
  have hfirst : Moves base branch start (moveBranch start branch synced) :=
    .candidate hstart.atTip synced
  rw [mergeBase, bind_eq_ok] at h
  obtain ⟨onto, honto, h⟩ := h
  obtain rfl := hway.base_eq honto
  rw [bind_eq_ok] at h
  obtain ⟨integrated, hmerge, h⟩ := h
  cases integrated with
  | conflicted paths =>
    obtain ⟨rfl, rfl⟩ := Prod.mk.inj (Except.ok.inj h)
    exact .stayed nofun hfirst (hway.atHead.trans hstart.atHead.symm)
  | settled built =>
    have hbuilt := lawful.merged hmerge
    have hnext := hway.move built
    have hsecond := hfirst.trans (.candidate hway.atTip built)
    rcases land_ok lawful hnext hbuilt.reaches_reference h with
      ⟨hstatus, rfl⟩ | ⟨rfl, sha, hparents, htree, rfl⟩
    · exact .stayed hstatus hsecond (hnext.atHead.trans hstart.atHead.symm)
    · refine .landed ⟨branch, tip, synced, onto, built, sha⟩ rfl hstart.ne
        (hsecond.trans (.onBase hnext.atHead sha)) hstart.atTip hstart.atHead
        (moveBranch_self _ _ _) ⟨hsynced, hbuilt, hparents, htree⟩

/-- The name the train has for origin's base means it, or the local base where there is none. -/
theorem baseRef_eq (hway : OnWay base branch head tip refs)
    (horigin : refs (remoteRef (originName base)) ≠ none → PlainRemote refs (originName base))
    (hnamed : named refs (baseRef refs base) = .ok c) :
    c = (refs (remoteRef (originName base))).getD head := by
  rw [baseRef] at hnamed
  cases hremote : refs (remoteRef (originName base)) with
  | none => exact hway.base_eq (by simpa [hremote] using hnamed)
  | some remote =>
    have hplain := horigin (by simp [hremote])
    rw [if_pos (by simp [hremote]), named_ok, resolve_of_plainRemote hplain hremote] at hnamed
    exact (Option.some.inj hnamed).symm

theorem inWorktree_ok (lawful : Lawful H tree git) (hway : OnWay base branch head tip refs)
    (horigin : refs (remoteRef (originName base)) ≠ none → PlainRemote refs (originName base))
    (h : inWorktree git base (baseRef refs base) branch refs = .ok (status, after)) :
    Did H tree (refs (remoteRef (originName base))) base branch refs status after := by
  rw [inWorktree, bind_eq_ok] at h
  obtain ⟨start, hstart, h⟩ := h
  obtain rfl : tip = start := by
    rw [headSha_ok, hway.atTip] at hstart
    exact Option.some.inj hstart
  rw [bind_eq_ok] at h
  obtain ⟨reference, hreference, h⟩ := h
  obtain rfl := baseRef_eq hway horigin hreference
  rw [bind_eq_ok] at h
  obtain ⟨integrated, hmerge, h⟩ := h
  cases integrated with
  | conflicted paths =>
    obtain ⟨rfl, rfl⟩ := Prod.mk.inj (Except.ok.inj h)
    exact .stayed nofun (.refl _ _ _) rfl
  | settled synced => exact mergeBase_ok lawful hway (lawful.merged hmerge) h

theorem one_ok (lawful : Lawful H tree git) (hplain : Plain refs base)
    (hcandidate : Plain refs branch) (hhead : refs (headRef base) = some head)
    (horigin : refs (remoteRef (originName base)) ≠ none → PlainRemote refs (originName base))
    (h : one git base (baseRef refs base) branch refs = .ok (status, after)) :
    Did H tree (refs (remoteRef (originName base))) base branch refs status after := by
  rw [one, bind_eq_ok] at h
  obtain ⟨onto, -, h⟩ := h
  rw [bind_eq_ok] at h
  obtain ⟨tip, -, h⟩ := h
  rw [bind_eq_ok] at h
  obtain ⟨prefixes, -, h⟩ := h
  cases prefixes with
  | cons first rest =>
    obtain ⟨rfl, rfl⟩ := Prod.mk.inj (Except.ok.inj h)
    exact .stayed nofun (.refl _ _ _) rfl
  | nil =>
    dsimp only at h
    rw [bind_eq_ok] at h
    obtain ⟨unattested, -, h⟩ := h
    split at h
    · obtain ⟨rfl, rfl⟩ := Prod.mk.inj (Except.ok.inj h)
      exact .stayed nofun (.refl _ _ _) rfl
    · rw [bind_eq_ok] at h
      obtain ⟨_, hadded, h⟩ := h
      rw [bind_eq_ok] at h
      obtain ⟨_, -, h⟩ := h
      have hne : base ≠ branch := by
        rintro rfl
        simp [addWorktree] at hadded
      -- the worktree starts from the candidate's own head
      have htip : ∃ tip, refs (headRef branch) = some tip := by
        rw [inWorktree, bind_eq_ok] at h
        obtain ⟨tip, htip, -⟩ := h
        exact ⟨tip, headSha_ok.mp htip⟩
      obtain ⟨tip, htip⟩ := htip
      exact inWorktree_ok lawful ⟨hne, hplain, hcandidate, hhead, htip⟩ horigin h

theorem Did.moves (h : Did H tree origin base branch refs status after) :
    Moves base branch refs after := by
  cases h with
  | stayed hstatus hmoves hbase => exact hmoves
  | landed l hbranch hne hmoves htip hbase hcommit hexact => exact hmoves

theorem Moves.origin_eq (h : Moves base branch refs after) :
    after (remoteRef (originName base)) = refs (remoteRef (originName base)) :=
  h.others _ headRef_ne_remoteRef.symm headRef_ne_remoteRef.symm

theorem Moves.baseRef_eq (h : Moves base branch refs after) : baseRef after base = baseRef refs base := by
  simp only [baseRef, h.origin_eq]

end

/-- What the candidates landed, from refs that have the base at `initial`. -/
structure Line (H : History κ) (tree : κ → τ) (base : Text) (candidates : List Text)
    (refs : Refs κ) (initial last : κ) (outcomes : List BranchOutcome)
    (landings : List (Landing κ)) : Prop where
  line : H.line last = (landings.map (·.commit)).reverse ++ H.line initial
  branches : landings.map (·.branch) = (outcomes.filter (·.status = .merged)).map (·.branch)
  exact : ∀ l ∈ landings, l.Exact H tree (refs (remoteRef (originName base)))
  offered : outcomes.map (·.branch) = candidates
  among : ∀ l ∈ landings, l.branch ∈ candidates ∧ l.branch ≠ base
  tips : candidates.Nodup → ∀ l ∈ landings, refs (headRef l.branch) = some l.tip
  reaches : ∀ l ∈ landings, H.Reaches l.built initial
  carried : landings.Pairwise fun earlier later => H.Reaches later.built earlier.commit

section

variable {initial last : κ} {candidates : List Text} {outcomes : List BranchOutcome}
  {landings : List (Landing κ)} {status : Status}

theorem Line.nil : Line H tree base [] refs initial initial [] [] where
  line := rfl
  branches := rfl
  exact := nofun
  offered := rfl
  among := nofun
  tips _ := nofun
  reaches := nofun
  carried := .nil

theorem Line.tips_of_moves (hmoves : Moves base branch refs after) (hnot : branch ∉ candidates)
    (h : Line H tree base candidates after initial last outcomes landings)
    (hnodup : candidates.Nodup) {l : Landing κ} (hl : l ∈ landings) :
    refs (headRef l.branch) = some l.tip := by
  obtain ⟨hmem, hne⟩ := h.among l hl
  rw [← h.tips hnodup l hl]
  refine (hmoves.others _ ?_ ?_).symm
  · exact fun heq => hne (headRef_injective heq)
  · intro heq
    exact hnot (headRef_injective heq ▸ hmem)

theorem Line.stay (hmoves : Moves base branch refs after) (hstatus : status ≠ .merged)
    (h : Line H tree base candidates after initial last outcomes landings) :
    Line H tree base (branch :: candidates) refs initial last (⟨branch, status⟩ :: outcomes)
      landings where
  line := h.line
  branches := by simpa [hstatus] using h.branches
  exact l hl := hmoves.origin_eq ▸ h.exact l hl
  offered := by simp [h.offered]
  among l hl := ⟨List.mem_cons_of_mem _ (h.among l hl).1, (h.among l hl).2⟩
  tips hnodup l hl := by
    obtain ⟨hnot, hrest⟩ := List.nodup_cons.mp hnodup
    exact h.tips_of_moves hmoves hnot hrest hl
  reaches := h.reaches
  carried := h.carried

/-- A candidate that landed, and then the others on its commit. -/
theorem Line.land {l : Landing κ} (hbranch : l.branch = branch) (hne : base ≠ branch)
    (hmoves : Moves base branch refs after) (htip : refs (headRef branch) = some l.tip)
    (hexact : l.Exact H tree (refs (remoteRef (originName base))))
    (h : Line H tree base candidates after l.commit last outcomes landings) :
    Line H tree base (branch :: candidates) refs l.base last (⟨branch, .merged⟩ :: outcomes)
      (l :: landings) where
  line := by
    rw [h.line, History.line_cons hexact.parents]
    simp
  branches := by simpa [hbranch] using h.branches
  exact := by
    rw [List.forall_mem_cons]
    exact ⟨hexact, fun later hlater => hmoves.origin_eq ▸ h.exact later hlater⟩
  offered := by simp [h.offered]
  among := by
    rw [List.forall_mem_cons]
    refine ⟨⟨by simp [hbranch], fun heq => hne (heq ▸ hbranch)⟩, fun later hlater => ?_⟩
    exact ⟨List.mem_cons_of_mem _ (h.among later hlater).1, (h.among later hlater).2⟩
  tips hnodup := by
    obtain ⟨hnot, hrest⟩ := List.nodup_cons.mp hnodup
    rw [List.forall_mem_cons]
    exact ⟨hbranch ▸ htip, fun later hlater => h.tips_of_moves hmoves hnot hrest hlater⟩
  reaches := by
    rw [List.forall_mem_cons]
    refine ⟨hexact.built.reaches_reference, fun later hlater => ?_⟩
    exact (h.reaches later hlater).trans (.of_parent (by simp [hexact.parents]) (.refl _))
  carried := List.pairwise_cons.mpr ⟨h.reaches, h.carried⟩

theorem offer_ok (lawful : Lawful H tree git) (hplain : Plain refs base)
    (hcandidates : ∀ branch ∈ candidates, Plain refs branch)
    (horigin : refs (remoteRef (originName base)) ≠ none → PlainRemote refs (originName base))
    (hhead : refs (headRef base) = some initial)
    (h : offer git base (baseRef refs base) candidates refs = .ok (outcomes, after)) :
    ∃ last landings, after (headRef base) = some last ∧
      Line H tree base candidates refs initial last outcomes landings := by
  induction candidates generalizing refs initial outcomes with
  | nil =>
    obtain ⟨rfl, rfl⟩ := Prod.mk.inj (Except.ok.inj h)
    exact ⟨initial, [], hhead, .nil⟩
  | cons branch rest ih =>
    rw [offer, bind_eq_ok] at h
    obtain ⟨⟨status, between⟩, hone, h⟩ := h
    dsimp only at h
    rw [bind_eq_ok] at h
    obtain ⟨⟨later, left⟩, hrest, h⟩ := h
    obtain ⟨rfl, rfl⟩ := Prod.mk.inj (Except.ok.inj h)
    rw [List.forall_mem_cons] at hcandidates
    have hdid := one_ok lawful hplain hcandidates.1 hhead horigin hone
    have hmoves := hdid.moves
    rw [← hmoves.baseRef_eq] at hrest
    have hplainBase := hplain.of_sameNames hmoves.names
    have hplainRest := fun b hb => (hcandidates.2 b hb).of_sameNames hmoves.names
    have horiginRest : between (remoteRef (originName base)) ≠ none →
        PlainRemote between (originName base) := by
      rw [hmoves.origin_eq]
      exact fun hsome => (horigin hsome).of_sameNames hmoves.names
    cases hdid with
    | stayed hstatus _ hbase =>
      obtain ⟨last, landings, hlast, hline⟩ :=
        ih hplainBase hplainRest horiginRest (hbase.trans hhead) hrest
      exact ⟨last, landings, hlast, hline.stay hmoves hstatus⟩
    | landed l hbranch hne _ htip hbase hcommit hexact =>
      obtain ⟨last, landings, hlast, hline⟩ :=
        ih hplainBase hplainRest horiginRest hcommit hrest
      obtain rfl : initial = l.base := Option.some.inj (hhead.symm.trans hbase)
      exact ⟨last, l :: landings, hlast, hline.land hbranch hne hmoves htip hexact⟩

theorem Line.last_eq_iff
    (h : Line H tree base candidates refs initial last outcomes landings) :
    last = initial ↔ ∀ outcome ∈ outcomes, outcome.status ≠ .merged := by
  have hnone : landings = [] ↔ ∀ outcome ∈ outcomes, outcome.status ≠ .merged := by
    rw [← List.map_eq_nil_iff (f := (·.branch)), h.branches, List.map_eq_nil_iff,
      List.filter_eq_nil_iff]
    simp
  rw [← hnone]
  constructor
  · rintro rfl
    have hlength := congrArg List.length h.line
    simpa using hlength
  · rintro rfl
    have hhead := congrArg List.head? h.line
    simpa [History.head?_line] using hhead

end

/-! ## The train -/

theorem publish_ok
    (hpushed : ∀ {refs after}, git.push refs = .ok (some after) →
      ∀ name, after (headRef name) = refs (headRef name))
    (h : publish git refs = .ok after) (name : Text) : after (headRef name) = refs (headRef name) := by
  unfold publish at h
  split at h
  · cases h
  · split at h
    · cases h
    · rw [bind_eq_ok] at h
      obtain ⟨pushed, hpush, h⟩ := h
      cases pushed with
      | none => cases h
      | some left =>
        obtain rfl := Except.ok.inj h
        exact hpushed (calling_ok.mp hpush) name

variable [DecidableEq κ] {candidates : List Text} {outcome : Outcome} {push : Bool}

/-- How a train that returned ended, from what its candidates did. -/
theorem train_ok (lawful : Lawful H tree git) (hfetch : fetchOrigin git refs = .ok fetched)
    (h : train git base candidates push refs = .ok (outcome, final)) :
    ∃ initial left last, fetched (headRef base) = some initial ∧
      offer git base (baseRef fetched base) candidates fetched = .ok (outcome.branches, left) ∧
      left (headRef base) = some last ∧ final (headRef base) = some last ∧
      (outcome.ending = .unchanged ↔ last = initial) := by
  rw [train, bind_eq_ok] at h
  obtain ⟨start, hstart, h⟩ := h
  obtain rfl : fetched = start := Except.ok.inj (hfetch.symm.trans (calling_ok.mp hstart))
  rw [bind_eq_ok] at h
  obtain ⟨initial, hinitial, h⟩ := h
  rw [bind_eq_ok] at h
  obtain ⟨⟨branches, left⟩, hoffer, h⟩ := h
  dsimp only at h
  rw [bind_eq_ok] at h
  obtain ⟨last, hlast, h⟩ := h
  rw [calling_ok, headSha_ok] at hinitial hlast
  rw [calling_ok] at hoffer
  refine ⟨initial, left, last, hinitial, ?_⟩
  split at h
  · next heq =>
    obtain ⟨rfl, rfl⟩ := Prod.mk.inj (Except.ok.inj h)
    exact ⟨hoffer, hlast, hlast, by simp [heq]⟩
  · next hne =>
    split at h
    · rw [bind_eq_ok] at h
      obtain ⟨pushed, hpush, h⟩ := h
      obtain ⟨rfl, rfl⟩ := Prod.mk.inj (Except.ok.inj h)
      exact ⟨hoffer, hlast, (publish_ok lawful.pushed hpush base).trans hlast, by simp [hne]⟩
    · obtain ⟨rfl, rfl⟩ := Prod.mk.inj (Except.ok.inj h)
      exact ⟨hoffer, hlast, hlast, by simp [hne]⟩

/-- A train whose names no other ref answers to appends one commit for each candidate that
landed, and no other. -/
theorem appends_of_plainNames (lawful : Lawful H tree git)
    (hfetch : fetchOrigin git refs = .ok fetched) (hplain : PlainNames fetched base candidates)
    (h : train git base candidates push refs = .ok (outcome, final)) :
    ∃ landings, Appends H tree base candidates fetched outcome final landings := by
  obtain ⟨initial, left, last, hinitial, hoffer, hleft, hfinal, hending⟩ :=
    train_ok lawful hfetch h
  obtain ⟨end_, landings, hend, hline⟩ :=
    offer_ok lawful hplain.ofBase hplain.ofCandidates hplain.ofOrigin hinitial hoffer
  obtain rfl : last = end_ := Option.some.inj (hleft.symm.trans hend)
  exact ⟨landings, {
    line := ⟨initial, last, hinitial, hfinal, hline.line⟩
    branches := hline.branches
    exact := hline.exact
    tips := hline.tips
    carried := hline.carried
    offered := hline.offered
    ending := hending.trans hline.last_eq_iff }⟩

/-! ## A tag of a candidate's name

The base `main` is at commit 0, and the candidate `foo` has two commits on it, 1 and 2. Git
squashes 1 into 3 and 2 into 4. -/

section Shadowed

def sampleParents : Nat → List Nat
  | 1 => [0]
  | 2 => [1]
  | 3 => [0]
  | 4 => [0]
  | _ => []

def sampleHistory : History Nat where
  parents := sampleParents
  generation := id
  older c p hp := by
    unfold sampleParents at hp
    split at hp <;> simp_all

/-- Each commit's tree: a squash has that of what it squashed. -/
def sampleTree : Nat → Nat
  | 3 => 1
  | 4 => 2
  | c => c

/-- What a squash onto the base makes of the candidate's commits. -/
def sampleSquash : Nat → Nat → Option Nat
  | 0, 1 => some 3
  | 0, 2 => some 4
  | _, _ => none

def sampleGit : Git Nat where
  hasRemote := false
  fetch := .ok
  unrecognized _ _ := .ok []
  unattested _ _ := .ok 0
  worktreeAddExisting _ := .ok ()
  worktreeAddDetached _ := .ok ()
  worktreeRemove := .ok ()
  mergeIntoBranch head reference _ :=
    if sampleHistory.Reaches head reference then .ok (.settled head) else .ok (.conflicted [])
  isAncestor old new := .ok (decide (sampleHistory.Reaches new old))
  publicationSubject _ _ := .ok (.ok ['f', 'i', 'x'])
  attestationTrailers _ _ := .ok []
  logMessages _ _ := .ok []
  references := id
  mergeSquash onto branch _ := .ok (sampleSquash onto branch)
  mergeFfOnly head sha :=
    if sampleHistory.Reaches sha head then .ok sha else .error ['n', 'o']
  guardPublication _ := .ok ()
  push _ := .ok none

def main : Text := ['m', 'a', 'i', 'n']
def foo : Text := ['f', 'o', 'o']

def untagged : Refs Nat := moveBranch (moveBranch (fun _ => none) main 0) foo 2

/-- And a tag that has the candidate's name, at its first commit. -/
def tagged : Refs Nat := Function.update untagged (tagRef foo) (some 1)

/-- What the train reports of the two. -/
def fooMerged : Outcome := ⟨main, [⟨foo, .merged⟩], .advanced⟩

/-- The refs after it, the base at the squash. -/
def landedAt (refs : Refs Nat) (sha : Nat) : Refs Nat :=
  moveBranch (moveBranch (moveBranch refs foo 2) foo 2) main sha

theorem sampleGit_lawful : Lawful sampleHistory sampleTree sampleGit where
  merged {head reference message tip} h := by
    by_cases hreach : sampleHistory.Reaches head reference
    · simp only [sampleGit, if_pos hreach] at h
      obtain rfl := Integrated.settled.inj (Except.ok.inj h)
      exact Or.inl ⟨rfl, hreach⟩
    · simp [sampleGit, hreach] at h
  squashed {onto branch message sha} hreach h := by
    have hsquash : sampleSquash onto branch = some sha := Except.ok.inj h
    unfold sampleSquash at hsquash
    split at hsquash <;> simp_all [sampleHistory, sampleParents, sampleTree] <;> subst hsquash <;>
      simp
  forwarded {head sha tip} h := by
    by_cases hreach : sampleHistory.Reaches sha head
    · simp only [sampleGit, if_pos hreach] at h
      exact Or.inl ⟨(Except.ok.inj h).symm, hreach⟩
    · simp [sampleGit, hreach] at h
  pushed h := by simp [sampleGit] at h

theorem train_tagged :
    train sampleGit main [foo] false tagged = .ok (fooMerged, landedAt tagged 3) := by
  rfl

theorem train_untagged :
    train sampleGit main [foo] false untagged = .ok (fooMerged, landedAt untagged 4) := by
  rfl

theorem sample_merged {c : Nat} (h : Merged sampleHistory 2 0 c) : c = 2 := by
  rcases h with ⟨rfl, -⟩ | ⟨rfl, hreach⟩ | hparents
  · rfl
  · exact absurd hreach (by decide)
  · simp only [sampleHistory] at hparents
    unfold sampleParents at hparents
    split at hparents <;> simp at hparents

/-- A tag that has a candidate's name is squashed in its place: the train reports the candidate
merged, and its second commit is nowhere on the base. -/
theorem shadowed_candidate :
    Lawful sampleHistory sampleTree sampleGit ∧
      train sampleGit main [foo] false tagged = .ok (fooMerged, landedAt tagged 3) ∧
      ¬ ∃ landings,
        Appends sampleHistory sampleTree main [foo] tagged fooMerged (landedAt tagged 3)
          landings := by
  refine ⟨sampleGit_lawful, train_tagged, ?_⟩
  rintro ⟨landings, h⟩
  obtain ⟨initial, last, hinitial, hlast, hline⟩ := h.line
  obtain rfl : 0 = initial := Option.some.inj hinitial
  obtain rfl : 3 = last := Option.some.inj hlast
  have hcommits : landings.map (·.commit) = [3] := by
    have hwritten : [3] ++ sampleHistory.line 0 =
        (landings.map (·.commit)).reverse ++ sampleHistory.line 0 := hline
    exact (List.reverse_eq_iff.mp (List.append_cancel_right hwritten).symm)
  obtain ⟨l, rfl, hcommit⟩ := List.map_eq_singleton_iff.mp hcommits
  have hmem : l ∈ [l] := List.mem_singleton_self l
  have hexact := h.exact l hmem
  have hbranch : l.branch = foo := List.cons.inj h.branches |>.1
  have htip : l.tip = 2 := by
    have hat := h.tips (List.nodup_singleton foo) l hmem
    rw [hbranch] at hat
    exact (Option.some.inj hat).symm
  have hbase : l.base = 0 := by
    have hparents := hexact.parents
    rw [hcommit] at hparents
    exact (List.cons.inj hparents).1.symm
  have hsynced : l.synced = 2 := by
    have hmerged := hexact.synced
    rw [htip, hbase] at hmerged
    exact sample_merged hmerged
  have hbuilt : l.built = 2 := by
    have hmerged := hexact.built
    rw [hsynced, hbase] at hmerged
    exact sample_merged hmerged
  have htree := hexact.tree
  rw [hcommit, hbuilt] at htree
  exact absurd htree (by decide)

theorem appends_untagged :
    ∃ landings,
      Appends sampleHistory sampleTree main [foo] untagged fooMerged (landedAt untagged 4)
        landings :=
  appends_of_plainNames sampleGit_lawful rfl ⟨by decide, by decide, by decide⟩ train_untagged

end Shadowed

end Onevcs.Integrate
