import Onevcs.Sessions.FreshNames

/-!
# When fresh branch names are unique

An open that cuts a name its search missed cuts a name that may be somebody else's: the
search listed no clone without a record, read no repository git would not list, saw of
origin what the last fetch brought, and asked nothing at all for a derived name; and what
it read may have changed by the time the branch is cut. Where no open cuts a name its
search missed, and no session loses its branch, fresh names are unique.
-/

set_option linter.unusedSectionVars false

namespace Onevcs.Sessions.FreshNames

open Foundations (System)

/-- Whoever is to cut a name knows where it is carried, or misses it. -/
def Phase.Sees (carries : List Copy) : Phase → Prop
  | .searching _ search =>
    ∀ copy ∈ carries, copy.2 ∈ search.taken ∨ copy ∈ search.missed ∨ copy.1 ∈ search.unread
  | .named _ branch cut missed | .placed _ branch cut missed _ =>
    cut = true → ∀ copy ∈ carries, copy.2 = branch → copy ∈ missed
  | .idle | .resolved _ | .fetched _ | .surveying _ _ _ | .recording _ => True

variable {carries carries' : List Copy} {phase : Phase} {copy : Copy}

theorem Phase.Sees.subset (h : phase.Sees carries) (hsub : carries' ⊆ carries) :
    phase.Sees carries' := by
  cases phase with
  | searching opening search => exact fun copy hcopy => h copy (hsub hcopy)
  | named opening branch cut missed => exact fun hcut copy hcopy => h hcut copy (hsub hcopy)
  | placed opening branch cut missed clone =>
    exact fun hcut copy hcopy => h hcut copy (hsub hcopy)
  | idle => trivial
  | resolved opening => trivial
  | fetched opening => trivial
  | surveying opening unread clones => trivial
  | recording token => trivial

theorem mem_cons_of_sees {branch : String} {missed : List Copy}
    (h : ∀ c ∈ carries, c.2 = branch → c ∈ missed) :
    ∀ c ∈ copy :: carries, c.2 = branch → c ∈ copy :: missed := by
  intro c hc hbranch
  rcases List.mem_cons.mp hc with rfl | hbefore
  · exact List.mem_cons_self
  · exact List.mem_cons_of_mem copy (h c hbefore hbranch)

theorem Phase.Sees.gain (h : phase.Sees carries) : (phase.miss copy).Sees (copy :: carries) := by
  cases phase with
  | searching opening search =>
    intro c hc
    by_cases hunread : copy.1 ∈ search.unread
    · simp only [Search.miss, if_pos hunread]
      rcases List.mem_cons.mp hc with rfl | hbefore
      · exact Or.inr (Or.inr hunread)
      · exact h c hbefore
    · simp only [Search.miss, if_neg hunread]
      rcases List.mem_cons.mp hc with rfl | hbefore
      · exact Or.inr (Or.inl List.mem_cons_self)
      · exact (h c hbefore).imp_right (Or.imp_left (List.mem_cons_of_mem copy))
  | named opening branch cut missed => exact fun hcut => mem_cons_of_sees (h hcut)
  | placed opening branch cut missed clone => exact fun hcut => mem_cons_of_sees (h hcut)
  | idle => trivial
  | resolved opening => trivial
  | fetched opening => trivial
  | surveying opening unread clones => trivial
  | recording token => trivial

theorem not_mem_of_firstFree {taken : List String} {stem name : String}
    (h : firstFree taken stem = some name) : name ∉ taken := by
  have hfree := List.find?_some h
  simpa using hfree

namespace World

variable {π : Type} [DecidableEq π] {checkouts : List String} {usable : String → Bool}
  {s s' : World π} {p : π}

theorem mem_branches {place : Place} {name : String} :
    name ∈ s.branches place ↔ (place, name) ∈ s.carries := by
  simp [branches]

theorem search_sees (s : World π) (opening : Opening) (clones : List Place) :
    (Phase.searching opening (s.search checkouts clones)).Sees s.carries := by
  intro copy hcopy
  by_cases hread : copy.1 ∈ (s.search checkouts clones).unread
  · exact Or.inr (Or.inr hread)
  · refine Or.inr (Or.inl ?_)
    exact List.mem_filter.mpr ⟨hcopy, by simpa [World.search] using hread⟩

theorem look_sees {opening : Opening} {place : Place} {unread : List Place}
    {taken : List String} {missed : List Copy} (readable : Bool)
    (h : (Phase.searching opening ⟨place :: unread, taken, missed⟩).Sees s.carries) :
    (Phase.searching opening
      (if readable then ⟨unread, s.branches place ++ taken, missed⟩
        else ⟨unread, taken,
          (s.carries.filter fun copy => decide (copy.1 = place)) ++ missed⟩)).Sees s.carries := by
  intro copy hcopy
  have hbefore := h copy hcopy
  simp only [List.mem_cons] at hbefore
  cases readable with
  | true =>
    simp only [if_true, List.mem_append, mem_branches]
    rcases hbefore with htaken | hmissed | rfl | hunread
    · exact Or.inl (Or.inr htaken)
    · exact Or.inr (Or.inl hmissed)
    · exact Or.inl (Or.inl hcopy)
    · exact Or.inr (Or.inr hunread)
  | false =>
    simp only [Bool.false_eq_true, if_false, List.mem_append, List.mem_filter, decide_eq_true_eq]
    rcases hbefore with htaken | hmissed | rfl | hunread
    · exact Or.inl htaken
    · exact Or.inr (Or.inl (Or.inr hmissed))
    · exact Or.inr (Or.inl (Or.inl ⟨hcopy, rfl⟩))
    · exact Or.inr (Or.inr hunread)

/-- A name settled on is carried by nothing but what the search missed. -/
theorem settled_sees {opening : Opening} {taken : List String} {missed : List Copy} (gone : Bool)
    (h : (Phase.searching opening ⟨[.origin], taken, missed⟩).Sees s.carries) :
    (s.settled usable opening ⟨[.origin], taken, missed⟩ gone).Sees s.carries := by
  unfold settled
  cases hrequest : opening.request with
  | generated branchPrefix => trivial
  | proposed stem =>
    dsimp only
    split
    · rename_i branch hfree
      split_ifs
      · intro _ copy hcopy hbranch
        have hnew := not_mem_of_firstFree hfree
        subst hbranch
        simp only [List.mem_append, not_or] at hnew
        rw [List.mem_append]
        rcases h copy hcopy with htaken | hmissed | horigin
        · exact absurd htaken hnew.2
        · exact Or.inr hmissed
        · refine Or.inl (List.mem_filter.mpr ⟨hcopy, ?_⟩)
          simp [List.mem_singleton.mp horigin, hnew.1, hnew.2]
      · trivial
    · trivial
  | pinned branch =>
    dsimp only
    split_ifs with hfound hgone
    · exact fun hcut => absurd hcut (by decide)
    all_goals
      intro _ copy hcopy hbranch
      subst hbranch
      simp only [not_or, not_and] at hfound
      simp only [List.mem_append, List.mem_filter, decide_eq_true_eq]
      rcases h copy hcopy with htaken | hmissed | horigin
    · exact Or.inl (Or.inr ⟨hcopy, trivial⟩)
    · exact Or.inr hmissed
    · exact Or.inl (Or.inl ⟨hcopy, List.mem_singleton.mp horigin, hfound.2⟩)
    · exact absurd (by simpa using hgone) (hfound.1 htaken)
    · exact Or.inr hmissed
    · exact Or.inl (Or.inl ⟨hcopy, List.mem_singleton.mp horigin, hfound.2⟩)

/-! ## The invariant -/

/-- Two sessions are not both cut fresh at one name they hold. -/
def Apart (a b : Session) : Prop := a.holds = true → b.holds = true → a.branch ≠ b.branch

/-- Everybody knows what carries the name it is to cut, or misses it; and a session cut
fresh has its branch, which no other has. -/
structure Invariant (s : World π) : Prop where
  sees : ∀ p, (s.process p).Sees s.carries
  carried : ∀ x ∈ s.sessions, x.holds = true → (.clone x.clone, x.branch) ∈ s.carries
  apart : s.sessions.Pairwise Apart

theorem Invariant.goto (h : s.Invariant) (phase : Phase) (hphase : phase.Sees s.carries) :
    (s.goto p phase).Invariant where
  sees q := by
    by_cases hq : q = p
    · subst hq
      simpa [World.goto] using hphase
    · simpa [World.goto, Function.update_of_ne hq] using h.sees q
  carried := h.carried
  apart := h.apart

theorem Invariant.gain (h : s.Invariant) (copy : Copy) : (s.gain copy).Invariant where
  sees p := (h.sees p).gain
  carried x hx hholds := List.mem_cons_of_mem copy (h.carried x hx hholds)
  apart := h.apart

theorem Invariant.lose (h : s.Invariant) (keep : Copy → Bool)
    (hkept : ∀ x ∈ s.sessions, x.holds = true → keep (.clone x.clone, x.branch) = true) :
    Invariant { s with carries := s.carries.filter keep } where
  sees p := (h.sees p).subset (List.filter_subset_self s.carries)
  carried x hx hholds := List.mem_filter.mpr ⟨h.carried x hx hholds, hkept x hx hholds⟩
  apart := h.apart

theorem Invariant.restage (h : s.Invariant) (f : Session → Session)
    (hbranch : ∀ x, (f x).branch = x.branch) (hclone : ∀ x, (f x).clone = x.clone)
    (hholds : ∀ x, (f x).holds = true → x.holds = true) :
    Invariant { s with sessions := s.sessions.map f } where
  sees := h.sees
  carried y hy hheld := by
    obtain ⟨x, hx, rfl⟩ := List.mem_map.mp hy
    rw [hbranch, hclone]
    exact h.carried x hx (hholds x hheld)
  apart := by
    rw [List.pairwise_map]
    refine h.apart.imp fun {a b} hab ha hb => ?_
    rw [hbranch, hbranch]
    exact hab (hholds a ha) (hholds b hb)

theorem Invariant.track (h : s.Invariant) (tracking : String → List String) :
    Invariant { s with tracking := tracking } := ⟨h.sees, h.carried, h.apart⟩

theorem Invariant.abandon (h : s.Invariant) (token : String) : (s.abandon token).Invariant where
  sees := h.sees
  carried x hx := h.carried x (List.mem_of_mem_filter hx)
  apart := h.apart.filter _

theorem Invariant.putOn (h : s.Invariant) {opening : Opening} {clone : Clone} {branch : String}
    {cut : Bool} (hfree : cut = true → ∀ place, (place, branch) ∉ s.carries) :
    (s.putOn p opening clone branch cut).Invariant := by
  have hgone := (h.gain (.clone clone, branch)).goto (p := p) (.recording opening.token) trivial
  refine ⟨hgone.sees, fun x hx hholds => ?_, ?_⟩
  · rcases List.mem_cons.mp hx with rfl | hbefore
    · exact List.mem_cons_self
    · exact hgone.carried x hbefore hholds
  · refine List.pairwise_cons.mpr ⟨fun x hx hnew hholds hsame => ?_, h.apart⟩
    have hcut : cut = true := by simpa [Session.holds] using hnew
    refine hfree hcut (.clone x.clone) ?_
    have hbranch : branch = x.branch := hsame
    rw [hbranch]
    exact h.carried x hx hholds

theorem Invariant.arrive (h : s.Invariant) {opening : Opening} {branch : String} {cut : Bool}
    {missed : List Copy} {clone : Clone} {head : Option String}
    (hp : (Phase.named opening branch cut missed).Sees s.carries)
    (hs : s.arrive p opening branch cut missed clone head = some s') : s'.Invariant := by
  unfold World.arrive at hs
  split_ifs at hs
  split at hs
  · obtain rfl := Option.some.inj hs
    exact h.goto (.placed _ _ _ _ _) hp
  · split_ifs at hs
    obtain rfl := Option.some.inj hs
    exact (h.gain _).goto (.placed _ _ _ _ _) fun hcut => mem_cons_of_sees (hp hcut)

theorem Invariant.free_of_unmissed (h : s.Invariant) {opening : Opening} {branch : String}
    {missed : List Copy} {clone : Clone} (hp : s.process p = .placed opening branch true missed clone)
    (hok : s.unmissed (.act p .cut) = true) (place : Place) : (place, branch) ∉ s.carries := by
  intro hcarried
  have hsees := h.sees p
  rw [hp] at hsees
  simp only [unmissed, hp, decide_eq_true_eq] at hok
  exact hok _ (hsees rfl _ hcarried rfl) rfl hcarried

theorem Invariant.act (h : s.Invariant) {act : Act} (hok : s.unmissed (.act p act) = true)
    (hs : s.act checkouts usable p act = some s') : s'.Invariant := by
  have hsees := h.sees p
  unfold World.act at hs
  split at hs <;> rename_i hp <;> try rw [hp] at hsees
  · -- resolve
    split_ifs at hs
    obtain rfl := Option.some.inj hs
    exact h.goto _ trivial
  · -- refresh
    obtain rfl := Option.some.inj hs
    exact (h.goto (.fetched _) trivial).track _
  · -- derive
    split at hs
    · obtain rfl := Option.some.inj hs
      refine h.goto _ ?_
      split_ifs
      · exact fun _ copy hcopy _ => hcopy
      · trivial
    · cases hs
  · -- survey
    split at hs
    · cases hs
    · split_ifs at hs
      obtain rfl := Option.some.inj hs
      exact h.goto _ trivial
  · -- read, a record
    obtain rfl := Option.some.inj hs
    exact h.goto _ trivial
  · -- read, the records over
    obtain rfl := Option.some.inj hs
    exact h.goto _ (search_sees s _ _)
  · -- look
    obtain rfl := Option.some.inj hs
    exact h.goto _ (look_sees _ hsees)
  · -- settle
    split_ifs at hs with horigin
    subst horigin
    obtain rfl := Option.some.inj hs
    exact h.goto _ (settled_sees _ hsees)
  · -- place
    split at hs
    · split_ifs at hs
      exact h.arrive hsees hs
    · cases hs
    · exact h.arrive hsees hs
    · obtain rfl := Option.some.inj hs
      exact h.goto (.placed _ _ _ _ _) hsees
  · -- cut
    split_ifs at hs
    obtain rfl := Option.some.inj hs
    exact h.putOn fun _ => h.free_of_unmissed hp hok
  · -- continued
    obtain rfl := Option.some.inj hs
    exact h.putOn fun hcut => absurd hcut (by decide)
  · -- record
    split at hs <;> obtain rfl := Option.some.inj hs
    · exact (h.abandon _).goto .idle trivial
    · refine (h.goto .idle trivial).restage _ (fun x => ?_) (fun x => ?_) (fun x hheld => ?_)
      · split_ifs <;> rfl
      · split_ifs <;> rfl
      · split_ifs at hheld with hcutting
        · simpa [Session.holds, hcutting.2] using hheld
        · exact hheld
  · -- fail, its branch cut
    obtain rfl := Option.some.inj hs
    exact (h.abandon _).goto .idle trivial
  · -- fail
    obtain rfl := Option.some.inj hs
    exact h.goto .idle trivial
  · cases hs

theorem Invariant.step (h : s.Invariant) {label : Label π} (hok : s.unmissed label = true)
    (hs : s.step checkouts usable label = some s') : s'.Invariant := by
  cases label with
  | act p act => exact h.act hok hs
  | gain copy =>
    obtain rfl := Option.some.inj hs
    exact h.gain copy
  | lose copy =>
    obtain rfl := Option.some.inj hs
    refine h.lose _ fun x hx hholds => ?_
    simp only [unmissed, decide_eq_true_eq] at hok
    exact decide_eq_true (hok x hx hholds)
  | discard clone =>
    obtain rfl := Option.some.inj hs
    refine h.lose _ fun x hx hholds => ?_
    simp only [unmissed, decide_eq_true_eq] at hok
    simpa using hok x hx hholds
  | close token =>
    obtain rfl := Option.some.inj hs
    refine h.restage _ (fun x => ?_) (fun x => ?_) (fun x hheld => ?_)
    · split_ifs <;> rfl
    · split_ifs <;> rfl
    · split_ifs at hheld
      · simp [Session.holds] at hheld
      · exact hheld

theorem invariant_of_reachable
    (h : (opens π checkouts usable).ReachableBy (fun s label => s.unmissed label = true) s) :
    s.Invariant := by
  refine h.invariant ?_ fun _ _ _ hi hok hs => hi.step hok hs
  rintro s ⟨hsessions, hprocess⟩
  refine ⟨fun p => ?_, by simp [hsessions], by simp [hsessions]⟩
  rw [hprocess]
  trivial

theorem cut_inv (hs : s.act checkouts usable p .cut = some s') :
    ∃ opening branch missed clone, s.process p = .placed opening branch true missed clone ∧
      s' = s.putOn p opening clone branch true := by
  unfold World.act at hs
  split at hs <;> try contradiction
  rename_i opening branch missed clone hp _
  split_ifs at hs
  obtain rfl := Option.some.inj hs
  exact ⟨opening, branch, missed, clone, hp, rfl⟩

end World

/-- Where every step of a run misses nothing it cuts, two sessions cut fresh never hold one
name; and whether a branch may be cut next is whether its name is carried anywhere. -/
theorem fresh_names_unique {π : Type} [DecidableEq π] {checkouts : List String}
    {usable : String → Bool} {s : World π}
    (h : (opens π checkouts usable).ReachableBy (fun s label => s.unmissed label = true) s) :
    (s.sessions.Pairwise fun a b => a.holds = true → b.holds = true → a.branch ≠ b.branch) ∧
      ∀ p s', (opens π checkouts usable).step s (.act p .cut) = some s' →
        ∃ x, s'.sessions = x :: s.sessions ∧ x.cut = true ∧
          (s.unmissed (.act p .cut) = true ↔ ∀ place, (place, x.branch) ∉ s.carries) := by
  have hinv := World.invariant_of_reachable h
  refine ⟨hinv.apart, fun p s' hs => ?_⟩
  obtain ⟨opening, branch, missed, clone, hp, rfl⟩ := World.cut_inv hs
  refine ⟨⟨opening.token, clone, branch, true, .cutting⟩, rfl, rfl, fun hok => ?_, fun hfree => ?_⟩
  · exact hinv.free_of_unmissed hp hok
  · simp only [World.unmissed, hp, decide_eq_true_eq]
    rintro ⟨place, name⟩ - rfl
    exact hfree place

/-- A host with one checkout, on `main` like its origin. -/
def oneCheckout : World Bool where
  carries := [(.checkout "lender", "main"), (.origin, "main")]
  tracking _ := ["main"]
  sessions := []
  process _ := .idle

/-- A process finds that no repository carries the name it proposes. -/
def proposing (p : Bool) (token : String) : List (Label Bool) :=
  [.act p (.resolve (.proposed "fix") "lender" token), .act p (.refresh true), .act p (.survey []),
    .act p (.read true), .act p (.look true), .act p (.settle false)]

/-- A process makes its clone, cuts its branch there and records its session. -/
def cutting (p : Bool) (token : String) : List (Label Bool) :=
  [.act p (.place (.run token) (some "main") .fresh), .act p .cut, .act p .record]

theorem proposed_runs : ((opens Bool ["lender"] fun _ => true).run oneCheckout
    (proposing true "1" ++ cutting true "1")).isSome := by
  rfl

/-- The host with one session, cut at the name it proposed. -/
def proposed : World Bool :=
  ((opens Bool ["lender"] fun _ => true).run oneCheckout
    (proposing true "1" ++ cutting true "1")).get proposed_runs

theorem fresh_names_unique_proposed :
    proposed.sessions = [⟨"1", .run "1", "fix", true, .opened⟩] ∧
      proposed.sessions.Pairwise fun a b => a.holds = true → b.holds = true → a.branch ≠ b.branch := by
  have hreach : (opens Bool ["lender"] fun _ => true).ReachableBy
      (fun s label => s.unmissed label = true) proposed :=
    System.reachableBy_of_run ⟨rfl, rfl⟩ (by decide +kernel) (Option.some_get proposed_runs).symm
  exact ⟨by decide +kernel, (fresh_names_unique hreach).1⟩

theorem crossed_runs : ((opens Bool ["lender"] fun _ => true).run oneCheckout
    (proposing true "1" ++ proposing false "2" ++ cutting true "1" ++ cutting false "2")).isSome := by
  rfl

/-- The host once both opens, neither of which met the other's branch, have cut theirs. -/
def crossed : World Bool :=
  ((opens Bool ["lender"] fun _ => true).run oneCheckout
    (proposing true "1" ++ proposing false "2" ++ cutting true "1" ++ cutting false "2")).get
      crossed_runs

/-- Two open sessions hold one name, and each was cut fresh. -/
theorem crossed_not_apart : (opens Bool ["lender"] fun _ => true).Reachable crossed ∧
    crossed.sessions =
      [⟨"2", .run "2", "fix", true, .opened⟩, ⟨"1", .run "1", "fix", true, .opened⟩] :=
  ⟨System.reachable_of_run ⟨rfl, rfl⟩ (Option.some_get crossed_runs).symm, by decide +kernel⟩

end Onevcs.Sessions.FreshNames
