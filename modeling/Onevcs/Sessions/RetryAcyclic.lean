import Onevcs.Foundations.Chains
import Onevcs.Sessions.Retry

/-!
# When retry links stay acyclic

`followable` refuses a link whose chain leads back to the record it is saved on. It reads
the chain holding that record's lock alone, so what it read may have changed when the
link is saved. Where none of the records it followed has gained or changed a link since,
the links stay acyclic, and every chain whose records are there can be followed to its
end.

Two opens that continue one branch can each be the chain the other reads.
-/

set_option linter.unusedSectionVars false

namespace Onevcs.Sessions

open Foundations (Links Acyclic Runs)

variable {τ ι β π : Type} [LinearOrder τ] [DecidableEq ι] [DecidableEq β] [DecidableEq π]

/-- The records of a chain, the last one first, each linked to by the one before it, with
the link out of the last. -/
inductive Follows (start : Option τ) : List (τ × Record τ ι β) → Option τ → Prop
  | nil : Follows start [] start
  | cons {chain : List (τ × Record τ ι β)} {token : τ} (record : Record τ ι β) :
      Follows start chain (some token) → Follows start ((token, record) :: chain) record.retriedBy

/-- The links out of the records of a chain are those it was followed by, or gone. -/
def Undisturbed (next : τ → Option τ) (chain : List (τ × Record τ ι β)) : Prop :=
  ∀ hop ∈ chain, next hop.1 = hop.2.retriedBy ∨ next hop.1 = none

instance (next : τ → Option τ) (chain : List (τ × Record τ ι β)) :
    Decidable (Undisturbed next chain) :=
  inferInstanceAs (Decidable (∀ hop ∈ chain, _))

/-- A chain that was followed to its end, and is undisturbed, is where its start's links
run. -/
theorem Follows.runs {next : τ → Option τ} {start out : Option τ}
    {chain : List (τ × Record τ ι β)} (h : Follows start chain out) {nodes : List τ}
    (hnodes : ∀ hop ∈ chain, hop.1 ∈ nodes) (hstill : Undisturbed next chain)
    (hout : ∀ token, out = some token → ∃ l, Runs next token l ∧ ∀ t ∈ l, t ∈ nodes) :
    ∀ token, start = some token → ∃ l, Runs next token l ∧ ∀ t ∈ l, t ∈ nodes := by
  induction h with
  | nil => exact hout
  | @cons chain token record hprev ih =>
    obtain ⟨hlink, hrest⟩ := List.forall_mem_cons.mp hstill
    obtain ⟨hhere, hbefore⟩ := List.forall_mem_cons.mp hnodes
    refine ih hbefore hrest fun token' htoken => ?_
    obtain rfl := Option.some.inj htoken
    have hends : next token = none → ∃ l, Runs next token l ∧ ∀ t ∈ l, t ∈ nodes :=
      fun hnone => ⟨[token], .last hnone, by simpa using hhere⟩
    rcases hlink with hlink | hnone
    · cases hretried : record.retriedBy with
      | none => exact hends (hlink.trans hretried)
      | some after =>
        obtain ⟨l, hrun, hl⟩ := hout after hretried
        exact ⟨token :: l, .step (hlink.trans hretried) hrun,
          List.forall_mem_cons.mpr ⟨hhere, hl⟩⟩
    · exact hends hnone

/-! ## The invariant -/

/-- A record of the session it is kept under, with a link within the identity. -/
structure Belongs (identityOf : τ → Option ι) (token : τ) (record : Record τ ι β) : Prop where
  own : identityOf token = some record.identity
  link : ∀ next, record.retriedBy = some next → identityOf next = some record.identity

/-- What an update under way has established. -/
def Stage.Sound (identityOf : τ → Option ι) (target : τ) : Stage τ ι β → Prop
  | .locked | .settled => True
  | .changed record => identityOf target = some record.identity
  | .following record chain =>
    Belongs identityOf target record ∧ target ∉ chain.map Prod.fst ∧
      Follows record.retriedBy chain (chain.headD (target, record)).2.retriedBy
  | .followed record chain =>
    Belongs identityOf target record ∧ target ∉ chain.map Prod.fst ∧
      Follows record.retriedBy chain none

/-- What a process has established. -/
def Phase.Sound (identityOf : τ → Option ι) : Phase τ ι β → Prop
  | .updating target _ stage _ => stage.Sound identityOf target
  | _ => True

theorem lookup_cons_of_some {minted : List (τ × ι)} {token t : τ} {identity i : ι}
    (hnew : minted.lookup token = none) (h : minted.lookup t = some i) :
    ((token, identity) :: minted).lookup t = some i := by
  have hne : t ≠ token := by
    rintro rfl
    rw [hnew] at h
    cases h
  rwa [List.lookup_cons, beq_false_of_ne hne]

theorem Belongs.mono {f g : τ → Option ι} {token : τ} {record : Record τ ι β}
    (h : Belongs f token record) (hfg : ∀ t i, f t = some i → g t = some i) :
    Belongs g token record :=
  ⟨hfg _ _ h.own, fun next hnext => hfg _ _ (h.link next hnext)⟩

theorem Phase.Sound.mono {f g : τ → Option ι} {phase : Phase τ ι β} (h : phase.Sound f)
    (hfg : ∀ t i, f t = some i → g t = some i) : phase.Sound g := by
  cases phase with
  | updating target link stage rest =>
    cases stage with
    | changed record => exact hfg _ _ h
    | following record chain => exact ⟨h.1.mono hfg, h.2⟩
    | followed record chain => exact ⟨h.1.mono hfg, h.2⟩
    | locked => trivial
    | settled => trivial
  | _ => trivial

theorem hop_eq_none {load : τ → Option (Record τ ι β)} {first token : τ} {seen : List τ}
    {record : Record τ ι β} (h : hop load first seen token record = .ok none) :
    record.retriedBy = none := by
  unfold hop at h
  split at h
  · assumption
  · split_ifs at h
    split at h
    · cases h
    · split_ifs at h
      cases h

theorem hop_eq_some {load : τ → Option (Record τ ι β)} {first token next : τ} {seen : List τ}
    {record followed : Record τ ι β} (h : hop load first seen token record = .ok (some (next, followed))) :
    record.retriedBy = some next ∧ next ∉ seen ∧ load next = some followed := by
  unfold hop at h
  split at h
  · cases h
  · rename_i link hlink
    split_ifs at h with hseen
    split at h
    · cases h
    · rename_i found hfound
      split_ifs at h
      obtain ⟨rfl, rfl⟩ := Prod.mk.inj (Option.some.inj (Except.ok.inj h))
      exact ⟨hlink, hseen, hfound⟩

namespace World

/-- The links are acyclic, the records belong, and so does what each process holds. -/
structure Invariant (s : World τ ι β π) : Prop where
  acyclic : Acyclic s.next
  belongs : ∀ token record, s.records token = some record →
    Belongs (fun t => s.minted.lookup t) token record
  sound : ∀ p, (s.process p).Sound fun t => s.minted.lookup t

variable {s : World τ ι β π}

theorem next_store (token : τ) (record : Option (Record τ ι β)) :
    (s.store token record).next =
      Function.update s.next token (record.bind Record.retriedBy) := by
  funext t
  by_cases ht : t = token
  · subst ht
    simp [next, store]
  · simp [next, store, Function.update_of_ne ht]

theorem Invariant.goto (h : Invariant s) {p : π} {phase : Phase τ ι β}
    (hphase : phase.Sound fun t => s.minted.lookup t) : Invariant (s.goto p phase) where
  acyclic := h.acyclic
  belongs := h.belongs
  sound q := by
    by_cases hq : q = p
    · subst hq
      simpa [World.goto] using hphase
    · simpa [World.goto, Function.update_of_ne hq] using h.sound q

theorem Invariant.locks (h : Invariant s) (lock : τ → Option π) :
    Invariant { s with lock := lock } := ⟨h.acyclic, h.belongs, h.sound⟩

theorem Invariant.lockFor (h : Invariant s) {s' : World τ ι β π} {p : π} {target : τ}
    {link : Option τ} {rest : Option (τ × List τ)} (hs : s.lockFor p target link rest = some s') :
    Invariant s' := by
  unfold World.lockFor at hs
  split at hs
  · cases hs
  · obtain rfl := Option.some.inj hs
    have hgoto : Invariant (s.goto p (.updating target link .locked rest)) := h.goto trivial
    exact hgoto.locks _

theorem Invariant.store (h : Invariant s) {token : τ} {record : Option (Record τ ι β)}
    (hacyclic : Acyclic (Function.update s.next token (record.bind Record.retriedBy)))
    (hbelongs : ∀ r, record = some r → Belongs (fun t => s.minted.lookup t) token r) :
    Invariant (s.store token record) where
  acyclic := by
    rw [next_store]
    exact hacyclic
  belongs t r hr := by
    by_cases ht : t = token
    · subst ht
      exact hbelongs r (by simpa [World.store] using hr)
    · exact h.belongs t r (by simpa [World.store, Function.update_of_ne ht] using hr)
  sound := h.sound

/-- The save is of a link whose chain is undisturbed. -/
def savesUndisturbed (s : World τ ι β π) : Label τ ι β π → Bool
  | .act p .save =>
    match s.process p with
    | .updating _ _ (.followed _ chain) _ => decide (Undisturbed s.next chain)
    | _ => true
  | _ => true

/-- A record the process is about to save leaves the links acyclic. -/
def SavesAcyclic (s : World τ ι β π) (p : π) : Prop :=
  ∀ target link record chain rest,
    s.process p = .updating target link (.followed record chain) rest →
    Acyclic (Function.update s.next target record.retriedBy)

theorem Invariant.savesAcyclic (h : Invariant s) {p : π}
    (hok : s.savesUndisturbed (.act p .save)) : s.SavesAcyclic p := by
  intro target link record chain rest hp
  have hsound := h.sound p
  rw [hp] at hsound
  obtain ⟨-, havoid, hfollows⟩ := hsound
  have hstill : Undisturbed s.next chain := by simpa [savesUndisturbed, hp] using hok
  cases hlink : record.retriedBy with
  | none => exact h.acyclic.update_none target
  | some next =>
    have hnodes : ∀ hop ∈ chain, hop.1 ∈ chain.map Prod.fst :=
      fun hop hhop => List.mem_map_of_mem hhop
    obtain ⟨l, hrun, hl⟩ := hfollows.runs hnodes hstill (by simp) next hlink
    exact h.acyclic.update_some hrun fun hmem => havoid (hl target hmem)

/-- An update keeps the invariant where what it saves leaves the links acyclic. -/
theorem Invariant.updateStep (h : Invariant s) {s' : World τ ι β π} {p : π} {target : τ}
    {link : Option τ} {rest : Option (τ × List τ)} {stage : Stage τ ι β} {act : Act τ ι β}
    (hp : s.process p = .updating target link stage rest)
    (hok : act = .save → s.SavesAcyclic p) (hs : s.updateStep p target link rest stage act = some s') :
    Invariant s' := by
  have hstage : stage.Sound (fun t => s.minted.lookup t) target := by
    have hsound := h.sound p
    rwa [hp] at hsound
  unfold World.updateStep at hs
  split at hs
  · -- The record is read under its lock, and changed.
    obtain rfl := Option.some.inj hs
    refine h.goto ?_
    cases hrecord : s.records target with
    | none => trivial
    | some record => exact (h.belongs target record hrecord).own
  · -- The session it links to is loaded.
    rename_i record
    obtain rfl := Option.some.inj hs
    refine h.goto ?_
    cases hnext : record.retriedBy with
    | none => exact ⟨⟨hstage, by simp [hnext]⟩, by simp, by rw [hnext]; exact .nil⟩
    | some next =>
      dsimp only
      cases hfollowed : s.records next with
      | none => trivial
      | some followed =>
        dsimp only
        split_ifs with hidentity
        · trivial
        · refine ⟨⟨hstage, fun n hn => ?_⟩, by simp, .nil⟩
          obtain rfl := Option.some.inj (hnext.symm.trans hn)
          rw [← not_not.mp hidentity]
          exact (h.belongs next followed hfollowed).own
  · -- One hop of the chain.
    rename_i record chain
    obtain rfl := Option.some.inj hs
    refine h.goto ?_
    obtain ⟨hbelongs, havoid, hfollows⟩ := hstage
    split
    · trivial
    · rename_i hhop
      rw [hop_eq_none hhop] at hfollows
      exact ⟨hbelongs, havoid, hfollows⟩
    · rename_i followed hhop
      obtain ⟨token, after⟩ := followed
      obtain ⟨hlink, hseen, -⟩ := hop_eq_some hhop
      rw [hlink] at hfollows
      refine ⟨hbelongs, ?_, .cons after hfollows⟩
      simp only [List.mem_cons, not_or] at hseen
      simpa only [List.map_cons, List.mem_cons, not_or] using ⟨Ne.symm hseen.1, havoid⟩
  · -- The record is saved.
    rename_i record chain
    obtain rfl := Option.some.inj hs
    obtain ⟨hbelongs, -, -⟩ := hstage
    refine Invariant.goto (h.store ?_ ?_) trivial
    · exact hok rfl target link record chain rest hp
    · intro r hr
      obtain rfl := Option.some.inj hr
      exact hbelongs
  · -- The lock is let go.
    obtain rfl := Option.some.inj hs
    refine Invariant.locks (h.goto ?_) _
    cases rest <;> trivial
  · cases hs

theorem Invariant.create (h : Invariant s) {token : τ} {identity : ι} {branch : β}
    (hnew : s.minted.lookup token = none) :
    Invariant { s.store token (some ⟨identity, branch, none⟩) with
      minted := (token, identity) :: s.minted } := by
  have hmono : ∀ t i, s.minted.lookup t = some i →
      ((token, identity) :: s.minted).lookup t = some i :=
    fun _ _ ht => lookup_cons_of_some hnew ht
  refine ⟨?_, fun t r hr => ?_, fun q => Phase.Sound.mono (h.sound q) hmono⟩
  · have hnext := next_store (s := s) token (some ⟨identity, branch, none⟩)
    exact hnext ▸ h.acyclic.update_none token
  · by_cases ht : t = token
    · subst ht
      obtain rfl : ⟨identity, branch, none⟩ = r := by simpa [World.store] using hr
      exact ⟨by simp, by simp⟩
    · have hkept : s.records t = some r := by
        simpa [World.store, Function.update_of_ne ht] using hr
      exact (h.belongs t r hkept).mono hmono

theorem Invariant.act (h : Invariant s) {s' : World τ ι β π} {p : π} {act : Act τ ι β}
    (hok : act = .save → s.SavesAcyclic p) (hs : s.act p act = some s') : Invariant s' := by
  unfold World.act at hs
  split at hs
  · -- create
    split_ifs at hs with hused
    obtain rfl := Option.some.inj hs
    simp only [not_or, Bool.not_eq_true, Option.isSome_eq_false_iff, Option.isNone_iff_eq_none]
      at hused
    rename_i token identity branch _
    have hcreate : Invariant { s.store token (some ⟨identity, branch, none⟩) with
        minted := (token, identity) :: s.minted } := h.create hused.1
    exact hcreate.goto (p := p) trivial
  · obtain rfl := Option.some.inj hs
    exact h.goto trivial
  · obtain rfl := Option.some.inj hs
    exact h.goto trivial
  · obtain rfl := Option.some.inj hs
    exact h.goto trivial
  · obtain rfl := Option.some.inj hs
    exact h.goto trivial
  · obtain rfl := Option.some.inj hs
    exact h.goto trivial
  · exact h.lockFor hs
  · exact h.lockFor hs
  · rename_i hp
    exact h.updateStep hp hok hs
  · cases hs

theorem Invariant.step (h : Invariant s) {s' : World τ ι β π} {label : Label τ ι β π}
    (hok : ∀ p, label = .act p .save → s.SavesAcyclic p) (hs : s.step label = some s') :
    Invariant s' := by
  cases label with
  | act p act => exact h.act (fun hact => hok p (hact ▸ rfl)) hs
  | forget token =>
    obtain rfl := Option.some.inj hs
    exact h.store (h.acyclic.update_none token) (by simp)

theorem invariant_initial (h : (opens τ ι β π).Initial s) : Invariant s := by
  obtain ⟨hrecords, -, -, hprocess⟩ := h
  have hnext : s.next = fun _ => none := by
    funext t
    simp [next, hrecords]
  refine ⟨fun a hcycle => ?_, by simp [hrecords], fun p => by rw [hprocess]; trivial⟩
  obtain ⟨b, hlink, -⟩ := Relation.TransGen.head'_iff.mp hcycle
  rw [hnext] at hlink
  cases hlink

theorem invariant_of_reachable
    (h : (opens τ ι β π).ReachableBy (fun s label => s.savesUndisturbed label) s) :
    Invariant s := by
  refine h.invariant (fun _ => invariant_initial) fun s label s' hi hok hs => hi.step ?_ hs
  rintro p rfl
  exact hi.savesAcyclic hok

/-- Every session the chain from a record leads to is there. -/
def MembersExist (s : World τ ι β π) (token : τ) : Prop :=
  ∀ t next, Relation.ReflTransGen (Links s.next) token t → s.next t = some next →
    (s.records next).isSome

/-- Where the links run to an end, `newest` follows them there. -/
theorem Invariant.newestFrom_ok (h : Invariant s) {first token : τ} {l : List τ}
    (hrun : Runs s.next token l) {record : Record τ ι β} (hrecord : s.records token = some record)
    (hexist : s.MembersExist token) {seen : List τ}
    (hseen : ∀ t ∈ seen, Relation.ReflTransGen (Links s.next) t token) :
    ∃ found, ∀ fuel, l.length ≤ fuel →
      newestFrom s.records first fuel seen token record = .ok found := by
  induction hrun generalizing record seen with
  | last hnone =>
    have hretried : record.retriedBy = none := by simpa [next, hrecord] using hnone
    refine ⟨record, fun fuel hfuel => ?_⟩
    obtain ⟨fuel, rfl⟩ := Nat.exists_eq_succ_of_ne_zero (Nat.pos_iff_ne_zero.mp hfuel)
    simp [newestFrom, hop, hretried]
  | @step token after l hsome _ ih =>
    have hretried : record.retriedBy = some after := by simpa [next, hrecord] using hsome
    have hfresh : after ∉ seen := fun hmem => h.acyclic after (.tail' (hseen after hmem) hsome)
    obtain ⟨followed, hfollowed⟩ := Option.isSome_iff_exists.mp (hexist token after .refl hsome)
    have hidentity : followed.identity = record.identity := by
      have hown := (h.belongs after followed hfollowed).own
      have hlink := (h.belongs token record hrecord).link after hretried
      exact Option.some.inj (hown.symm.trans hlink)
    have hseen' : ∀ t ∈ after :: seen, Relation.ReflTransGen (Links s.next) t after :=
      List.forall_mem_cons.mpr ⟨.refl, fun t ht => (hseen t ht).tail hsome⟩
    obtain ⟨found, hfound⟩ := ih hfollowed
      (fun t next hreach => hexist t next (.head hsome hreach)) hseen'
    refine ⟨found, fun fuel hfuel => ?_⟩
    obtain ⟨fuel, rfl⟩ := Nat.exists_eq_succ_of_ne_zero (show fuel ≠ 0 by
      simp only [List.length_cons] at hfuel
      omega)
    have hrest := hfound fuel (by simpa using hfuel)
    simp [newestFrom, hop, hretried, hfresh, hfollowed, hidentity, hrest]

theorem Invariant.newest_ok (h : Invariant s) {token : τ} {record : Record τ ι β}
    (hrecord : s.records token = some record) (hexist : s.MembersExist token) :
    ∃ enough found, ∀ fuel, enough ≤ fuel → newest s.records fuel token record = .ok found := by
  have hdomain : ∀ t, s.next t ≠ none → t ∈ (s.minted.map Prod.fst).toFinset := by
    intro t ht
    cases hknown : s.records t with
    | none => simp [next, hknown] at ht
    | some r =>
      have hown := (h.belongs t r hknown).own
      rw [List.mem_toFinset]
      by_contra hmem
      rw [List.lookup_eq_none_iff.mpr fun pair hpair => by
        simpa using fun heq => hmem (List.mem_map.mpr ⟨pair, hpair, heq.symm⟩)] at hown
      cases hown
  obtain ⟨l, hrun⟩ := h.acyclic.exists_runs _ hdomain token
  exact ⟨l.length, h.newestFrom_ok hrun hrecord hexist (List.forall_mem_singleton.mpr .refl)⟩

end World

/-- In every run whose saves are of links whose chains are undisturbed, the links are
acyclic in every state, and every record whose chain's members exist has a newest. -/
theorem retries_acyclic (s : World τ ι β π)
    (h : (opens τ ι β π).ReachableBy (fun s label => s.savesUndisturbed label) s) :
    Acyclic s.next ∧ ∀ token record, s.records token = some record → s.MembersExist token →
      ∃ enough found, ∀ fuel, enough ≤ fuel →
        newest s.records fuel token record = .ok found :=
  ⟨(World.invariant_of_reachable h).acyclic, fun _ _ hrecord hexist =>
    (World.invariant_of_reachable h).newest_ok hrecord hexist⟩

/-! ## Two opens of one branch -/

/-- A host that has no session yet. -/
def noSessions : World ℕ Unit Unit ℕ := ⟨fun _ => none, [], fun _ => none, fun _ => .idle⟩

theorem noSessions_initial : (opens ℕ Unit Unit ℕ).Initial noSessions := ⟨rfl, rfl, rfl, rfl⟩

/-- A process opens a session of the branch and lists sessions 1 and 2. -/
def opening (p : ℕ) : List (Label ℕ Unit Unit ℕ) :=
  [.act p (.list [1, 2]), .act p .read, .act p .read, .act p .read]

/-- A process follows the chain of the link it is about to save. -/
def checking (p : ℕ) : List (Label ℕ Unit Unit ℕ) :=
  [.act p .take, .act p .load, .act p .check, .act p .hop, .act p .hop]

def saving (p : ℕ) : List (Label ℕ Unit Unit ℕ) := [.act p .save, .act p .release]

/-- Session 2 continues the branch of session 1. -/
def continuing : List (Label ℕ Unit Unit ℕ) :=
  [.act 1 (.create 1 () ()), .act 1 .finish, .act 2 (.create 2 () ())] ++
    opening 2 ++ checking 2 ++ saving 2

theorem continuing_runs : ((opens ℕ Unit Unit ℕ).run noSessions continuing).isSome := by decide

/-- The host once session 2 has continued the branch. -/
def continued : World ℕ Unit Unit ℕ :=
  ((opens ℕ Unit Unit ℕ).run noSessions continuing).get continuing_runs

theorem retries_acyclic_continued :
    Acyclic continued.next ∧
      ∀ token record, continued.records token = some record → continued.MembersExist token →
        ∃ enough found, ∀ fuel, enough ≤ fuel →
          newest continued.records fuel token record = .ok found :=
  retries_acyclic continued (Foundations.System.reachableBy_of_run noSessions_initial
    (by decide) (Option.some_get continuing_runs).symm)

/-- Two opens continue one branch, and each finds the other's fresh record. -/
def crossing : List (Label ℕ Unit Unit ℕ) :=
  [.act 1 (.create 1 () ()), .act 2 (.create 2 () ())] ++
    opening 1 ++ opening 2 ++ checking 1 ++ checking 2 ++ saving 1 ++ saving 2

theorem crossing_runs : ((opens ℕ Unit Unit ℕ).run noSessions crossing).isSome := by decide

/-- The host once both have saved their links. -/
def crossed : World ℕ Unit Unit ℕ :=
  ((opens ℕ Unit Unit ℕ).run noSessions crossing).get crossing_runs

/-- Each chain ended where it was followed, and the links close on each other. -/
theorem crossed_closes : (opens ℕ Unit Unit ℕ).Reachable crossed ∧ ¬ Acyclic crossed.next := by
  refine ⟨Foundations.System.reachable_of_run noSessions_initial
    (Option.some_get crossing_runs).symm, fun h => ?_⟩
  have hthere : crossed.next 1 = some 2 := by decide
  have hback : crossed.next 2 = some 1 := by decide
  exact h 1 (.tail (.single hthere) hback)

end Onevcs.Sessions
