import Mathlib.Data.Fintype.Option
import Onevcs.Retire.Derive
import Onevcs.Retire.JudgeSound

/-!
# What a retirable branch holds

A branch is answered retirable when every copy of it was judged to stand at the base or to
have a proof. The verdict may be one an earlier pass derived and recorded: the key it was
recorded under holds all its derivation read but the host's answers, and those are asked
for again and compared.
-/

set_option linter.unusedSectionVars false

namespace Onevcs.Retire

open Foundations (Text bind_eq_ok)

variable {κ ε : Type} [DecidableEq κ] [DecidableEq ε] (G : Commits κ ε)

/-- The head the host said it merged, where it is a commit. -/
def HostAnswer.heads (answer : HostAnswer) : List κ :=
  (answer.mergedChange.bind fun change => G.objectId change.head).toList

/-- The merge the host reports when it is asked. -/
def Host.mergedChange (host : Host) : Option MergedChange :=
  match host.mergedHead with
  | .ok merged => merged
  | .error _ => none

/-- The heads the host reported merged for the branch's change request: to a run of this
host that recorded the landing, or to this pass. -/
def Pass.reported (pass : Pass κ) : List κ :=
  (evidenceOf pass.records).heads ++
    ((pass.host.bind Host.mergedChange).bind fun change => G.objectId change.head).toList

/-- What the store can hold of a branch after any passes over it. -/
inductive Remembered : Option (Recorded κ) → Prop
  | nothing : Remembered none
  | after {store : Option (Recorded κ)} (pass : Pass κ) (base : String) (baseTip : κ) :
      Remembered store → Remembered (verdict G pass base baseTip store).2

/-- The store holds what some pass derived, under the key of that pass. -/
def Written (store : Option (Recorded κ)) : Prop :=
  ∀ recorded ∈ store, ∃ (earlier : Pass κ) (base : String) (baseTip : κ)
    (replies : Option HostAnswer), recorded.key = earlier.key base baseTip ∧
      recorded.verdict = derive G earlier baseTip replies

variable {G} {pass : Pass κ} {key : Text} {heads heads' : List κ} {tip baseTip : κ}
  {evidence : Evidence κ}

theorem Accounted.mono (h : Accounted G key heads tip baseTip)
    (hheads : ∀ head ∈ heads, head ∈ heads') : Accounted G key heads' tip baseTip := by
  refine h.imp id (Or.imp ?_ id)
  rintro ⟨head, hmem, hcontent⟩
  exact ⟨head, hheads head hmem, hcontent⟩

theorem Misread.not_accounted (h : Misread G key tip baseTip) :
    ¬ Accounted G key [] tip baseTip := by
  obtain ⟨hreached, hlanded, fork, hfork, -, ⟨path, hpath, hdiffers⟩, -⟩ := h
  rintro (hreach | ⟨head, hmem, -⟩ | hland | ⟨hsame, -⟩)
  · exact hreached hreach
  · cases hmem
  · exact hlanded hland
  · refine hdiffers (hsame path ?_)
    simpa [Commits.entryOf, hfork] using mem_diff.mp hpath

theorem judgedAmong_ok {copies : List (Copy κ)} {judged : List (Copy κ × Judged κ)}
    (h : judgedAmong G pass baseTip evidence copies = .ok judged) :
    judged.map Prod.fst = copies ∧ ∀ entry ∈ judged, ∃ view,
      judgeCopy G view pass.landedTrailer entry.1.tip baseTip evidence = .ok entry.2 := by
  induction copies generalizing judged with
  | nil =>
    obtain rfl := Except.ok.inj h
    simp
  | cons copy rest ih =>
    unfold judgedAmong at h
    split at h
    · cases h
    · rename_i repo view hreadable
      split at h
      · cases h
      · rename_i one hone
        cases hlater : judgedAmong G pass baseTip evidence rest with
        | error cause =>
          rw [hlater] at h
          cases h
        | ok later =>
          rw [hlater] at h
          obtain rfl := Except.ok.inj h
          obtain ⟨hcopies, hall⟩ := ih hlater
          refine ⟨by simp [hcopies], fun entry hmem => ?_⟩
          rcases List.mem_cons.mp hmem with rfl | hmem
          · exact ⟨view, hone⟩
          · exact hall entry hmem

theorem accounted_of_judged {copies : List (Copy κ × Judged κ)}
    (h : judged G pass baseTip evidence = .ok copies)
    (hall : ∀ entry ∈ copies, entry.2.uncovered = false) :
    ∀ copy ∈ pass.copies.copies,
      Accounted G pass.landedTrailer evidence.heads copy.tip baseTip ∨
        Misread G pass.landedTrailer copy.tip baseTip := by
  obtain ⟨hcopies, hjudged⟩ := judgedAmong_ok h
  intro copy hmem
  rw [← hcopies] at hmem
  obtain ⟨entry, hentry, rfl⟩ := List.mem_map.mp hmem
  obtain ⟨view, hview⟩ := hjudged entry hentry
  apply judgeCopy_accounted hview
  have hcovered := hall entry hentry
  unfold Judged.uncovered at hcovered
  cases hbase : entry.2.atBase with
  | true => exact Or.inl rfl
  | false => exact Or.inr (by simpa [hbase, Option.isSome_iff_ne_none] using hcovered)

theorem conclude_retirable {copies : List (Copy κ × Judged κ)} {concluded : Retirement κ}
    (h : conclude pass baseTip copies = .ok concluded)
    (hclass : concluded.retirementClass = .retirable) :
    ∀ entry ∈ copies, entry.2.uncovered = false := by
  unfold conclude at h
  cases hfind : copies.find? fun entry => entry.2.uncovered with
  | none =>
    intro entry hmem
    simpa using List.find?_eq_none.mp hfind entry hmem
  | some found =>
    simp only [hfind] at h
    split at h
    · cases h
    · obtain rfl := Except.ok.inj h
      simp [Retirement.kept] at hclass
    · obtain rfl := Except.ok.inj h
      simp at hclass

/-- A consultation hears of no merge and leaves the evidence alone, or hears of one and
takes up its head. -/
theorem consult_cases (evidence : Evidence κ) (replies : Option HostAnswer) :
    ((consult G pass evidence replies).heard.mergedChange = none ∧
      (consult G pass evidence replies).evidence = evidence) ∨
    ∃ host opened change, pass.host = some host ∧
      askMerged host replies = .answered (some change) ∧
      (consult G pass evidence replies).heard.mergedChange = some change ∧
      (consult G pass evidence replies).evidence =
        match G.objectId change.head with
        | some head => { evidence with merged := some ⟨opened, head⟩, changed := true }
        | none => evidence := by
  cases hhost : pass.host with
  | none => exact Or.inl (by simp [consult, hhost, HostAnswer.mergedChange, HostAnswer.notAsked])
  | some host =>
    cases hopened : pass.records.opened with
    | none =>
      exact Or.inl (by
        simp [consult, hhost, hopened, HostAnswer.mergedChange, HostAnswer.notAsked])
    | some opened =>
      rcases hid : opened.id with - | id
      · exact Or.inl (by
          simp [consult, hhost, hopened, hid, HostAnswer.mergedChange, HostAnswer.notAsked])
      · rcases hbase : opened.base with - | base
        · exact Or.inl (by
            simp [consult, hhost, hopened, hid, hbase, HostAnswer.mergedChange,
              HostAnswer.notAsked])
        · cases hrepo : host.forRepo with
          | error failure =>
            exact Or.inl (by
              simp [consult, hhost, hopened, hid, hbase, hrepo, HostAnswer.mergedChange,
                HostAnswer.notAsked])
          | ok asked =>
            cases hmerged : askMerged host replies with
            | notAsked =>
              exact Or.inl (by
                simp [consult, hhost, hopened, hid, hbase, hrepo, hmerged,
                  HostAnswer.mergedChange])
            | failed =>
              exact Or.inl (by
                simp [consult, hhost, hopened, hid, hbase, hrepo, hmerged,
                  HostAnswer.mergedChange])
            | answered merged =>
              cases merged with
              | none =>
                exact Or.inl (by
                  simp [consult, hhost, hopened, hid, hbase, hrepo, hmerged,
                    HostAnswer.mergedChange])
              | some change =>
                refine Or.inr ⟨host, opened.url, change, rfl, hmerged, ?_, ?_⟩
                · simp [consult, hhost, hopened, hid, hbase, hrepo, hmerged,
                    HostAnswer.mergedChange]
                · cases hobject : G.objectId change.head <;>
                    simp [consult, hhost, hopened, hid, hbase, hrepo, hmerged, hobject]

/-- What is known after a consultation: what was known before, or the merge just heard of. -/
theorem consult_heads (evidence : Evidence κ) (replies : Option HostAnswer) :
    ∀ head ∈ (consult G pass evidence replies).evidence.heads,
      head ∈ evidence.heads ++ (consult G pass evidence replies).heard.heads G := by
  intro head hmem
  rcases consult_cases (G := G) evidence replies with ⟨-, hsame⟩ | ⟨host, opened, change, -, -, hheard, heq⟩
  · rw [hsame] at hmem
    exact List.mem_append_left _ hmem
  · rw [heq] at hmem
    cases hid : G.objectId change.head with
    | none =>
      rw [hid] at hmem
      exact List.mem_append_left _ hmem
    | some found =>
      rw [hid] at hmem
      apply List.mem_append_right
      simpa [Evidence.heads, HostAnswer.heads, hheard, hid] using hmem

theorem consult_heard (evidence : Evidence κ) (replies : Option HostAnswer)
    {change : MergedChange}
    (h : (consult G pass evidence replies).heard.mergedChange = some change) :
    replies.bind HostAnswer.mergedChange = some change ∨
      pass.host.bind Host.mergedChange = some change := by
  rcases consult_cases (G := G) evidence replies with
    ⟨hnone, -⟩ | ⟨host, -, heard, hhost, hasked, hheard, -⟩
  · rw [hnone] at h
    cases h
  · obtain rfl := Option.some.inj (hheard.symm.trans h)
    unfold askMerged at hasked
    split at hasked
    · obtain rfl := Reply.answered.inj hasked
      exact Or.inl rfl
    · refine Or.inr ?_
      rw [hhost]
      cases hreports : host.mergedHead with
      | error failure =>
        rw [hreports] at hasked
        cases hasked
      | ok merged =>
        rw [hreports] at hasked
        obtain rfl := Reply.answered.inj hasked
        simp [Host.mergedChange, hreports]

/-! ## Verdicts -/

theorem openChange_heads (copies : List (Copy κ × Judged κ)) (replies : Option HostAnswer) :
    ∀ head ∈ (openChange G pass evidence copies replies).2.evidence.heads,
      head ∈ evidence.heads ++ (openChange G pass evidence copies replies).2.heard.heads G := by
  unfold openChange
  split
  · exact fun head hmem => List.mem_append_left _ hmem
  · exact consult_heads evidence replies

theorem openChange_heard (copies : List (Copy κ × Judged κ)) (replies : Option HostAnswer)
    {change : MergedChange}
    (h : (openChange G pass evidence copies replies).2.heard.mergedChange = some change) :
    (openChange G pass evidence copies replies).1 = true ∧
      (replies.bind HostAnswer.mergedChange = some change ∨
        pass.host.bind Host.mergedChange = some change) := by
  unfold openChange at h ⊢
  split
  · rename_i hsettled
    rw [if_pos hsettled] at h
    cases h
  · rename_i hopen
    rw [if_neg hopen] at h
    exact ⟨rfl, consult_heard evidence replies h⟩

/-- A derivation that hears of a merge consulted the host, which reports it or did before. -/
theorem derive_heard (replies : Option HostAnswer) {change : MergedChange}
    (h : (derive G pass baseTip replies).host.mergedChange = some change) :
    (derive G pass baseTip replies).consulted = true ∧
      (replies.bind HostAnswer.mergedChange = some change ∨
        pass.host.bind Host.mergedChange = some change) := by
  unfold derive at h ⊢
  cases hjudged : judged G pass baseTip (evidenceOf pass.records) with
  | error cause =>
    simp only [hjudged] at h
    cases h
  | ok copies =>
    simp only [hjudged] at h ⊢
    by_cases hbase : (copies.all fun entry => entry.2.atBase) = true
    · rw [if_pos hbase] at h
      cases h
    · rw [if_neg hbase] at h ⊢
      have hheard : ∀ verdict : Verdict κ,
          verdict.host = (openChange G pass (evidenceOf pass.records) copies replies).2.heard →
          verdict.consulted = (openChange G pass (evidenceOf pass.records) copies replies).1 →
          verdict.host.mergedChange = some change →
          verdict.consulted = true ∧ (replies.bind HostAnswer.mergedChange = some change ∨
            pass.host.bind Host.mergedChange = some change) := by
        intro verdict hhost hconsulted hchange
        rw [hhost] at hchange
        obtain ⟨htrue, hreported⟩ := openChange_heard copies replies hchange
        exact ⟨hconsulted.trans htrue, hreported⟩
      split at h
      · exact hheard _ rfl rfl h
      · exact hheard _ rfl rfl h
      · split at h
        · exact hheard _ rfl rfl h
        · exact hheard _ rfl rfl h

/-- Where a derivation answers retirable, every copy is accounted for under the heads the
records hold and the host was heard to report, or misread. -/
theorem derive_retirable (replies : Option HostAnswer)
    (h : (derive G pass baseTip replies).retirement.retirementClass = .retirable) :
    ∀ copy ∈ pass.copies.copies,
      Accounted G pass.landedTrailer ((evidenceOf pass.records).heads ++
        (derive G pass baseTip replies).host.heads G) copy.tip baseTip ∨
        Misread G pass.landedTrailer copy.tip baseTip := by
  unfold derive at h ⊢
  cases hjudged : judged G pass baseTip (evidenceOf pass.records) with
  | error cause =>
    simp only [hjudged] at h
    cases h
  | ok copies =>
    simp only [hjudged] at h ⊢
    by_cases hbase : (copies.all fun entry => entry.2.atBase) = true
    · rw [if_pos hbase] at h
      cases h
    · rw [if_neg hbase] at h ⊢
      have hheads : ∀ head ∈ (openChange G pass (evidenceOf pass.records) copies
          replies).2.evidence.heads, head ∈ (evidenceOf pass.records).heads ++
            (openChange G pass (evidenceOf pass.records) copies replies).2.heard.heads G :=
        openChange_heads copies replies
      cases hchange : openChange G pass (evidenceOf pass.records) copies replies with
      | mk consulted consultation =>
        rw [hchange] at hheads h
        simp only at h ⊢
        rcases hdecides : consultation.decides with cause | - | reason
        · simp only [hdecides] at h
          cases h
        · simp only [hdecides] at h ⊢
          cases hresult : (if consultation.evidence.changed then
              judged G pass baseTip consultation.evidence else Except.ok copies).bind
              (conclude pass baseTip) with
          | error cause =>
            rw [hresult] at h
            cases h
          | ok concluded =>
            rw [hresult] at h
            -- the copies the conclusion was drawn from
            obtain ⟨final, hfinal, hconclude⟩ := bind_eq_ok.mp hresult
            have huncovered := conclude_retirable hconclude h
            intro copy hmem
            by_cases hchanged : consultation.evidence.changed = true
            · rw [if_pos hchanged] at hfinal
              apply (accounted_of_judged hfinal huncovered copy hmem).imp_left
              exact fun haccounted => haccounted.mono hheads
            · rw [if_neg hchanged] at hfinal
              obtain rfl := Except.ok.inj hfinal
              apply (accounted_of_judged hjudged huncovered copy hmem).imp_left
              exact fun haccounted => haccounted.mono fun head hmem =>
                List.mem_append_left _ hmem
        · simp only [hdecides] at h
          cases h

theorem key_eq {earlier : Pass κ} {base base' : String} {baseTip' : κ}
    (h : earlier.key base' baseTip' = pass.key base baseTip) :
    baseTip' = baseTip ∧ earlier.records = pass.records ∧
      earlier.landedTrailer = pass.landedTrailer ∧
      earlier.copies.copies.map Copy.tip = pass.copies.copies.map Copy.tip := by
  simp only [Pass.key, Key.mk.injEq] at h
  obtain ⟨-, -, -, htip, hcopies, -, hrecords, -, htrailer, -⟩ := h
  have htips := congrArg (List.map Prod.snd) hcopies
  simp only [List.map_map] at htips
  exact ⟨htip, hrecords, htrailer, htips⟩

/-- A pass reuses what the store holds under its own key, and only where the host, if it
was consulted, still reports the merge it reported. -/
theorem reuse_recorded {base : String} {store : Option (Recorded κ)} {found : Verdict κ}
    (h : reuse G pass base baseTip store = .inl found) :
    ∃ recorded ∈ store, recorded.verdict = found ∧ recorded.key = pass.key base baseTip ∧
      ∀ change, found.host.mergedChange = some change → found.consulted = true →
        pass.host.bind Host.mergedChange = some change := by
  unfold reuse at h
  cases store with
  | none => cases h
  | some recorded =>
    simp only at h
    split at h
    · rename_i hkey
      simp only [Bool.and_eq_true, decide_eq_true_eq] at hkey
      split at h
      · rename_i hconsulted
        obtain rfl := Sum.inl.inj h
        refine ⟨recorded, rfl, rfl, hkey.1.2, fun change _ htrue => ?_⟩
        simp [htrue] at hconsulted
      · split at h
        · rename_i hsame
          obtain rfl := Sum.inl.inj h
          refine ⟨recorded, rfl, rfl, hkey.1.2, fun change hchange _ => ?_⟩
          simp only [HostAnswer.sameAs, Bool.and_eq_true, decide_eq_true_eq] at hsame
          have hheard : Option.bind none HostAnswer.mergedChange = some change ∨
              pass.host.bind Host.mergedChange = some change :=
            consult_heard (evidenceOf pass.records) none (hsame.2.1.trans hchange)
          simpa using hheard
        · cases h
    · cases h

theorem reuse_replies {base : String} {store : Option (Recorded κ)}
    {replies : Option HostAnswer} (h : reuse G pass base baseTip store = .inr replies)
    {change : MergedChange} (hchange : replies.bind HostAnswer.mergedChange = some change) :
    pass.host.bind Host.mergedChange = some change := by
  have hnone : ∀ {found : Verdict κ ⊕ Option HostAnswer}, found = .inr none →
      found = .inr replies → False := by
    intro found hfound hreplies
    obtain rfl := Sum.inr.inj (hfound.symm.trans hreplies)
    cases hchange
  unfold reuse at h
  cases store with
  | none => exact (hnone rfl h).elim
  | some recorded =>
    simp only at h
    split at h
    · split at h
      · cases h
      · split at h
        · cases h
        · obtain rfl := Sum.inr.inj h
          have hheard : Option.bind none HostAnswer.mergedChange = some change ∨
              pass.host.bind Host.mergedChange = some change :=
            consult_heard (evidenceOf pass.records) none hchange
          simpa using hheard
    · exact (hnone rfl h).elim

theorem verdict_written {base : String} {store : Option (Recorded κ)} (h : Written G store) :
    Written G (verdict G pass base baseTip store).2 := by
  unfold verdict
  split
  · exact h
  · rename_i replies _
    dsimp only
    split
    · intro recorded hmem
      obtain rfl := Option.mem_some.mp hmem
      exact ⟨pass, base, baseTip, replies, rfl, rfl⟩
    · exact h

theorem Remembered.written {store : Option (Recorded κ)} (h : Remembered G store) :
    Written G store := by
  induction h with
  | nothing => exact fun recorded hmem => by cases hmem
  | after pass base baseTip _ ih => exact verdict_written ih

/-- Where a pass answers retirable, from the store or not, every copy is accounted for
under the heads reported now, or misread. -/
theorem verdict_retirable {base : String} {store : Option (Recorded κ)} (hstore : Written G store)
    (h : (verdict G pass base baseTip store).1.retirement.retirementClass = .retirable) :
    ∀ copy ∈ pass.copies.copies,
      Accounted G pass.landedTrailer (pass.reported G) copy.tip baseTip ∨
        Misread G pass.landedTrailer copy.tip baseTip := by
  unfold verdict at h
  cases hreuse : reuse G pass base baseTip store with
  | inl found =>
    rw [hreuse] at h
    obtain ⟨recorded, hmem, rfl, hkey, hreported⟩ := reuse_recorded hreuse
    obtain ⟨earlier, base', baseTip', replies, hearlier, hverdict⟩ := hstore recorded hmem
    obtain ⟨rfl, hrecords, htrailer, htips⟩ := key_eq (hearlier.symm.trans hkey)
    rw [hverdict] at h hreported
    intro copy hcopy
    -- the copy stands where one of the earlier pass stood
    have htip : copy.tip ∈ earlier.copies.copies.map Copy.tip := by
      rw [htips]
      exact List.mem_map_of_mem hcopy
    obtain ⟨before, hbefore, hsame⟩ := List.mem_map.mp htip
    have hfound := derive_retirable replies h before hbefore
    rw [hsame, htrailer, hrecords] at hfound
    apply hfound.imp_left
    refine fun haccounted => haccounted.mono fun head hhead => ?_
    rcases List.mem_append.mp hhead with hhead | hhead
    · exact List.mem_append_left _ hhead
    · apply List.mem_append_right
      cases hchange : (derive G earlier baseTip' replies).host.mergedChange with
      | none => simp [HostAnswer.heads, hchange] at hhead
      | some change =>
        rw [hreported change hchange (derive_heard replies hchange).1]
        simpa [HostAnswer.heads, hchange] using hhead
  | inr replies =>
    rw [hreuse] at h
    intro copy hcopy
    apply (derive_retirable replies h copy hcopy).imp_left
    refine fun haccounted => haccounted.mono fun head hhead => ?_
    rcases List.mem_append.mp hhead with hhead | hhead
    · exact List.mem_append_left _ hhead
    · apply List.mem_append_right
      cases hchange : (derive G pass baseTip replies).host.mergedChange with
      | none => simp [HostAnswer.heads, hchange] at hhead
      | some change =>
        have hhost : pass.host.bind Host.mergedChange = some change :=
          (derive_heard replies hchange).2.elim (reuse_replies hreuse) id
        rw [hhost]
        simpa [HostAnswer.heads, hchange] using hhead

/-- A pass over a branch that one checkout holds, on a host that records nothing of it and
has no change requests. -/
def Pass.alone (key : Text) (tip baseTip : κ) : Pass κ where
  census := ⟨"repository", "/repo", some "main", some baseTip, none, none, [⟨.checkout, "/repo"⟩], []⟩
  branch := "feature"
  copies := ⟨[⟨.place 0, tip⟩], []⟩
  records := ⟨none, none, none⟩
  session := none
  landedTrailer := key
  host := none
  readable := fun _ => some ("/repo", View.whole)
  superseded := fun _ => .ok none
  remembers := false
  whole := false

/-- Nothing is read fresh that keeps the branch. -/
def FreshReads.quiet : FreshReads := ⟨.ok none, false, .ok none⟩

/-- A copy judged to have changed nothing the base lacks makes its branch retirable. -/
theorem alone_retirable {fork : Option κ} {free : List κ}
    (h : judgeCopy G View.whole key tip baseTip Evidence.none =
      .ok ⟨false, fork, free, [], some (.contentIdentical baseTip)⟩) :
    (classifyPass G (Pass.alone key tip baseTip) FreshReads.quiet none).retirementClass =
      .retirable := by
  have hjudged : judged G (Pass.alone key tip baseTip) baseTip
      (evidenceOf (Pass.alone key tip baseTip).records) =
        .ok [(⟨.place 0, tip⟩, ⟨false, fork, free, [], some (.contentIdentical baseTip)⟩)] := by
    have hone : judgeCopy G View.whole key tip baseTip
        (evidenceOf (Pass.alone key tip baseTip).records) =
          .ok ⟨false, fork, free, [], some (.contentIdentical baseTip)⟩ := h
    simp only [judged, Pass.alone, judgedAmong]
    simp only [Pass.alone] at hone
    rw [hone]
    rfl
  have hderived : (derive G (Pass.alone key tip baseTip) baseTip none).retirement.retirementClass =
      .retirable := by
    unfold derive
    simp only [hjudged]
    rfl
  have hclassified : classifyPass G (Pass.alone key tip baseTip) FreshReads.quiet none =
      (derive G (Pass.alone key tip baseTip) baseTip none).retirement := by
    have hbranch : ¬ ("feature" : String) = "main" := by decide
    simp only [classifyPass, Pass.alone, classify, FreshReads.quiet, if_neg hbranch, verdict, reuse,
      List.head?_nil, Bool.false_eq_true, if_false]
    split <;> rfl
  rw [hclassified, hderived]

variable (G)

/-- Whatever a host recorded, remembers or reports, a retirable branch whose copy is at a
tip holds nothing there beyond its base, exactly where the tip is not misread. -/
theorem retirable_accounted (key : Text) (tip baseTip : κ) :
    (∀ (pass : Pass κ) (fresh : FreshReads) (store : Option (Recorded κ)), Remembered G store →
      pass.landedTrailer = key → pass.census.baseTip = some baseTip →
      (classifyPass G pass fresh store).retirementClass = .retirable →
      ∀ copy ∈ pass.copies.copies, copy.tip = tip →
        Accounted G key (pass.reported G) tip baseTip) ↔
      ¬ Misread G key tip baseTip := by
  constructor
  · intro hall hmisread
    obtain ⟨fork, free, hjudged⟩ := judgeCopy_misread hmisread
    have haccounted := hall (Pass.alone key tip baseTip) FreshReads.quiet none .nothing rfl rfl
      (alone_retirable hjudged) ⟨.place 0, tip⟩ (List.mem_singleton_self _) rfl
    exact hmisread.not_accounted haccounted
  · rintro hread pass fresh store hstore rfl htip hclass copy hmem rfl
    have hclassified : (classifyPass G pass fresh store).retirementClass ≠ .keep := by
      rw [hclass]
      decide
    unfold classifyPass at hclass hclassified
    cases hbase : pass.census.base with
    | none =>
      simp only [hbase, htip] at hclassified
      exact absurd (congrArg Retirement.retirementClass (classify_eq_verdict hclassified))
        hclassified
    | some base =>
      simp only [hbase, htip] at hclass hclassified
      rw [classify_eq_verdict hclassified] at hclass
      exact (verdict_retirable hstore.written hclass copy hmem).resolve_right hread

/-- A fork point, a branch that changed the file `a`, and a base that put a directory in
its place, holding a name that is not text. -/
def replaced : Commits (Option Bool) Nat where
  history := {
    parents := fun commit => if commit = none then [] else [none]
    generation := fun commit => if commit = none then 0 else 1
    older := by decide
  }
  tree := fun commit =>
    match commit with
    | none => [([.text "a"], 0)]
    | some false => [([.text "a"], 1)]
    | some true => [([.text "a", .raw [255]], 2)]
  message := fun _ => none
  objectId := fun _ => none
  spell := fun _ => ""

theorem replaced_misread : Misread replaced [] (some false) (some true) := by
  refine ⟨by decide, ?_, none, by decide, by decide, ⟨[.text "a"], by decide, by decide⟩,
    [.text "a"], by decide, [.text "a", .raw [255]], by decide, by decide, by decide⟩
  rintro ⟨landing, message, point, -, hmessage, -⟩
  cases hmessage

/-- The branch is retirable, and its file is nowhere on the base. -/
theorem replaced_retirable :
    (classifyPass replaced (Pass.alone [] (some false) (some true)) FreshReads.quiet none).retirementClass =
      .retirable ∧
      ¬ Accounted replaced [] ((Pass.alone [] (some false) (some true)).reported replaced) (some false) (some true) := by
  obtain ⟨fork, free, hjudged⟩ := judgeCopy_misread replaced_misread
  exact ⟨alone_retirable hjudged, replaced_misread.not_accounted⟩

end Onevcs.Retire
