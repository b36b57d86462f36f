import Onevcs.Boundary.Visibility

/-!
# What an unscreened write rests on

A record made by a rule outlives the rule, and the two ways a write reads the record do
not ask where it came from. In every history the writes rest on rules in force and on
hosts' answers exactly when none of them reads a record that a rule made and no rule
declares any more.
-/

namespace Onevcs.Boundary

namespace World

/-- A rule in force declares the repository not public. -/
def declaresNotPublic (w : World) (key : String) : Bool :=
  match w.declared key with
  | .ok (some declared) => declared.effective != .isPublic
  | _ => false

/-- The last answer of the repository's host said it was not public. -/
def hostSaidNotPublic (w : World) (key : String) : Bool :=
  (w.hostSaid key).any fun visibility => visibility.effective != .isPublic

/-- No rule in force declares the repository's visibility. -/
def undeclared (w : World) (key : String) : Bool :=
  match w.declared key with
  | .ok none => true
  | _ => false

/-- The record of the repository, and no rule, answers what a write to it is owed. -/
def decidedByRecord (w : World) (write : Write) : Bool :=
  write.asked != .fresh && w.undeclared write.key &&
    match w.screensWritesAsRecorded write.key with
    | .ok recorded => recorded.isSome
    | .error _ => false

/-- Where the record of the repository came from. -/
def observation (w : World) (key : String) : Observation :=
  ((w.registry.identities key).map Identity.observation).getD .unknown

/-- A write goes unscreened only on a rule in force or the host's last answer, and what
answers as the host's record is one. -/
structure Lawful (w : World) (write : Write) : Prop where
  rests : w.hosted write.key → (w.write write).1 = .ok .unscreened →
    w.declaresNotPublic write.key ∨ (w.write write).2.hostSaidNotPublic write.key
  fromHost : w.decidedByRecord write → w.observation write.key = .host

/-- The write does not read a record that a rule made and no rule declares any more. -/
def NoStaleOverride (w : World) (write : Write) : Prop :=
  write.asked ≠ .fresh → w.undeclared write.key → w.observation write.key ≠ .override

/-- What the records of a history are: a host's is the last it said, and a rule's is
known. -/
def Recorded (w : World) : Prop :=
  ∀ key identity, w.registry.identities key = some identity →
    (identity.observation = .host → w.hostSaid key = some identity.visibility) ∧
      (identity.observation = .override → identity.visibility ≠ .unknown)

/-! ## What the records hold -/

variable {w : World}

theorem declared_ne_unknown {key : String} {declared : Visibility}
    (h : w.declared key = .ok (some declared)) : declared ≠ .unknown := by
  unfold World.declared at h
  split at h
  · cases h
  · obtain ⟨value, -, hvalue⟩ := Option.map_eq_some_iff.mp (Except.ok.inj h)
    cases value <;> simp [← hvalue, Visibility.ofDeclared]

theorem record_identity (key other : String) (visibility : Visibility) (observation : Observation)
    (now : String) {identity : Identity}
    (h : (w.record key visibility observation now).registry.identities other = some identity) :
    (other = key ∧ identity.visibility = visibility ∧ identity.observation = observation) ∨
      (other ≠ key ∧ w.registry.identities other = some identity) := by
  by_cases hkey : other = key
  · subst hkey
    refine .inl ⟨rfl, ?_⟩
    unfold World.record at h
    split at h
    · simp_all
    · simp only [Function.update_self, Option.some.injEq] at h
      subst h
      exact ⟨rfl, rfl⟩
  · refine .inr ⟨hkey, ?_⟩
    unfold World.record at h
    split at h
    · exact h
    · simpa only [Function.update_of_ne hkey] using h

@[simp] theorem record_hostSaid (key : String) (visibility : Visibility)
    (observation : Observation) (now : String) :
    (w.record key visibility observation now).hostSaid = w.hostSaid := by
  unfold World.record
  split <;> rfl

theorem Recorded.record {key : String} {visibility : Visibility} {observation : Observation}
    {now : String} (hr : Recorded w) (hhost : observation ≠ .host)
    (hoverride : observation = .override → visibility ≠ .unknown) :
    Recorded (w.record key visibility observation now) := by
  intro other identity hidentity
  rcases record_identity _ _ _ _ _ hidentity with ⟨rfl, rfl, rfl⟩ | ⟨-, hkept⟩
  · exact ⟨fun h => absurd h hhost, hoverride⟩
  · rw [record_hostSaid]
    exact hr other identity hkept

theorem Recorded.answered {key : String} {visibility : Visibility} {now : String}
    (hr : Recorded w) :
    Recorded ((w.record key visibility .host now).answerFrom key visibility) := by
  intro other identity hidentity
  rcases record_identity _ _ _ _ _ hidentity with ⟨rfl, rfl, hhost⟩ | ⟨hkey, hkept⟩
  · refine ⟨fun _ => Function.update_self .., fun hoverride => ?_⟩
    rw [hhost] at hoverride
    cases hoverride
  · have hsaid : ((w.record key visibility .host now).answerFrom key visibility).hostSaid other =
        w.hostSaid other := by
      simp [answerFrom, Function.update_of_ne hkey]
    rw [hsaid]
    exact hr other identity hkept

theorem Recorded.refreshed (hr : Recorded w) (key : String) (reply : Reply) (now : String) :
    Recorded (w.refreshed key reply now).2 := by
  unfold World.refreshed
  split
  · exact hr
  · rename_i declared hdeclared
    exact hr.record (by simp) fun _ => declared_ne_unknown hdeclared
  · split
    · exact hr
    · rcases reply with ⟨_ | _ | _⟩ | _ | _
      · exact hr.answered
      · exact hr.answered
      all_goals
        first
          | exact hr
          | dsimp only
            split
            · exact hr
            · exact hr.record (by simp) (by simp)

theorem screening_after (key : String) (reply : Reply) (now : String) :
    (w.screening key reply now).2 = (w.refreshed key reply now).2 := by
  unfold World.screening
  split <;> simp_all

theorem Recorded.write (hr : Recorded w) (write : Write) : Recorded (w.write write).2 := by
  have hscreening := screening_after (w := w) write.key write.reply write.now ▸
    hr.refreshed write.key write.reply write.now
  unfold World.write
  cases write.asked with
  | fresh => exact hscreening
  | unasked => exact hr
  | unlessRecorded =>
    dsimp only
    unfold World.screeningUnlessRecorded
    split
    · exact hr
    · exact hr
    · exact hscreening

theorem Recorded.after (hr : Recorded w) (step : Step) : Recorded (w.after step) := by
  cases step with
  | register key =>
    intro other identity hidentity
    by_cases hkey : other = key
    · subst hkey
      simp only [World.after, Function.update_self] at hidentity
      cases hknown : w.registry.identities other with
      | none =>
        obtain rfl : Identity.unobserved = identity := by simpa [hknown] using hidentity
        simp [Identity.unobserved]
      | some known =>
        obtain rfl : known = identity := by simpa [hknown] using hidentity
        exact hr other known hknown
    · simp only [World.after, Function.update_of_ne hkey] at hidentity
      exact hr other identity hidentity
  | refresh key reply now => exact hr.refreshed key reply now
  | write write => exact hr.write write
  | checkouts _ => exact hr
  | referTo _ => exact hr
  | editRules _ _ => exact hr
  | relink _ => exact hr

theorem declaresNotPublic_of_declared {key : String} {declared : Visibility}
    (h : w.declared key = .ok (some declared)) (hne : declared.effective ≠ .isPublic) :
    w.declaresNotPublic key := by
  simp [declaresNotPublic, h, hne]

theorem undeclared_iff {key : String} : w.undeclared key ↔ w.declared key = .ok none := by
  unfold undeclared
  split <;> simp_all

/-- A probe lets a hosted write through on a rule's word or the host's. -/
theorem screening_rests {key : String} {reply : Reply} {now : String} (hhosted : w.hosted key)
    (h : (w.screening key reply now).1 = .ok .unscreened) :
    w.declaresNotPublic key ∨ (w.screening key reply now).2.hostSaidNotPublic key := by
  rw [screening_after]
  unfold World.screening at h
  unfold World.refreshed at h ⊢
  split at h
  · cases h
  · cases h
  · -- A rule or the host answered.
    rename_i visibility after hrefreshed
    have heffective : visibility.effective ≠ .isPublic := by
      intro hpublic
      simp [hpublic] at h
    split at hrefreshed
    · cases hrefreshed
    · rename_i declared hdeclared
      obtain ⟨hvisibility, -⟩ := Prod.mk.inj hrefreshed
      obtain rfl : declared = visibility := by simpa using hvisibility
      exact .inl (declaresNotPublic_of_declared hdeclared heffective)
    · refine .inr ?_
      split at hrefreshed
      · simp at hrefreshed
      · rename_i hslug
        rcases reply with ⟨_ | _ | _⟩ | _ | _
        · obtain ⟨hvisibility, -⟩ := Prod.mk.inj hrefreshed
          obtain rfl : .isPublic = visibility := by simpa using hvisibility
          exact absurd rfl heffective
        · simp [hslug, hostSaidNotPublic, answerFrom, Visibility.effective]
        all_goals simp at hrefreshed
  · -- Nothing confirmed it, and a hosted write is screened.
    simp [hhosted] at h

theorem screensWritesAsRecorded_of_undeclared {key : String} (h : w.undeclared key) :
    w.screensWritesAsRecorded key =
      match w.registry.identities key with
      | some identity =>
        if identity.observation ≠ .unknown ∧ identity.visibility ≠ .unknown then
          .ok (some (identity.visibility.effective = .isPublic))
        else .ok none
      | none => .ok none := by
  have hrule := undeclared_iff.mp h
  cases hfound : w.registry.identities key with
  | none => simp only [World.screensWritesAsRecorded, hrule, hfound]
  | some identity => simp only [World.screensWritesAsRecorded, hrule, hfound]

theorem recorded_rests (hr : Recorded w) {key : String}
    (hfresh : w.undeclared key → w.observation key ≠ .override)
    (h : w.screensWritesAsRecorded key = .ok (some false)) :
    w.declaresNotPublic key ∨ w.hostSaidNotPublic key := by
  by_cases hundeclared : w.undeclared key
  · refine .inr ?_
    rw [screensWritesAsRecorded_of_undeclared hundeclared] at h
    have hoverride := hfresh hundeclared
    unfold observation at hoverride
    cases hidentity : w.registry.identities key with
    | none => simp [hidentity] at h
    | some identity =>
      simp only [hidentity] at h hoverride
      split at h
      · rename_i hknown
        have hhost : identity.observation = .host := by
          cases hobserved : identity.observation <;> simp_all
        have hsaid := (hr key identity hidentity).1 hhost
        simpa [hostSaidNotPublic, hsaid] using h
      · cases h
  · unfold World.screensWritesAsRecorded at h
    rw [undeclared_iff] at hundeclared
    split at h
    · cases h
    · rename_i declared hdeclared
      exact .inl (declaresNotPublic_of_declared hdeclared (by simpa using h))
    · contradiction

/-- The write of a world whose records are a history's, settled. -/
theorem lawful_iff (hr : Recorded w) (write : Write) : w.Lawful write ↔ w.NoStaleOverride write := by
  constructor
  · intro h hasked hundeclared hoverride
    have hdecided : w.decidedByRecord write := by
      cases hidentity : w.registry.identities write.key with
      | none => simp [observation, hidentity] at hoverride
      | some identity =>
        have hobserved : identity.observation = .override := by
          simpa [observation, hidentity] using hoverride
        have hvisibility := (hr _ identity hidentity).2 hobserved
        simp [decidedByRecord, hasked, hundeclared, screensWritesAsRecorded_of_undeclared,
          hidentity, hobserved, hvisibility]
    rw [h.fromHost hdecided] at hoverride
    cases hoverride
  · intro h
    refine ⟨fun hhosted hunscreened => ?_, fun hdecided => ?_⟩
    · unfold World.write at hunscreened ⊢
      cases hasked : write.asked with
      | fresh =>
        simp only [hasked] at hunscreened ⊢
        exact screening_rests hhosted hunscreened
      | unasked =>
        have hrests := recorded_rests hr (h (by simp [hasked]))
        simp only [hasked, World.screensWritesUnasked] at hunscreened ⊢
        split at hunscreened
        · cases hunscreened
        · rename_i recorded hrecorded
          rcases recorded with _ | _ | _
          · simp [hhosted, Screening.ofBool, Except.map] at hunscreened
          · exact hrests hrecorded
          · simp [Screening.ofBool, Except.map] at hunscreened
      | unlessRecorded =>
        have hrests := recorded_rests hr (h (by simp [hasked]))
        simp only [hasked] at hunscreened ⊢
        unfold World.screeningUnlessRecorded at hunscreened ⊢
        split at hunscreened
        · cases hunscreened
        · rename_i screened hrecorded
          cases screened with
          | false => exact hrests hrecorded
          | true => simp [Screening.ofBool] at hunscreened
        · rename_i hrecorded
          exact screening_rests hhosted hunscreened
    · simp only [decidedByRecord, Bool.and_eq_true, bne_iff_ne] at hdecided
      obtain ⟨⟨hasked, hundeclared⟩, hsome⟩ := hdecided
      have hoverride := h hasked hundeclared
      rw [screensWritesAsRecorded_of_undeclared hundeclared] at hsome
      cases hidentity : w.registry.identities write.key with
      | none => simp [hidentity] at hsome
      | some identity =>
        simp only [observation, hidentity, Option.map_some, Option.getD_some] at hsome hoverride ⊢
        split_ifs at hsome with hknown
        · cases hobserved : identity.observation <;> simp_all
        · cases hsome

end World

/-- A condition on the writes of a history. -/
def AtWrites (P : World → Write → Prop) (w : World) (step : Step) : Prop :=
  ∀ write, step = .write write → P w write

/-- In every history, the writes are lawful exactly where none of them reads a record
that a rule made and no rule declares any more. -/
theorem writes_lawful_iff (w : World) (hinit : histories.Initial w) (steps : List Step) :
    histories.RunMeets (AtWrites World.Lawful) w steps ↔
      histories.RunMeets (AtWrites World.NoStaleOverride) w steps := by
  have hr : w.Recorded := by
    intro key identity hidentity
    rw [hinit.1] at hidentity
    cases hidentity
  clear hinit
  induction steps generalizing w with
  | nil => exact Iff.rfl
  | cons step rest ih =>
    refine and_congr ?_ ?_
    · exact forall₂_congr fun write _ => World.lawful_iff hr write
    · simpa [histories] using ih (w.after step) (hr.after step)

/-- A host that has registered nothing. -/
def newHost : World where
  registry := ⟨fun _ => none, [], none⟩
  documents _ := .absent
  defaultPath := "rules.yml"
  home := none
  canonicalize _ := none
  hostSaid _ := none

/-- A rules file whose one rule declares every repository private. -/
def allPrivate : Rules.RulesFile where
  version := 4
  trailerPrefix := none
  rules := [{ criteria := {}, visibility := some .declaredPrivate }]
  default := builtInDefault

/-- A rule declares a repository private, a refresh records it, the rule is removed, and
a write that asks no host follows. -/
def removedRule : List Step :=
  [.register "github.com/o/n",
    .editRules "rules.yml" (.file allPrivate),
    .refresh "github.com/o/n" (.said .isPublic) "2026-01-01",
    .editRules "rules.yml" .absent,
    .write ⟨.unasked, "github.com/o/n", .said .isPublic, "2026-01-02"⟩]

theorem writes_lawful_iff_removedRule :
    histories.RunMeets (AtWrites World.Lawful) newHost removedRule ↔
      histories.RunMeets (AtWrites World.NoStaleOverride) newHost removedRule :=
  writes_lawful_iff newHost ⟨rfl, rfl⟩ removedRule

/-- The world before the last step of `removedRule`. -/
def afterRemoval : World := (removedRule.dropLast).foldl World.after newHost

theorem afterRemoval_hosted : afterRemoval.hosted "github.com/o/n" = true := by
  have hchars : "github.com/o/n".toList =
      ['g', 'i', 't', 'h', 'u', 'b', '.', 'c', 'o', 'm', '/', 'o', '/', 'n'] := by simp
  have hkey : Store.hosted (Store.trim
      ['g', 'i', 't', 'h', 'u', 'b', '.', 'c', 'o', 'm', '/', 'o', '/', 'n']) =
        some ⟨"github.com/o/n", some ⟨"github.com", "o", "n"⟩⟩ := by decide
  simp only [World.hosted, Store.normalize, hchars, hkey, Option.isSome_some]

/-- The write goes unscreened, though no rule is in force and no host was ever asked. -/
theorem removedRule_unscreened :
    ¬ histories.RunMeets (AtWrites World.Lawful) newHost removedRule := by
  rintro ⟨-, h⟩
  obtain ⟨-, h⟩ := h _ rfl
  obtain ⟨-, h⟩ := h _ rfl
  obtain ⟨-, h⟩ := h _ rfl
  have hlawful : afterRemoval.Lawful ⟨.unasked, "github.com/o/n", .said .isPublic, "2026-01-02"⟩ :=
    (h _ rfl).1 _ rfl
  rcases hlawful.rests afterRemoval_hosted (by decide) with hdeclared | hsaid
  · exact absurd hdeclared (by decide)
  · exact absurd hsaid (by decide)

end Onevcs.Boundary
