import Onevcs.GitReads.Reads

/-!
# The memo of git reads is transparent

Every answer recalled from the memo, from the settled answers or from the facts is what git answers
at that moment, in every run that meets `Act.Meets`: `recalled_exact`. What a run can do otherwise is
move a ref that a settled answer was asked about by name: `moved_ref_recalled`.
-/

namespace Onevcs.GitReads

open Foundations (Memo System Text)

variable {W : Type*} {git : Git W} {s s' : State W}

/-- The command keeps what the thread remembers right: arguments that are spelled by commits are
read as revisions, a settled answer to them is one whose revisions stand where they stood, and a
command taken for a read or for a harmless one moves no answer that is remembered. -/
structure Git.Meets (git : Git W) (s : State W) (key : Key) (effect : git.Effect) : Prop where
  revisions : git.asked s.world key ≠ key → git.ReadsRevisions s.world key
  stands : ∀ kept, s.settled (git.asked s.world key) = some kept →
    git.Stand (git.asked s.world key) kept.world s.world
  unmoved : (remembered (git.asked s.world key).args || harmless (git.asked s.world key).args) = true →
    ∀ other : Key, remembered other.args = true →
      git.answer (effect.apply s.world) other = git.answer s.world other

/-- Within a scope, the step keeps what the thread remembers right. -/
def Act.Meets (s : State W) : Act git → Prop
  | .enter => True
  | .leave => True
  | .run key effect _ => s.active = true → git.Meets s key effect
  | .ask key _ effect => s.active = true → git.Meets s key.key effect

/-- What the tables say is right of the world, and what was recalled was. -/
structure Sound (git : Git W) (s : State W) : Prop where
  memo : s.memo.Keeps fun key output =>
    remembered key.args = true ∧ output = git.answer s.world key
  settled : s.settled.Keeps fun key kept => GitReads.settled key.args kept.output = true ∧
    kept.output = git.answer kept.world key ∧ git.Grows kept.world s.world
  facts : s.facts.Keeps fun key answer => key.fact.ofIds = true ∧
    key.fact.read (git.answer s.world key.key) = some answer
  idle : s.active = false → s.memo = Memo.empty ∧ s.facts = Memo.empty
  exact : ∀ recalled ∈ s.recalled, recalled.Exact

theorem sound_fresh (world : W) : Sound git (.fresh world) where
  memo := Memo.keeps_empty
  settled := Memo.keeps_empty
  facts := Memo.keeps_empty
  idle _ := ⟨rfl, rfl⟩
  exact _ hrecalled := by cases hrecalled

/-- A command spelled by commits is answered as it was given. -/
theorem Git.Lawful.asked (hgit : git.Lawful) {world : W} {key : Key}
    (hreads : git.asked world key ≠ key → git.ReadsRevisions world key) :
    git.answer world (git.asked world key) = git.answer world key := by
  obtain ⟨cwd, args, env⟩ := key
  cases hpinned : pinned (git.tip world cwd env) args with
  | none =>
    have hsame : git.asked world ⟨cwd, args, env⟩ = ⟨cwd, args, env⟩ := by
      rw [Git.asked, GitReads.asked, hpinned, Option.getD_none]
    rw [hsame]
  | some spelled =>
    have hasked : git.asked world ⟨cwd, args, env⟩ = ⟨cwd, spelled, env⟩ := by
      rw [Git.asked, GitReads.asked, hpinned, Option.getD_some]
    by_cases hsame : git.asked world ⟨cwd, args, env⟩ = ⟨cwd, args, env⟩
    · rw [hsame]
    obtain ⟨command, rest, rest', rfl, rfl, hchain⟩ :=
      pinned_spells (hgit.tips world cwd env) hpinned
    rw [hasked]
    have hread := hreads hsame
    -- one revision after another, each read as a revision
    have hkept : git.ReadsRevisions world ⟨cwd, command :: rest', env⟩ ∧
        git.answer world ⟨cwd, command :: rest', env⟩ =
          git.answer world ⟨cwd, command :: rest, env⟩ := by
      clear hpinned hasked hsame hreads
      induction hchain with
      | refl => exact ⟨hread, rfl⟩
      | tail _ hone ih =>
        obtain ⟨hnext, hanswer⟩ := hgit.alike hone ih.1
        exact ⟨hnext, hanswer.trans ih.2⟩
    exact hkept.2

theorem settled_reachesArgs {ancestor descendant : Text} {output : Output} :
    settled (reachesArgs ancestor descendant) output =
      (output.status == 0 || output.status == 1) := rfl

theorem remembered_factArgs (fact : Fact) : remembered fact.args = true := by
  cases fact <;> rfl

theorem words_of_settled {args : List Text} {output : Output} (h : settled args output = true) :
    ∃ command option rest, args = command :: option :: rest ∧
      (command, option) ∈ [(Word.catFile, Word.exists'), (Word.mergeBase, Word.isAncestor)] := by
  have hcons : ∀ {command option : Text}, args.head? = some command ∧ args[1]? = some option →
      ∃ rest, args = command :: option :: rest := by
    rintro command option ⟨hhead, hsecond⟩
    obtain ⟨tail, rfl⟩ := List.head?_eq_some_iff.mp hhead
    rw [List.getElem?_cons_succ, ← List.head?_eq_getElem?] at hsecond
    obtain ⟨rest, rfl⟩ := List.head?_eq_some_iff.mp hsecond
    exact ⟨rest, rfl⟩
  rw [settled] at h
  split at h
  case isTrue hcat =>
    obtain ⟨rest, rfl⟩ := hcons hcat
    exact ⟨_, _, rest, rfl, List.mem_cons_self⟩
  case isFalse =>
    rw [Bool.ite_eq_true_distrib] at h
    split at h
    case isTrue hbase =>
      obtain ⟨rest, rfl⟩ := hcons hbase
      exact ⟨_, _, rest, rfl, List.mem_cons_of_mem _ List.mem_cons_self⟩
    case isFalse => cases h

theorem stripSuffix_append (text suffix : Text) :
    stripSuffix suffix (text ++ suffix) = some text := by
  rw [stripSuffix, if_pos (List.isSuffixOf_iff_suffix.mpr (List.suffix_append text suffix)),
    List.length_append, Nat.add_sub_cancel, List.take_left]

theorem stripSuffix_peeled {revision : Text} (hid : isObjectId revision = true) :
    stripSuffix Word.peeledCommit revision = none := by
  rw [stripSuffix, if_neg]
  intro hsuffix
  obtain ⟨start, rfl⟩ := List.isSuffixOf_iff_suffix.mp hsuffix
  rw [isObjectId, Bool.and_eq_true, List.all_append, Bool.and_eq_true] at hid
  exact absurd hid.2.2 (by decide)

theorem isSpelledById_of_isObjectId {revision : Text} (hid : isObjectId revision = true) :
    Git.isSpelledById revision = true := by
  rw [Git.isSpelledById, stripSuffix_peeled hid, Option.getD_none, hid]

theorem Fact.stand {key : FactKey} (hids : key.fact.ofIds = true) (world world' : W) :
    git.Stand key.key world world' := by
  obtain ⟨cwd, env, fact⟩ := key
  cases fact with
  | holds commit =>
    intro revision hrevision
    obtain rfl : revision = commit ++ Word.peeledCommit := by
      simpa [FactKey.key, Fact.args, holdsArgs] using hrevision
    left
    rw [Git.isSpelledById, stripSuffix_append, Option.getD_some]
    exact hids
  | reaches ancestor descendant =>
    intro revision hrevision
    have hboth := (Bool.and_eq_true _ _).mp hids
    have hrevision : revision = ancestor ∨ revision = descendant := by
      simpa [FactKey.key, Fact.args, reachesArgs] using hrevision
    obtain rfl | rfl := hrevision
    · exact .inl (isSpelledById_of_isObjectId hboth.1)
    · exact .inl (isSpelledById_of_isObjectId hboth.2)

theorem Git.Lawful.fact_stays (hgit : git.Lawful) {world world' : W} {key : FactKey} {answer : Bool}
    (hgrows : git.Grows world world') (hids : key.fact.ofIds = true)
    (hread : key.fact.read (git.answer world key.key) = some answer)
    (hretained : State.retained key answer = true) :
    key.fact.read (git.answer world' key.key) = some answer := by
  have hsettled : settled key.key.args (git.answer world key.key) = true := by
    obtain ⟨cwd, env, fact⟩ := key
    cases fact with
    | holds commit =>
      obtain rfl : answer = true := hretained
      exact Option.some.inj hread
    | reaches ancestor descendant =>
      rw [FactKey.key, Fact.args, settled_reachesArgs, Bool.or_eq_true, beq_iff_eq, beq_iff_eq]
      rw [FactKey.key, Fact.args, Fact.read] at hread
      by_cases hzero : (git.answer world ⟨some cwd, reachesArgs ancestor descendant, env⟩).status = 0
      · exact .inl hzero
      · rw [if_neg hzero, Option.ite_none_right_eq_some] at hread
        exact .inr hread.1
  rw [hgit.settles hgrows hsettled (Fact.stand hids world world'), hread]

/-! ## Each step -/

theorem Sound.recallKey (hgit : git.Lawful) (hsound : Sound git s) {key : Key} {output : Output}
    (hrecall : s.recallKey key = some output)
    (hstands : ∀ kept, s.settled key = some kept → git.Stand key kept.world s.world) :
    output = git.answer s.world key := by
  rw [State.recallKey, Option.ite_none_left_eq_some] at hrecall
  obtain ⟨-, hrecall⟩ := hrecall
  split at hrecall
  case h_1 kept hkept =>
    obtain rfl := Option.some.inj hrecall
    obtain ⟨hsettled, houtput, hgrows⟩ := hsound.settled key kept hkept
    rw [houtput] at hsettled ⊢
    exact (hgit.settles hgrows hsettled (hstands kept hkept)).symm
  case h_2 =>
    rw [Option.ite_none_right_eq_some] at hrecall
    exact (hsound.memo key output hrecall.2).2

/-- A command that git runs leaves what is remembered right of the world that it makes. -/
theorem Sound.moved (hgit : git.Lawful) (hsound : Sound git s) {key : Key} {effect : git.Effect}
    (hunmoved : s.active = true → (remembered key.args || harmless key.args) = true →
      ∀ other : Key, remembered other.args = true →
        git.answer (effect.apply s.world) other = git.answer s.world other) :
    Sound git { s.unmoved key with world := effect.apply s.world } := by
  have hgrows := effect.grows s.world
  have hsettled : s.settled.Keeps fun key kept => GitReads.settled key.args kept.output = true ∧
      kept.output = git.answer kept.world key ∧ git.Grows kept.world (effect.apply s.world) :=
    hsound.settled.mono fun key kept hkept =>
      ⟨hkept.1, hkept.2.1, hgit.grows_trans hkept.2.2 hgrows⟩
  rw [State.unmoved]
  split
  case isTrue hwrite =>
    refine ⟨Memo.keeps_empty, hsettled, ?_, ?_, hsound.exact⟩
    · exact hsound.facts.retain fun key answer hfact hretained =>
        ⟨hfact.1, hgit.fact_stays hgrows hfact.1 hfact.2 hretained⟩
    · intro hidle
      rw [Bool.and_eq_true, Bool.and_eq_true] at hwrite
      exact absurd (hwrite.1.1.symm.trans hidle) (by simp)
  case isFalse hread =>
    cases hactive : s.active with
    | false =>
      obtain ⟨hmemo, hfacts⟩ := hsound.idle hactive
      refine ⟨?_, hsettled, ?_, fun _ => ⟨hmemo, hfacts⟩, hsound.exact⟩
      · rw [hmemo]
        exact Memo.keeps_empty
      · rw [hfacts]
        exact Memo.keeps_empty
    | true =>
      have hsame := hunmoved hactive (by
        rw [hactive] at hread
        cases hremembered : remembered key.args <;> cases hharmless : harmless key.args <;>
          simp_all)
      refine ⟨?_, hsettled, ?_, fun hidle => ?_, hsound.exact⟩
      · exact hsound.memo.mono fun other output houtput =>
          ⟨houtput.1, by rw [hsame other houtput.1, houtput.2]⟩
      · exact hsound.facts.mono fun other answer hanswer =>
          ⟨hanswer.1, by rw [hsame other.key (remembered_factArgs other.fact), hanswer.2]⟩
      · exact absurd (hactive.symm.trans hidle) (by simp)

theorem Sound.remember {world next : W} (hsound : Sound git { s with world := next }) {key : Key}
    (hworld : s.world = world) (hgrows : git.Grows world next)
    (hsame : s.active = true → remembered key.args = true →
      git.answer next key = git.answer world key) :
    Sound git { s.remember key (git.answer world key) with world := next } := by
  subst hworld
  rw [State.remember]
  split
  case isFalse => exact hsound
  case isTrue hremembers =>
    obtain ⟨hactive, hremembered⟩ := (Bool.and_eq_true _ _).mp hremembers
    refine ⟨hsound.memo.insert ⟨hremembered, (hsame hactive hremembered).symm⟩, ?_, hsound.facts,
      fun hidle => absurd (hactive.symm.trans hidle) (by simp), hsound.exact⟩
    split
    case isTrue hsettled => exact hsound.settled.insert ⟨hsettled, rfl, hgrows⟩
    case isFalse => exact hsound.settled

theorem State.unmoved_world (s : State W) (key : Key) : (s.unmoved key).world = s.world := by
  rw [State.unmoved]
  split <;> rfl

theorem State.unmoved_active (s : State W) (key : Key) : (s.unmoved key).active = s.active := by
  rw [State.unmoved]
  split <;> rfl

theorem Sound.log (hsound : Sound git s) {recalled : Recalled} (hexact : recalled.Exact) :
    Sound git { s with recalled := recalled :: s.recalled } where
  memo := hsound.memo
  settled := hsound.settled
  facts := hsound.facts
  idle := hsound.idle
  exact := List.forall_mem_cons.mpr ⟨hexact, hsound.exact⟩

theorem Sound.runUnless (hgit : git.Lawful) (hsound : Sound git s) {key : Key} {effect : git.Effect}
    (hmeets : s.active = true → git.Meets s key effect) (stopped : Bool) :
    Sound git (runUnless git s key effect stopped) := by
  have hmoved := hsound.moved hgit fun hactive => (hmeets hactive).unmoved
  rw [GitReads.runUnless]
  cases hrecall : s.recallKey (git.asked s.world key) with
  | some output =>
    have hactive : s.active = true := by
      rw [State.recallKey, Option.ite_none_left_eq_some] at hrecall
      simpa using hrecall.1
    refine hsound.log ?_
    rw [Recalled.Exact, hsound.recallKey hgit hrecall (hmeets hactive).stands,
      hgit.asked (hmeets hactive).revisions]
  | none =>
    cases stopped with
    | true => exact hmoved
    | false =>
      refine hmoved.remember (s.unmoved_world _) (effect.grows s.world)
        fun hactive hremembered => ?_
      rw [State.unmoved_active] at hactive
      exact (hmeets hactive).unmoved (by rw [hremembered, Bool.true_or]) _ hremembered

theorem Sound.askFact (hgit : git.Lawful) (hsound : Sound git s) {key : FactKey}
    {effect : git.Effect} (hmeets : s.active = true → git.Meets s key.key effect) (admitted : Bool) :
    Sound git (askFact git s key admitted effect) := by
  rw [GitReads.askFact]
  split
  case h_1 answer hanswer =>
    rw [Option.ite_none_right_eq_some, State.fact, Option.ite_none_right_eq_some] at hanswer
    exact hsound.log (hsound.facts key answer hanswer.2.2).2.symm
  case h_2 =>
    split
    case h_1 answer hnative =>
      split
      case isFalse => exact hsound
      case isTrue hids =>
        rw [State.learn]
        split
        case isFalse => exact hsound
        case isTrue hactive =>
          exact ⟨hsound.memo, hsound.settled, hsound.facts.insert ⟨hids, hgit.native hnative⟩,
            fun hidle => absurd (hactive.symm.trans hidle) (by simp), hsound.exact⟩
    case h_2 => exact hsound.runUnless hgit hmeets false

theorem Sound.enter (hsound : Sound git s) : Sound git s.enter where
  memo := hsound.memo
  settled := hsound.settled
  facts := hsound.facts
  idle hidle := absurd hidle (by simp [State.active, State.enter])
  exact := hsound.exact

theorem Sound.leave (hsound : Sound git s) (hdepth : s.depth ≠ 0) : Sound git s.leave := by
  rw [State.leave]
  split
  case isTrue =>
    exact ⟨Memo.keeps_empty, Memo.keeps_empty, Memo.keeps_empty, fun _ => ⟨rfl, rfl⟩, hsound.exact⟩
  case isFalse hinner =>
    refine ⟨hsound.memo, hsound.settled, hsound.facts, fun hidle => ?_, hsound.exact⟩
    have hzero : ¬ 0 < s.depth - 1 := of_decide_eq_false hidle
    omega

theorem Sound.step (hgit : git.Lawful) (hsound : Sound git s) {act : Act git} (hmeets : act.Meets s)
    (hstep : (thread git).step s act = some s') : Sound git s' := by
  cases act with
  | enter =>
    obtain rfl := Option.some.inj hstep
    exact hsound.enter
  | leave =>
    obtain ⟨hdepth, rfl⟩ : s.depth ≠ 0 ∧ s.leave = s' := by simpa [thread] using hstep
    exact hsound.leave hdepth
  | run key effect stopped =>
    obtain rfl := Option.some.inj hstep
    exact hsound.runUnless hgit hmeets stopped
  | ask key admitted effect =>
    obtain rfl := Option.some.inj hstep
    exact hsound.askFact hgit hmeets admitted

theorem sound_of_reachable (hgit : git.Lawful)
    (hreach : (thread git).ReachableBy (fun s act => act.Meets s) s) : Sound git s := by
  refine hreach.invariant ?_ fun s act s' hsound hmeets hstep => hsound.step hgit hmeets hstep
  rintro s ⟨world, rfl⟩
  exact sound_fresh world

/-- Every answer recalled is what git answers at that moment. -/
theorem recalled_exact (hgit : git.Lawful)
    (hreach : (thread git).ReachableBy (fun s act => act.Meets s) s) :
    ∀ recalled ∈ s.recalled, recalled.Exact :=
  (sound_of_reachable hgit hreach).exact

namespace Side

def first : Text := List.replicate 40 'a'

def second : Text := List.replicate 40 'b'

/-- Where `side` stands, before it is moved and after. -/
def standsAt (moved : Bool) : Text := if moved then second else first

/-- What a word of a command line names: a branch where it stands, and anything else itself. -/
def resolve (moved : Bool) (word : Text) : Text :=
  if word = "side".toList then standsAt moved else word

/-- What git answers to a command whose names are resolved. -/
def verdict : List Text → Output
  | [command, option, ancestor, descendant] =>
    if command = Word.mergeBase ∧ option = Word.isAncestor then
      if (ancestor = first ∨ ancestor = second) ∧ (descendant = first ∨ descendant = second) then
        ⟨if ancestor = descendant ∨ ancestor = first then 0 else 1, [], []⟩
      else ⟨128, [], []⟩
    else ⟨0, [], []⟩
  | _ => ⟨0, [], []⟩

/-- Git over the repository of the two commits, whose refs the native reader reads or declines. -/
def repository (reads : Bool) : Git Bool where
  answer moved key := verdict (key.args.map (resolve moved))
  tip moved _ _ name := if reads ∧ name = "side".toList then some (standsAt moved) else none
  native moved key := key.fact.read (verdict (key.key.args.map (resolve moved)))
  names moved _ _ revision := some (resolve moved revision)
  ReadsRevisions _ key :=
    key.args.head? = some Word.mergeBase ∧ ∀ arg ∈ key.args, splitRange arg = none
  Grows _ _ := True

theorem resolve_of_ne {moved : Bool} {word : Text} (hword : word ≠ "side".toList) :
    resolve moved word = word := if_neg hword

theorem tip_eq {reads moved : Bool} {cwd : Option Text} {env : List (Text × Text)} {name commit : Text}
    (htip : (repository reads).tip moved cwd env name = some commit) :
    name = "side".toList ∧ standsAt moved = commit := by
  have htip : (if reads ∧ name = "side".toList then some (standsAt moved) else none) =
    some commit := htip
  obtain ⟨hname, hcommit⟩ := Option.ite_none_right_eq_some.mp htip
  exact ⟨hname.2, Option.some.inj hcommit⟩

theorem resolve_of_revision {reads moved : Bool} {cwd : Option Text} {env : List (Text × Text)}
    {arg spelled : Text} (hplain : splitRange arg = none)
    (hspelled : revision ((repository reads).tip moved cwd env) ([], false) arg = some spelled) :
    resolve moved spelled = resolve moved arg ∧ splitRange spelled = none := by
  rw [revision, hplain] at hspelled
  obtain ⟨named, hnamed, hcommit⟩ := Option.bind_eq_some_iff.mp hspelled
  obtain rfl : (arg, []) = named := Option.some.inj hnamed
  obtain ⟨commit, hpin, rfl⟩ := Option.map_eq_some_iff.mp hcommit
  obtain ⟨rfl, rfl⟩ := tip_eq (Option.ite_none_left_eq_some.mp hpin).2
  cases moved <;> decide

theorem lawful (reads : Bool) : (repository reads).Lawful where
  grows_refl _ := trivial
  grows_trans _ _ := trivial
  settles := by
    intro moved moved' key _ hsettled hstand
    obtain ⟨command, option, rest, hargs, hword⟩ := words_of_settled hsettled
    have hwords : ∀ words ∈ [(Word.catFile, Word.exists'), (Word.mergeBase, Word.isAncestor)],
        words.1 ≠ "side".toList ∧ words.2 ≠ "side".toList := by decide
    have hside : Git.isSpelledById "side".toList = false := by decide
    have hrest : rest.map (resolve moved') = rest.map (resolve moved) := by
      refine List.map_congr_left fun revision hrevision => ?_
      obtain hid | hname := hstand revision (by rwa [hargs])
      · have hne : revision ≠ "side".toList := by
          rintro rfl
          exact absurd (hid.symm.trans hside) (by simp)
        rw [resolve_of_ne hne, resolve_of_ne hne]
      · exact Option.some.inj hname
    obtain ⟨hcommand, hoption⟩ := hwords _ hword
    simp only [repository, hargs, List.map_cons, hrest, resolve_of_ne hcommand, resolve_of_ne hoption]
  tips moved _ _ name commit hcommit := by
    obtain ⟨-, rfl⟩ := tip_eq hcommit
    cases moved <;> decide
  alike := by
    rintro moved cwd env command _ _ ⟨hshape, -, -, hspelled⟩ ⟨hcommand, hplain⟩
    obtain rfl : command = Word.mergeBase := Option.some.inj hcommand
    obtain rfl := Option.some.inj hshape
    rw [List.forall_mem_cons, List.forall_mem_append, List.forall_mem_cons] at hplain
    obtain ⟨hword, hbefore, harg, hafter⟩ := hplain
    obtain ⟨hresolve, hrange⟩ := resolve_of_revision harg hspelled
    refine ⟨⟨rfl, ?_⟩, ?_⟩
    · rw [List.forall_mem_cons, List.forall_mem_append, List.forall_mem_cons]
      exact ⟨hword, hbefore, hrange, hafter⟩
    · simp only [repository, List.map_cons, List.map_append, hresolve]
  native := by
    intro moved key answer hanswer
    exact hanswer

/-- Whether `side` is an ancestor of the first commit. -/
def ask : Key := ⟨some "/repository".toList, reachesArgs "side".toList first, []⟩

/-- `side` is moved to the second commit. -/
def move : Key :=
  ⟨some "/repository".toList, ["update-ref".toList, "refs/heads/side".toList, second], []⟩

def still (reads : Bool) : (repository reads).Effect := ⟨id, fun _ => trivial⟩

/-- The effect of moving `side`. -/
def moves (reads : Bool) : (repository reads).Effect := ⟨fun _ => true, fun _ => trivial⟩

/-- `side` is asked about, moved, and asked about again twice; so are the two commits. -/
def asksAround (reads : Bool) : List (Act (repository reads)) :=
  [.enter, .run ask (still reads) false,
    .ask ⟨"/repository".toList, [], .reaches first second⟩ true (still reads),
    .run move (moves reads) false, .run ask (still reads) false,
    .ask ⟨"/repository".toList, [], .reaches first second⟩ true (still reads),
    .run ask (still reads) false, .leave]

theorem asksAround_runs (reads : Bool) :
    ((thread (repository reads)).run (.fresh false) (asksAround reads)).isSome = true := by
  cases reads <;> rfl

theorem asked_ask (moved : Bool) :
    (repository true).asked moved ask =
      { ask with args := reachesArgs (standsAt moved) first } := by
  cases moved <;> rfl

theorem meets_ask (s : State Bool) : (repository true).Meets s ask (still true) where
  revisions _ := ⟨rfl, by decide +kernel⟩
  stands kept _ := by
    rw [asked_ask]
    have hids : ∀ moved, ∀ revision ∈ (reachesArgs (standsAt moved) first).drop 2,
        Git.isSpelledById revision = true := by
      intro moved revision hrevision
      cases moved <;> exact List.all_eq_true.mp (by rfl) revision hrevision
    exact fun revision hrevision => .inl (hids s.world revision hrevision)
  unmoved _ _ _ := rfl

theorem meets_of_ids {s : State Bool} {key : Key} {effect : (repository true).Effect}
    (hasked : ∀ moved, (repository true).asked moved key = key)
    (hids : ∀ revision ∈ key.args.drop 2, Git.isSpelledById revision = true)
    (hunmoved : (remembered key.args || harmless key.args) = true →
      ∀ world, effect.apply world = world) :
    (repository true).Meets s key effect where
  revisions hne := absurd (hasked s.world) hne
  stands kept _ := by
    rw [hasked]
    exact fun revision hrevision => .inl (hids revision hrevision)
  unmoved hread other _ := by
    rw [hasked] at hread
    rw [hunmoved hread]

theorem asksAround_meets : ∀ act ∈ asksAround true, ∀ s : State Bool, act.Meets s := by
  have hfact (s : State Bool) : (repository true).Meets s
      (FactKey.mk "/repository".toList [] (.reaches first second)).key (still true) :=
    meets_of_ids (fun moved => by cases moved <;> rfl) (List.all_eq_true.mp (by rfl))
      fun _ _ => rfl
  have hmove (s : State Bool) : (repository true).Meets s move (moves true) :=
    meets_of_ids (fun moved => by cases moved <;> rfl) (List.all_eq_true.mp (by rfl))
      fun hread => absurd hread Bool.false_ne_true
  intro act hact s
  simp only [asksAround, List.mem_cons, List.not_mem_nil, or_false] at hact
  obtain rfl | rfl | rfl | rfl | rfl | rfl | rfl | rfl := hact
  · trivial
  · exact fun _ => meets_ask s
  · exact fun _ => hfact s
  · exact fun _ => hmove s
  · exact fun _ => meets_ask s
  · exact fun _ => hfact s
  · exact fun _ => meets_ask s
  · trivial

end Side

/-- Where the native reader reads the repository, `side` is asked about as the commit that it stands
at, and no answer outlives its move. -/
theorem recalled_exact_spelled :
    (((thread (Side.repository true)).run (.fresh false) (Side.asksAround true)).get
        (Side.asksAround_runs true)).recalled.length = 2 ∧
      ∀ recalled ∈ (((thread (Side.repository true)).run (.fresh false)
        (Side.asksAround true)).get (Side.asksAround_runs true)).recalled, recalled.Exact :=
  ⟨by rfl, recalled_exact (Side.lawful true)
    (System.reachableBy_of_run ⟨false, rfl⟩
      (System.runMeets_of_forall Side.asksAround_meets _)
      (Option.some_get (Side.asksAround_runs true)).symm)⟩

/-- Where the native reader declines the repository, `side` is asked about by its name, and what git
answered before it was moved is recalled after. -/
theorem moved_ref_recalled :
    (Side.repository false).Lawful ∧
      ∃ s, (thread (Side.repository false)).Reachable s ∧
        Recalled.output ⟨0, [], []⟩ ⟨1, [], []⟩ ∈ s.recalled ∧
        ¬ ∀ recalled ∈ s.recalled, recalled.Exact := by
  refine ⟨Side.lawful false, _, System.reachable_of_run ⟨false, rfl⟩
    (Option.some_get (Side.asksAround_runs false)).symm, ?_⟩
  decide +kernel

end Onevcs.GitReads
