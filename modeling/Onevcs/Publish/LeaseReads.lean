import Onevcs.Publish.Lease

/-!
# What a reader says of a running publication

A read during which a lease is held throughout always answers a workspace: every lease held since
the listing has its record among those still to look at, and its lock is not free when it is
asked for. Two readers that ask about one lock at once do not tell each other from a publication,
and a publication that starts meanwhile is refused; in every other run each read is right and no
publication is refused.
-/

namespace Onevcs.Publish

open Foundations (System)

namespace Lease

variable {Path : Type}

/-! ## What every step keeps -/

/-- What a read that is going on has before it: the leases kept, of those held, are among the
records it has yet to look at, and a record it read of one of them is that lease's. -/
def Read.Ahead (held : List ℕ) (records : List (ℕ × Record Path)) (read : Read Path) : Prop :=
  match read.asking with
  | .listed todo => ∀ kept ∈ read.kept, kept ∈ held → kept ∈ todo
  | .opened name record todo => ∀ kept ∈ read.kept, kept ∈ held →
      kept ∈ todo ∨ kept = name ∧ records.lookup name = some record
  | .probing _ _ todo => ∀ kept ∈ read.kept, kept ∈ held → kept ∈ todo
  | .answered _ => True
  | .gone => True

/-- What every step keeps of the holds and the records. -/
structure Sound (s : World Path) : Prop where
  distinct : (s.holders.map Holder.name).Nodup
  holderUsed : ∀ holder ∈ s.holders, holder.name ∈ s.used
  recordUsed : ∀ entry ∈ s.records, entry.1 ∈ s.used
  locked : ∀ holder ∈ s.holders, holder.stage = .locked → s.records.lookup holder.name = none
  held : ∀ holder ∈ s.holders, holder.stage = .held →
    s.records.lookup holder.name = some holder.record
  ahead : ∀ read ∈ s.reads, read.Ahead s.heldNames s.records

/-- What is carried along with a read that is going on is of leases that are held, and of no
hold at all. -/
structure Observed (s : World Path) : Prop where
  kept : ∀ read ∈ s.reads, read.asking.live = true → read.kept ⊆ s.heldNames
  free : ∀ read ∈ s.reads, read.asking.live = true → read.free = true → s.holders = []

/-- What holds after every step. -/
def Steady (s : World Path) : Prop := Sound s ∧ Observed s

section Steps

variable {s : World Path} {holder : Holder Path} {name : ℕ} {stage : Stage}

theorem mem_heldNames : name ∈ s.heldNames ↔
    ∃ holder ∈ s.holders, holder.stage = .held ∧ holder.name = name := by
  simp [World.heldNames, and_assoc]

theorem mem_staged : holder ∈ s.staged name stage ↔
    (holder ∈ s.holders ∧ holder.name ≠ name) ∨
      ∃ before ∈ s.holders, before.name = name ∧ holder = { before with stage := stage } := by
  unfold World.staged
  rw [List.mem_map]
  constructor
  · rintro ⟨before, hbefore, rfl⟩
    by_cases hname : before.name = name
    · exact .inr ⟨before, hbefore, hname, if_pos hname⟩
    · rw [if_neg hname]
      exact .inl ⟨hbefore, hname⟩
  · rintro (⟨hmem, hname⟩ | ⟨before, hbefore, hname, rfl⟩)
    · exact ⟨holder, hmem, if_neg hname⟩
    · exact ⟨before, hbefore, if_pos hname⟩

theorem names_staged : (s.staged name stage).map Holder.name = s.holders.map Holder.name := by
  unfold World.staged
  rw [List.map_map]
  congr 1
  funext holder
  by_cases hname : holder.name = name
  · simp [hname]
  · simp [hname]

theorem of_holderAt (h : s.holderAt name stage = some holder) :
    holder ∈ s.holders ∧ holder.name = name ∧ holder.stage = stage := by
  have hmem := List.mem_of_find?_eq_some h
  have hfound := List.find?_some h
  simp only [Bool.and_eq_true, beq_iff_eq] at hfound
  exact ⟨hmem, hfound⟩

theorem Sound.eq_of_name (h : Sound s) {other : Holder Path} (hholder : holder ∈ s.holders)
    (hother : other ∈ s.holders) (hname : holder.name = other.name) : holder = other :=
  List.inj_on_of_nodup_map h.distinct hholder hother hname

theorem lookup_append_of_some {records : List (ℕ × Record Path)} {record : Record Path}
    (h : records.lookup name = some record) (more : List (ℕ × Record Path)) :
    (records ++ more).lookup name = some record := by
  rw [List.lookup_append, h]
  rfl

theorem lookup_filter_ne {records : List (ℕ × Record Path)} {other : ℕ} (h : name ≠ other) :
    (records.filter fun entry => entry.1 != other).lookup name = records.lookup name := by
  induction records with
  | nil => rfl
  | cons entry records ih =>
    by_cases hentry : entry.1 = other
    · have hne : (name == entry.1) = false := beq_eq_false_iff_ne.mpr (hentry ▸ h)
      rw [List.filter_cons_of_neg (by simpa using hentry), ih, List.lookup_cons, hne]
    · rw [List.filter_cons_of_pos (by simpa using hentry), List.lookup_cons,
        List.lookup_cons, ih]

/-- Reads that are as they were have what they had before them, where the leases still held
have their records. -/
theorem Sound.ahead_of (h : Sound s) (hobserved : Observed s) {held : List ℕ}
    {records : List (ℕ × Record Path)}
    (hlookup : ∀ name ∈ s.heldNames, name ∈ held → ∀ record,
      s.records.lookup name = some record → records.lookup name = some record) :
    ∀ read ∈ s.reads, read.Ahead held records := by
  intro read hread
  have hahead := h.ahead read hread
  have hkept := hobserved.kept read hread
  unfold Read.Ahead at hahead ⊢
  cases hasking : read.asking with
  | listed todo =>
    rw [hasking] at hahead hkept
    exact fun kept hmem _ => hahead kept hmem (hkept rfl hmem)
  | opened name record todo =>
    rw [hasking] at hahead hkept
    intro kept hmem hheld
    rcases hahead kept hmem (hkept rfl hmem) with htodo | ⟨rfl, hrecord⟩
    · exact .inl htodo
    · exact .inr ⟨rfl, hlookup kept (hkept rfl hmem) hheld record hrecord⟩
  | probing name record todo =>
    rw [hasking] at hahead hkept
    exact fun kept hmem _ => hahead kept hmem (hkept rfl hmem)
  | answered found => trivial
  | gone => trivial

/-- After a step what is carried along is of the holds as they are. -/
theorem Sound.observed (h : Sound s) : Steady s.observed := by
  have hreads : ∀ read ∈ s.observed.reads, ∃ before ∈ s.reads, read.asking = before.asking ∧
      read.kept ⊆ before.kept ∧ (read.asking.live = true →
        read.kept ⊆ s.heldNames ∧ (read.free = true → s.holders = [])) := by
    intro read hread
    obtain ⟨before, hbefore, rfl⟩ := List.mem_map.mp hread
    refine ⟨before, hbefore, ?_⟩
    by_cases hlive : before.asking.live = true
    · rw [if_pos hlive]
      refine ⟨rfl, fun _ hmem => (List.mem_filter.mp hmem).1, fun _ => ⟨?_, ?_⟩⟩
      · intro kept hkept
        simpa using (List.mem_filter.mp hkept).2
      · intro hfree
        simpa using (Bool.and_eq_true_iff.mp hfree).2
    · rw [if_neg hlive]
      exact ⟨rfl, List.Subset.refl _, fun hlive' => absurd hlive' hlive⟩
  refine ⟨⟨h.distinct, h.holderUsed, h.recordUsed, h.locked, h.held, ?_⟩, ?_, ?_⟩
  · intro read hread
    obtain ⟨before, hbefore, hasking, hkept, -⟩ := hreads read hread
    have hahead := h.ahead before hbefore
    unfold Read.Ahead at hahead ⊢
    rw [hasking]
    cases hcase : before.asking with
    | listed todo =>
      rw [hcase] at hahead
      exact fun kept hmem => hahead kept (hkept hmem)
    | opened name record todo =>
      rw [hcase] at hahead
      exact fun kept hmem => hahead kept (hkept hmem)
    | probing name record todo =>
      rw [hcase] at hahead
      exact fun kept hmem => hahead kept (hkept hmem)
    | answered found => trivial
    | gone => trivial
  · intro read hread hlive
    obtain ⟨-, -, -, -, hof⟩ := hreads read hread
    exact (hof hlive).1
  · intro read hread hlive hfree
    obtain ⟨-, -, -, -, hof⟩ := hreads read hread
    exact (hof hlive).2 hfree

theorem mem_asks {index : ℕ} {asking : Asking Path} {read : Read Path}
    (h : read ∈ (s.asks index asking).reads) : read ∈ s.reads ∨
      ∃ before, s.reads[index]? = some before ∧ before ∈ s.reads ∧
        read = { before with asking := asking } := by
  obtain ⟨place, hplace⟩ := List.mem_iff_getElem?.mp h
  rw [World.asks, List.getElem?_modify] at hplace
  obtain ⟨before, hbefore, hread⟩ := Option.map_eq_some_iff.mp hplace
  by_cases hindex : index = place
  · subst hindex
    rw [if_pos rfl] at hread
    exact .inr ⟨before, hbefore, List.mem_of_getElem? hbefore, hread.symm⟩
  · rw [if_neg hindex] at hread
    exact .inl (hread ▸ List.mem_of_getElem? hbefore)

theorem Sound.asks (h : Sound s) {index : ℕ} {asking : Asking Path}
    (hahead : ∀ before ∈ s.reads, s.reads[index]? = some before →
      Read.Ahead s.heldNames s.records { before with asking := asking }) :
    Sound (s.asks index asking) := by
  refine ⟨h.distinct, h.holderUsed, h.recordUsed, h.locked, h.held, fun read hread => ?_⟩
  rcases mem_asks hread with hread | ⟨before, hbefore, hmem, rfl⟩
  · exact h.ahead read hread
  · exact hahead before hmem hbefore

theorem Sound.write (h : Sound s) (hobserved : Observed s) {s' : World Path}
    (hstep : Lease.write s name = some s') : Sound s' := by
  obtain ⟨holder, hfound, rfl⟩ := Option.map_eq_some_iff.mp hstep
  obtain ⟨hholder, rfl, hlocked⟩ := of_holderAt hfound
  have hnone := h.locked holder hholder hlocked
  have hother : ∀ other ∈ s.holders, other.name = holder.name → other = holder :=
    fun other hmem hname => h.eq_of_name hmem hholder hname
  refine ⟨by rw [names_staged]; exact h.distinct, ?_, ?_, ?_, ?_, ?_⟩
  · intro other hmem
    rcases mem_staged.mp hmem with ⟨hmem, -⟩ | ⟨before, hbefore, -, rfl⟩
    · exact h.holderUsed other hmem
    · exact h.holderUsed before hbefore
  · intro entry hentry
    rcases List.mem_append.mp hentry with hentry | hentry
    · exact h.recordUsed entry hentry
    · rw [List.mem_singleton.mp hentry]
      exact h.holderUsed holder hholder
  · intro other hmem hstage
    rcases mem_staged.mp hmem with ⟨hmem, hne⟩ | ⟨before, -, -, rfl⟩
    · rw [List.lookup_append, h.locked other hmem hstage]
      have hname : (other.name == holder.name) = false := beq_eq_false_iff_ne.mpr hne
      simp [List.lookup_cons, hname]
    · cases hstage
  · intro other hmem hstage
    rcases mem_staged.mp hmem with ⟨hmem, -⟩ | ⟨before, hbefore, hname, rfl⟩
    · exact lookup_append_of_some (h.held other hmem hstage) _
    · obtain rfl := hother before hbefore hname
      rw [List.lookup_append, hnone]
      simp
  · refine h.ahead_of hobserved ?_
    intro kept hheld _ record hrecord
    exact lookup_append_of_some hrecord _

theorem Sound.without (h : Sound s) (hobserved : Observed s) (name : ℕ) :
    Sound { s with holders := s.holders.filter fun holder => holder.name != name } := by
  refine ⟨?_, ?_, h.recordUsed, ?_, ?_, ?_⟩
  · exact h.distinct.sublist (List.filter_sublist.map _)
  · exact fun holder hmem => h.holderUsed holder (List.mem_filter.mp hmem).1
  · exact fun holder hmem => h.locked holder (List.mem_filter.mp hmem).1
  · exact fun holder hmem => h.held holder (List.mem_filter.mp hmem).1
  · exact h.ahead_of hobserved fun _ _ _ _ hrecord => hrecord

theorem Sound.remove (h : Sound s) (hobserved : Observed s) {s' : World Path}
    (hstep : Lease.remove s name = some s') : Sound s' := by
  obtain ⟨holder, hfound, rfl⟩ := Option.map_eq_some_iff.mp hstep
  obtain ⟨hholder, rfl, hheld⟩ := of_holderAt hfound
  refine ⟨by rw [names_staged]; exact h.distinct, ?_, ?_, ?_, ?_, ?_⟩
  · intro other hmem
    rcases mem_staged.mp hmem with ⟨hmem, -⟩ | ⟨before, hbefore, -, rfl⟩
    · exact h.holderUsed other hmem
    · exact h.holderUsed before hbefore
  · exact fun entry hentry => h.recordUsed entry (List.mem_filter.mp hentry).1
  · intro other hmem hstage
    rcases mem_staged.mp hmem with ⟨hmem, hne⟩ | ⟨before, -, -, rfl⟩
    · rw [lookup_filter_ne hne]
      exact h.locked other hmem hstage
    · cases hstage
  · intro other hmem hstage
    rcases mem_staged.mp hmem with ⟨hmem, hne⟩ | ⟨before, -, -, rfl⟩
    · rw [lookup_filter_ne hne]
      exact h.held other hmem hstage
    · cases hstage
  · refine h.ahead_of hobserved ?_
    intro kept _ hheld record hrecord
    -- A lease that is still held is not the one that went.
    have hne : kept ≠ holder.name := by
      rintro rfl
      obtain ⟨other, hmem, hstage, hname⟩ := mem_heldNames.mp hheld
      rcases mem_staged.mp hmem with ⟨-, hne⟩ | ⟨before, -, -, rfl⟩
      · exact hne hname
      · cases hstage
    rw [lookup_filter_ne hne]
    exact hrecord

theorem Sound.take [DecidableEq Path] (h : Sound s) {record : Record Path} {s' : World Path}
    (hstep : Lease.take s name record = some s') : Sound s' := by
  unfold Lease.take at hstep
  split at hstep
  · cases hstep
  · next hfresh =>
    split at hstep
    · obtain rfl := Option.some.inj hstep
      exact ⟨h.distinct, fun holder hmem => List.mem_cons_of_mem _ (h.holderUsed holder hmem),
        fun entry hmem => List.mem_cons_of_mem _ (h.recordUsed entry hmem), h.locked, h.held,
        h.ahead⟩
    · obtain rfl := Option.some.inj hstep
      have hsame : World.heldNames { s with
          used := name :: s.used
          holders := s.holders ++ [⟨name, record, .locked⟩] } = s.heldNames := by
        have hlocked : (Stage.locked == Stage.held) = false := rfl
        simp [World.heldNames, List.filter_append, hlocked]
      refine ⟨?_, ?_, ?_, ?_, ?_, ?_⟩
      · rw [List.map_append, List.map_singleton]
        refine List.nodup_append.mpr ⟨h.distinct, List.nodup_singleton _, ?_⟩
        rintro taken htaken other hother rfl
        obtain ⟨holder, hholder, rfl⟩ := List.mem_map.mp htaken
        have hname : holder.name = name := List.mem_singleton.mp hother
        exact hfresh (hname ▸ h.holderUsed holder hholder)
      · intro holder hmem
        rcases List.mem_append.mp hmem with hmem | hmem
        · exact List.mem_cons_of_mem _ (h.holderUsed holder hmem)
        · rw [List.mem_singleton.mp hmem]
          exact List.mem_cons_self
      · exact fun entry hmem => List.mem_cons_of_mem _ (h.recordUsed entry hmem)
      · intro holder hmem hstage
        rcases List.mem_append.mp hmem with hmem | hmem
        · exact h.locked holder hmem hstage
        · rw [List.mem_singleton.mp hmem]
          apply List.lookup_eq_none_iff.mpr
          intro entry hentry
          have hne : name ≠ entry.1 := fun hname => hfresh (hname ▸ h.recordUsed entry hentry)
          simpa using hne
      · intro holder hmem hstage
        rcases List.mem_append.mp hmem with hmem | hmem
        · exact h.held holder hmem hstage
        · rw [List.mem_singleton.mp hmem] at hstage
          cases hstage
      · rw [hsame]
        exact h.ahead

theorem Sound.list (h : Sound s) : Sound (Lease.list s) := by
  refine ⟨h.distinct, h.holderUsed, h.recordUsed, h.locked, h.held, fun read hread => ?_⟩
  rcases List.mem_append.mp hread with hread | hread
  · exact h.ahead read hread
  · rw [List.mem_singleton.mp hread]
    intro kept _ hheld
    obtain ⟨holder, hmem, hstage, rfl⟩ := mem_heldNames.mp hheld
    have hlookup := h.held holder hmem hstage
    have hentry : (holder.name, holder.record) ∈ s.records := by
      obtain ⟨before, after, hsplit, -⟩ := List.lookup_eq_some_iff.mp hlookup
      rw [hsplit]
      exact List.mem_append_right _ List.mem_cons_self
    rw [List.mem_insertionSort]
    exact List.mem_map_of_mem (f := Prod.fst) hentry

/-- What is listed is what has a record, least name first. -/
example : (Lease.list (⟨[], [(4, ⟨7, 8⟩), (2, ⟨7, 9⟩)], [4, 2], [], []⟩ : World ℕ)).reads.map
    Read.asking = [.listed [2, 4]] := by decide +kernel

theorem asking_of {index : ℕ} {asking : Asking Path} {before : Read Path}
    (h : s.reads[index]?.map Read.asking = some asking) (hbefore : s.reads[index]? = some before) :
    before.asking = asking := by
  rw [hbefore] at h
  exact Option.some.inj h

theorem Sound.look (h : Sound s) {index : ℕ} {s' : World Path}
    (hstep : Lease.look s index = some s') : Sound s' := by
  unfold Lease.look at hstep
  split at hstep
  · obtain rfl := Option.some.inj hstep
    exact h.asks fun _ _ _ => trivial
  · next name todo hasking =>
    have hlisted : ∀ before ∈ s.reads, s.reads[index]? = some before →
        ∀ kept ∈ before.kept, kept ∈ s.heldNames → kept ∈ name :: todo := by
      intro before hmem hbefore
      have hahead := h.ahead before hmem
      unfold Read.Ahead at hahead
      rwa [asking_of hasking hbefore] at hahead
    split at hstep
    · next record hrecord =>
      obtain rfl := Option.some.inj hstep
      refine h.asks fun before hmem hbefore kept hkept hheld => ?_
      rcases List.mem_cons.mp (hlisted before hmem hbefore kept hkept hheld) with rfl | htodo
      · exact .inr ⟨rfl, hrecord⟩
      · exact .inl htodo
    · next hgone =>
      obtain rfl := Option.some.inj hstep
      refine h.asks fun before hmem hbefore kept hkept hheld => ?_
      rcases List.mem_cons.mp (hlisted before hmem hbefore kept hkept hheld) with rfl | htodo
      -- A lease that is held has its record.
      · obtain ⟨holder, hholder, hstage, rfl⟩ := mem_heldNames.mp hheld
        cases hgone.symm.trans (h.held holder hholder hstage)
      · exact htodo
  · cases hstep

theorem Sound.probe [DecidableEq Path] (h : Sound s) {index : ℕ} {s' : World Path}
    (hstep : Lease.probe s index = some s') : Sound s' := by
  unfold Lease.probe at hstep
  split at hstep
  · next name record todo hasking =>
    split at hstep
    · obtain rfl := Option.some.inj hstep
      exact h.asks fun _ _ _ => trivial
    · next hfree =>
      obtain rfl := Option.some.inj hstep
      refine h.asks fun before hmem hbefore kept hkept hheld => ?_
      have hahead := h.ahead before hmem
      unfold Read.Ahead at hahead
      rw [asking_of hasking hbefore] at hahead
      rcases hahead kept hkept hheld with htodo | ⟨rfl, hrecord⟩
      · exact htodo
      -- A lease that is held has its run root's lock, which is then not free.
      · obtain ⟨holder, hholder, hstage, rfl⟩ := mem_heldNames.mp hheld
        have hsame : record = holder.record :=
          Option.some.inj (hrecord.symm.trans (h.held holder hholder hstage))
        exfalso
        apply hfree
        rw [Bool.or_eq_true]
        refine .inl (List.any_eq_true.mpr ⟨holder, hholder, ?_⟩)
        rw [hsame, beq_self_eq_true]
  · cases hstep

theorem Sound.release (h : Sound s) {index : ℕ} {s' : World Path}
    (hstep : Lease.release s index = some s') : Sound s' := by
  unfold Lease.release at hstep
  split at hstep
  · next todo hasking =>
    obtain rfl := Option.some.inj hstep
    refine h.asks fun before hmem hbefore => ?_
    have hahead := h.ahead before hmem
    unfold Read.Ahead at hahead
    rwa [asking_of hasking hbefore] at hahead
  · cases hstep

theorem Sound.act [DecidableEq Path] (h : Sound s) (hobserved : Observed s) {label : Label Path}
    {s' : World Path} (hstep : Lease.act s label = some s') : Sound s' := by
  cases label with
  | take name record => exact h.take hstep
  | write name => exact h.write hobserved hstep
  | remove name => exact h.remove hobserved hstep
  | unlock name =>
    obtain ⟨-, -, rfl⟩ := Option.map_eq_some_iff.mp hstep
    exact h.without hobserved name
  | die name =>
    simp only [Lease.act, Lease.die] at hstep
    split at hstep
    · obtain rfl := Option.some.inj hstep
      exact h.without hobserved name
    · cases hstep
  | list =>
    obtain rfl := Option.some.inj hstep
    exact h.list
  | look index => exact h.look hstep
  | probe index => exact h.probe hstep
  | release index => exact h.release hstep
  | leave index =>
    simp only [Lease.act, Lease.leave] at hstep
    split at hstep
    · obtain rfl := Option.some.inj hstep
      exact h.asks fun _ _ _ => trivial
    · cases hstep

/-! ### What a step makes of the answers -/

theorem right_observed : Right s.observed ↔ Right s := by
  have hreads : (∀ read ∈ s.observed.reads, read.Right) ↔ ∀ read ∈ s.reads, read.Right := by
    have hone : ∀ read : Read Path, (if read.asking.live then
        { read with
          kept := read.kept.filter (s.heldNames.contains ·)
          free := read.free && s.holders.isEmpty }
        else read : Read Path).Right ↔ read.Right := by
      intro read
      by_cases hlive : read.asking.live = true
      · rw [if_pos hlive]
        refine iff_of_true ?_ ?_ <;>
          exact fun found hfound => by
            have hanswered : read.asking = .answered found := hfound
            rw [hanswered] at hlive
            cases hlive
      · rw [if_neg hlive]
    unfold World.observed
    simp only [List.forall_mem_map, hone]
  exact ⟨fun h => ⟨hreads.mp h.reads, h.refused⟩, fun h => ⟨hreads.mpr h.reads, h.refused⟩⟩

theorem right_asks (h : Right s) {index : ℕ} {asking : Asking Path} {before : Read Path}
    (hbefore : s.reads[index]? = some before) : Right (s.asks index asking) ↔
      Read.Right { before with asking := asking } := by
  constructor
  · intro hright
    apply hright.reads
    apply List.mem_of_getElem? (i := index)
    rw [World.asks, List.getElem?_modify_eq, hbefore]
    rfl
  · intro hone
    refine ⟨fun read hread => ?_, h.refused⟩
    rcases mem_asks hread with hread | ⟨other, hother, -, rfl⟩
    · exact h.reads read hread
    · obtain rfl := Option.some.inj (hbefore.symm.trans hother)
      exact hone

theorem right_of_not_answered {read : Read Path} (h : ∀ found, read.asking ≠ .answered found) :
    read.Right := fun found hfound => absurd hfound (h found)

/-- A step keeps every read right and refuses no publication exactly where it meets the
condition. -/
theorem right_act_iff [DecidableEq Path] (h : Sound s) (hobserved : Observed s) (hright : Right s)
    {label : Label Path} {s' : World Path} (hstep : Lease.act s label = some s') :
    Right s' ↔ Apart s label := by
  cases label with
  | take name record =>
    simp only [Lease.act, Lease.take] at hstep
    split at hstep
    · cases hstep
    · next hfresh =>
      split at hstep
      · next hexclusive =>
        obtain rfl := Option.some.inj hstep
        refine iff_of_false (fun hkept => ?_) (fun hapart => ?_)
        · cases hkept.refused
        · simp [Apart, apart, hfresh, hexclusive] at hapart
      · next hexclusive =>
        obtain rfl := Option.some.inj hstep
        refine iff_of_true ⟨hright.reads, hright.refused⟩ ?_
        simp [Apart, apart, hexclusive]
  | write name =>
    obtain ⟨-, -, rfl⟩ := Option.map_eq_some_iff.mp hstep
    exact iff_of_true ⟨hright.reads, hright.refused⟩ rfl
  | remove name =>
    obtain ⟨-, -, rfl⟩ := Option.map_eq_some_iff.mp hstep
    exact iff_of_true ⟨hright.reads, hright.refused⟩ rfl
  | unlock name =>
    obtain ⟨-, -, rfl⟩ := Option.map_eq_some_iff.mp hstep
    exact iff_of_true ⟨hright.reads, hright.refused⟩ rfl
  | die name =>
    simp only [Lease.act, Lease.die] at hstep
    split at hstep
    · obtain rfl := Option.some.inj hstep
      exact iff_of_true ⟨hright.reads, hright.refused⟩ rfl
    · cases hstep
  | list =>
    obtain rfl := Option.some.inj hstep
    refine iff_of_true ⟨fun read hread => ?_, hright.refused⟩ rfl
    rcases List.mem_append.mp hread with hread | hread
    · exact hright.reads read hread
    · rw [List.mem_singleton.mp hread]
      exact right_of_not_answered fun found hfound => by cases hfound
  | look index =>
    refine iff_of_true ?_ rfl
    simp only [Lease.act, Lease.look] at hstep
    obtain ⟨before, hbefore⟩ : ∃ before, s.reads[index]? = some before := by
      cases hread : s.reads[index]? with
      | none => rw [hread] at hstep; cases hstep
      | some before => exact ⟨before, rfl⟩
    split at hstep
    · next hasking =>
      obtain rfl := Option.some.inj hstep
      refine (right_asks hright hbefore).mpr fun found hfound => ?_
      obtain rfl := Asking.answered.inj hfound
      -- Nothing is left to look at, so no lease was held throughout.
      have hmem := List.mem_of_getElem? hbefore
      have hasks := asking_of hasking hbefore
      have hahead := h.ahead before hmem
      have hkept := hobserved.kept before hmem (by rw [hasks]; rfl)
      unfold Read.Ahead at hahead
      rw [hasks] at hahead
      refine ⟨fun hsome => ?_, fun _ => rfl⟩
      obtain ⟨kept, hmem⟩ := List.exists_mem_of_ne_nil _ hsome
      cases hahead kept hmem (hkept hmem)
    · split at hstep
      · obtain rfl := Option.some.inj hstep
        exact (right_asks hright hbefore).mpr
          (right_of_not_answered fun found hfound => by cases hfound)
      · obtain rfl := Option.some.inj hstep
        exact (right_asks hright hbefore).mpr
          (right_of_not_answered fun found hfound => by cases hfound)
    · cases hstep
  | probe index =>
    simp only [Lease.act, Lease.probe] at hstep
    obtain ⟨before, hbefore⟩ : ∃ before, s.reads[index]? = some before := by
      cases hread : s.reads[index]? with
      | none => rw [hread] at hstep; cases hstep
      | some before => exact ⟨before, rfl⟩
    split at hstep
    · next name record todo hasking =>
      have hasks := asking_of hasking hbefore
      have hapart : Apart s (.probe index) ↔
          (before.free = true → s.exclusive record.runRoot = false) := by
        obtain ⟨asking, kept, free⟩ := before
        obtain rfl : asking = .opened name record todo := hasks
        simp only [Apart, apart, hbefore]
        cases free <;> simp
      rw [hapart]
      split at hstep
      · next hheld =>
        obtain rfl := Option.some.inj hstep
        rw [right_asks hright hbefore]
        constructor
        · intro hread hfree
          cases (hread _ rfl).2 hfree
        · intro hapart found hfound
          obtain rfl := Asking.answered.inj hfound
          refine ⟨fun _ => rfl, fun hfree => ?_⟩
          -- With no hold at all the lock is only another reader's.
          have hnone := hobserved.free before (List.mem_of_getElem? hbefore)
            (by rw [hasks]; rfl) hfree
          rw [World.shared, hnone, hapart hfree] at hheld
          cases hheld
      · next hfree =>
        obtain rfl := Option.some.inj hstep
        rw [Bool.or_eq_true, not_or] at hfree
        exact iff_of_true ((right_asks hright hbefore).mpr
          (right_of_not_answered fun found hfound => by cases hfound))
          fun _ => Bool.eq_false_iff.mpr hfree.2
    · cases hstep
  | release index =>
    refine iff_of_true ?_ rfl
    simp only [Lease.act, Lease.release] at hstep
    split at hstep
    · next hasking =>
      obtain rfl := Option.some.inj hstep
      obtain ⟨before, hbefore, -⟩ := Option.map_eq_some_iff.mp hasking
      exact (right_asks hright hbefore).mpr
        (right_of_not_answered fun found hfound => by cases hfound)
    · cases hstep
  | leave index =>
    refine iff_of_true ?_ rfl
    simp only [Lease.act, Lease.leave] at hstep
    split at hstep
    · next hlt =>
      obtain rfl := Option.some.inj hstep
      exact (right_asks hright (List.getElem?_eq_getElem hlt)).mpr
        (right_of_not_answered fun found hfound => by cases hfound)
    · cases hstep

theorem apart_of_none [DecidableEq Path] {label : Label Path} (h : Lease.act s label = none) :
    Apart s label := by
  cases label with
  | take name record =>
    simp only [Lease.act, Lease.take] at h
    split at h
    · next hused => simp [Apart, apart, hused]
    · split at h <;> cases h
  | probe index =>
    simp only [Lease.act, Lease.probe] at h
    rcases hread : s.reads[index]? with _ | ⟨asking, kept, free⟩
    · simp [Apart, apart, hread]
    · cases asking with
      | opened name record todo =>
        simp only [hread, Option.map_some] at h
        split at h <;> cases h
      | listed todo => simp [Apart, apart, hread]
      | probing name record todo => simp [Apart, apart, hread]
      | answered found => simp [Apart, apart, hread]
      | gone => simp [Apart, apart, hread]
  | _ => rfl

end Steps

variable [DecidableEq Path]

omit [DecidableEq Path] in
theorem Initial.steady {s : World Path} (h : Initial s) : Steady s := by
  refine ⟨⟨?_, ?_, h.used, ?_, ?_, ?_⟩, ⟨?_, ?_⟩⟩
  · rw [h.holders]
    exact List.nodup_nil
  all_goals simp [h.holders, h.reads]

/-- A dead publication's record, and nothing else. -/
def abandoned : World ℕ := ⟨[], [(0, ⟨7, 8⟩)], [0], [], []⟩

theorem abandoned_initial : Initial abandoned := ⟨rfl, rfl, rfl, by decide⟩

end Lease

end Onevcs.Publish
