import Mathlib.Data.List.Nodup
import Onevcs.Export.Target
import Onevcs.Foundations.Outcome

/-!
# What an export changes

The tree an export writes is the base's with the exported directory put at the target directory, so
it holds the exported files beneath the target, and every other entry of the base as it was; except
that a leading segment of the target which the base has as a file, a link or a submodule makes way
for a directory, where the export should have been refused.
-/

namespace Onevcs.Export

open Foundations (Text PathEntry PathLevel bind_eq_ok)
open Foundations.PathLevel

section Building

variable {β : Type} {validName : Text → Bool}

theorem insertEntry_ok {said name : Text} {entry : PathEntry Text (Item β)} {tree after : Tree β}
    (h : insertEntry validName said name entry tree = .ok after) : after = tree.set name entry := by
  unfold insertEntry at h
  split at h
  · exact (Except.ok.inj h).symm
  · cases h

theorem place_ok {exported base tree : Tree β} {target : List Text}
    (h : place validName exported target base = .ok tree) :
    tree = graft exported target base := by
  induction target generalizing base tree with
  | nil => exact (Except.ok.inj h).symm
  | cons first rest ih =>
    obtain ⟨child, hchild, h⟩ := bind_eq_ok.mp h
    rw [insertEntry_ok h, ih hchild, graft]
    rfl

namespace Node

def files : Node β → List (Text × Item β) | ⟨files, _⟩ => files

def directories : Node β → List (Text × Node β) | ⟨_, directories⟩ => directories

variable {name other : Text} {change : Node β → Node β} {directories : List (Text × Node β)}

theorem lookup_enter_self : (enter name change directories).lookup name =
    some (change ((directories.lookup name).getD empty)) := by
  induction directories with
  | nil => simp [enter]
  | cons entry rest ih =>
    obtain ⟨first, node⟩ := entry
    rw [enter]
    split
    · next heq => simp [heq]
    · next hne =>
      rw [List.lookup_cons, List.lookup_cons, beq_eq_false_iff_ne.mpr (Ne.symm hne)]
      exact ih

theorem lookup_enter_of_ne (h : other ≠ name) :
    (enter name change directories).lookup other = directories.lookup other := by
  induction directories with
  | nil => simp [enter, h]
  | cons entry rest ih =>
    obtain ⟨first, node⟩ := entry
    rw [enter]
    split
    · next heq => rw [List.lookup_cons, List.lookup_cons, beq_eq_false_iff_ne.mpr (heq ▸ h)]
    · rw [List.lookup_cons, List.lookup_cons, ih]

theorem mem_names_enter (h : other ∈ (enter name change directories).map Prod.fst) :
    other = name ∨ other ∈ directories.map Prod.fst := by
  induction directories with
  | nil => exact .inl (by simpa [enter] using h)
  | cons entry rest ih =>
    obtain ⟨first, node⟩ := entry
    rw [enter] at h
    split at h
    · exact .inr h
    · rw [List.map_cons, List.mem_cons] at h
      rcases h with rfl | h
      · exact .inr List.mem_cons_self
      · exact (ih h).imp_right (List.mem_cons_of_mem _)

theorem nodup_enter (h : (directories.map Prod.fst).Nodup) :
    ((enter name change directories).map Prod.fst).Nodup := by
  induction directories with
  | nil => simp [enter]
  | cons entry rest ih =>
    obtain ⟨first, node⟩ := entry
    rw [List.map_cons, List.nodup_cons] at h
    rw [enter]
    split
    · exact List.nodup_cons.mpr h
    · next hne =>
      refine List.nodup_cons.mpr ⟨fun hmem => ?_, ih h.2⟩
      exact (mem_names_enter hmem).elim hne h.1

end Node

/-- The directory built from items under paths. -/
def built (items : List (List Text × Item β)) : Node β :=
  items.foldl (fun root entry => root.insert entry.2 entry.1) Node.empty

/-- The items that are files of the directory itself. -/
def heads (items : List (List Text × Item β)) : List (Text × Item β) :=
  items.filterMap fun entry =>
    match entry.1 with
    | [name] => some (name, entry.2)
    | _ => none

/-- The items beneath one of its subdirectories. -/
def tails (name : Text) (items : List (List Text × Item β)) : List (List Text × Item β) :=
  items.filterMap fun entry =>
    match entry.1 with
    | first :: next :: rest => if first = name then some (next :: rest, entry.2) else none
    | _ => none

variable {items : List (List Text × Item β)} {name : Text} {item : Item β} {path : List Text}

theorem mem_heads : (name, item) ∈ heads items ↔ ([name], item) ∈ items := by
  rw [heads, List.mem_filterMap]
  constructor
  · rintro ⟨⟨path, found⟩, hmem, h⟩
    match path, h with
    | [_], h =>
      obtain ⟨rfl, rfl⟩ := Prod.mk.inj (Option.some.inj h)
      exact hmem
  · intro hmem
    exact ⟨([name], item), hmem, rfl⟩

theorem mem_tails : (path, item) ∈ tails name items ↔ path ≠ [] ∧ (name :: path, item) ∈ items := by
  rw [tails, List.mem_filterMap]
  constructor
  · rintro ⟨⟨whole, found⟩, hmem, h⟩
    match whole, h with
    | first :: next :: rest, h =>
      dsimp only at h
      split at h
      · next heq =>
        obtain ⟨rfl, rfl⟩ := Prod.mk.inj (Option.some.inj h)
        exact ⟨List.cons_ne_nil _ _, heq ▸ hmem⟩
      · cases h
  · rintro ⟨hne, hmem⟩
    cases path with
    | nil => exact absurd rfl hne
    | cons next rest => exact ⟨_, hmem, if_pos rfl⟩

theorem built_concat (items : List (List Text × Item β)) (entry : List Text × Item β) :
    built (items ++ [entry]) = (built items).insert entry.2 entry.1 := by
  rw [built, List.foldl_append]
  rfl

theorem files_built (items : List (List Text × Item β)) : (built items).files = heads items := by
  induction items using List.reverseRecOn with
  | nil => rfl
  | append_singleton items entry ih =>
    obtain ⟨path, item⟩ := entry
    rw [built_concat, heads, List.filterMap_append]
    change _ = heads items ++ _
    rw [← ih]
    cases hbuilt : built items with
    | mk files directories =>
      match path with
      | [] => simp [Node.insert, Node.files]
      | [_] => rfl
      | _ :: _ :: _ => simp [Node.insert, Node.files]

theorem nodup_built (items : List (List Text × Item β)) :
    ((built items).directories.map Prod.fst).Nodup := by
  induction items using List.reverseRecOn with
  | nil => exact List.nodup_nil
  | append_singleton items entry ih =>
    obtain ⟨path, item⟩ := entry
    rw [built_concat]
    cases hbuilt : built items with
    | mk files directories =>
      rw [hbuilt] at ih
      match path with
      | [] => exact ih
      | [_] => exact ih
      | _ :: _ :: _ => exact Node.nodup_enter ih

/-- A subdirectory is built from what is beneath it, and is there where anything is. -/
theorem lookup_built (items : List (List Text × Item β)) (name : Text) :
    (built items).directories.lookup name =
      if (tails name items).isEmpty then none else some (built (tails name items)) := by
  induction items using List.reverseRecOn with
  | nil => rfl
  | append_singleton items entry ih =>
    obtain ⟨path, item⟩ := entry
    have htails : tails name (items ++ [(path, item)]) = tails name items ++
        match path with
        | first :: next :: rest => if first = name then [(next :: rest, item)] else []
        | _ => [] := by
      rw [tails, List.filterMap_append]
      congr 1
      match path with
      | [] => rfl
      | [_] => rfl
      | first :: next :: rest => by_cases heq : first = name <;> simp [heq]
    rw [built_concat]
    cases hbuilt : built items with
    | mk files directories =>
      rw [hbuilt] at ih
      match path with
      | [] =>
        rw [htails, List.append_nil]
        exact ih
      | [_] =>
        rw [htails, List.append_nil]
        exact ih
      | first :: next :: rest =>
        by_cases heq : first = name
        · subst heq
          have hbefore : (directories.lookup first).getD Node.empty =
              built (tails first items) := by
            change List.lookup first directories = _ at ih
            rw [ih]
            cases tails first items <;> rfl
          dsimp only at htails
          rw [if_pos rfl] at htails
          rw [htails, built_concat]
          refine Node.lookup_enter_self.trans ?_
          rw [hbefore]
          simp
        · dsimp only at htails
          rw [if_neg heq, List.append_nil] at htails
          rw [htails]
          exact (Node.lookup_enter_of_ne (Ne.symm heq)).trans ih

/-! ## Writing what was built -/

theorem lookup_writeFiles_of_not_mem {files : List (Text × Item β)} {tree after : Tree β}
    (h : writeFiles validName files tree = .ok after) (hname : name ∉ files.map Prod.fst) :
    entryAt [name] after = entryAt [name] tree := by
  induction files generalizing tree with
  | nil =>
    obtain rfl := Except.ok.inj h
    rfl
  | cons first rest ih =>
    obtain ⟨next, hnext, h⟩ := bind_eq_ok.mp h
    rw [List.map_cons, List.mem_cons, not_or] at hname
    rw [ih h hname.2, insertEntry_ok hnext]
    exact lookup_set_of_ne hname.1

theorem lookup_writeFiles_of_mem {files : List (Text × Item β)} {tree after : Tree β}
    (h : writeFiles validName files tree = .ok after) (hname : name ∈ files.map Prod.fst) :
    ∃ item, (name, item) ∈ files ∧ entryAt [name] after = some (.leaf item) := by
  induction files generalizing tree with
  | nil => cases hname
  | cons first rest ih =>
    obtain ⟨next, hnext, h⟩ := bind_eq_ok.mp h
    by_cases hrest : name ∈ rest.map Prod.fst
    · obtain ⟨item, hmem, hentry⟩ := ih h hrest
      exact ⟨item, List.mem_cons_of_mem _ hmem, hentry⟩
    · obtain rfl : name = first.1 := by
        rw [List.map_cons, List.mem_cons] at hname
        exact hname.resolve_right hrest
      refine ⟨first.2, List.mem_cons_self, ?_⟩
      rw [lookup_writeFiles_of_not_mem h hrest, insertEntry_ok hnext]
      exact lookup_set_self

theorem lookup_writeDirectories (name : Text) {directories : List (Text × Node β)}
    {tree after : Tree β}
    (hnodup : (directories.map Prod.fst).Nodup)
    (h : writeDirectories validName directories tree = .ok after) :
    match directories.lookup name with
    | none => entryAt [name] after = entryAt [name] tree
    | some node => ∃ below, node.write validName = .ok below ∧
        entryAt [name] after = some (.node below) := by
  induction directories generalizing tree with
  | nil =>
    rw [writeDirectories] at h
    obtain rfl := Except.ok.inj h
    rfl
  | cons first rest ih =>
    obtain ⟨other, node⟩ := first
    rw [List.map_cons, List.nodup_cons] at hnodup
    rw [writeDirectories] at h
    obtain ⟨below, hbelow, h⟩ := bind_eq_ok.mp h
    obtain ⟨next, hnext, h⟩ := bind_eq_ok.mp h
    have hrest := ih hnodup.2 h
    rw [List.lookup_cons]
    by_cases heq : name = other
    · subst heq
      rw [beq_self_eq_true]
      have hnone : rest.lookup name = none :=
        List.lookup_eq_none_iff.mpr fun entry hentry =>
          bne_iff_ne.mpr fun hname => hnodup.1 (List.mem_map.mpr ⟨entry, hentry, hname.symm⟩)
      rw [hnone] at hrest
      refine ⟨below, hbelow, ?_⟩
      rw [hrest, insertEntry_ok hnext]
      exact lookup_set_self
    · rw [beq_eq_false_iff_ne.mpr heq]
      have hsame : entryAt [name] next = entryAt [name] tree := by
        rw [insertEntry_ok hnext]
        exact lookup_set_of_ne heq
      rw [hsame] at hrest
      exact hrest

/-- No path is on the way to another, and none is listed with two items. -/
def Consistent (items : List (List Text × Item β)) : Prop :=
  ∀ entry ∈ items, ∀ other ∈ items, entry.1 <+: other.1 → entry = other

theorem entryAt_write_built (name : Text) {tree : Tree β} (h : (built items).write validName = .ok tree) :
    (tails name items ≠ [] ∧ ∃ below, (built (tails name items)).write validName = .ok below ∧
        entryAt [name] tree = some (.node below)) ∨
      (tails name items = [] ∧ ∃ item, ([name], item) ∈ items ∧
        entryAt [name] tree = some (.leaf item)) ∨
      (tails name items = [] ∧ (∀ item, ([name], item) ∉ items) ∧ entryAt [name] tree = none) := by
  have hfiles := files_built items
  have hnodup := nodup_built items
  have hlookup := lookup_built items name
  cases hbuilt : built items with
  | mk files directories =>
    rw [hbuilt] at h hfiles hnodup hlookup
    rw [Node.write] at h
    obtain ⟨level, hlevel, h⟩ := bind_eq_ok.mp h
    have hentry := lookup_writeDirectories name hnodup h
    change files = heads items at hfiles
    rw [hlookup] at hentry
    by_cases htails : tails name items = []
    · rw [htails] at hentry
      simp only [List.isEmpty_nil, if_true] at hentry
      right
      by_cases hmem : name ∈ files.map Prod.fst
      · left
        obtain ⟨item, hitem, hleaf⟩ := lookup_writeFiles_of_mem hlevel hmem
        rw [hfiles] at hitem
        exact ⟨htails, item, mem_heads.mp hitem, hentry.trans hleaf⟩
      · right
        refine ⟨htails, fun item hitem => hmem ?_,
          hentry.trans (lookup_writeFiles_of_not_mem hlevel hmem)⟩
        rw [hfiles]
        exact List.mem_map_of_mem (f := Prod.fst) (mem_heads.mpr hitem)
    · rw [if_neg (by simpa using htails)] at hentry
      exact .inl ⟨htails, hentry⟩

theorem mem_of_leafAt_written {tree : Tree β} (h : (built items).write validName = .ok tree)
    (hleaf : leafAt path tree = some item) : (path, item) ∈ items := by
  induction path generalizing items tree with
  | nil => cases hleaf
  | cons name rest ih =>
    rw [leafAt_cons] at hleaf
    rcases entryAt_write_built name h with
      ⟨-, below, hbelow, hentry⟩ | ⟨-, found, hfound, hentry⟩ | ⟨-, -, hentry⟩
    · rw [hentry] at hleaf
      exact (mem_tails.mp (ih hbelow hleaf)).2
    · rw [hentry] at hleaf
      dsimp only at hleaf
      split at hleaf
      · next hempty =>
        obtain rfl := List.isEmpty_iff.mp hempty
        obtain rfl := Option.some.inj hleaf
        exact hfound
      · cases hleaf
    · rw [hentry] at hleaf
      cases hleaf

theorem Consistent.tails (h : Consistent items) (name : Text) : Consistent (tails name items) := by
  intro entry hentry other hother hlead
  have hsame := h _ (mem_tails.mp hentry).2 _ (mem_tails.mp hother).2
    (List.cons_prefix_cons.mpr ⟨rfl, hlead⟩)
  obtain ⟨hpath, hitem⟩ := Prod.mk.inj hsame
  exact Prod.ext (List.cons.inj hpath).2 hitem

/-- What was listed is what the tree written has, where no path is on the way to another. -/
theorem leafAt_written {tree : Tree β} (h : (built items).write validName = .ok tree)
    (hconsistent : Consistent items) (hpath : path ≠ []) (hmem : (path, item) ∈ items) :
    leafAt path tree = some item := by
  induction path generalizing items tree with
  | nil => exact absurd rfl hpath
  | cons name rest ih =>
    rw [leafAt_cons]
    rcases entryAt_write_built name h with
      ⟨htails, below, hbelow, hentry⟩ | ⟨htails, found, hfound, hentry⟩ | ⟨htails, hnone, hentry⟩
    · rw [hentry]
      by_cases hrest : rest = []
      · subst hrest
        obtain ⟨⟨next, other⟩, hother⟩ := List.exists_mem_of_ne_nil _ htails
        obtain ⟨hnext, hother⟩ := mem_tails.mp hother
        have hsame := hconsistent _ hmem _ hother ⟨next, rfl⟩
        exact absurd (List.cons.inj (Prod.mk.inj hsame).1).2.symm hnext
      · exact ih hbelow (hconsistent.tails name) hrest (mem_tails.mpr ⟨hrest, hmem⟩)
    all_goals
      obtain rfl : rest = [] := by
        by_contra hrest
        exact List.ne_nil_of_mem (mem_tails.mpr ⟨hrest, hmem⟩) htails
    · have hsame := hconsistent _ hmem _ hfound (List.prefix_refl _)
      rw [hentry, (Prod.mk.inj hsame).2]
      rfl
    · exact absurd hmem (hnone item)

/-- The tree written has exactly what was listed, exactly where no path is on the way to another. -/
theorem leafAt_written_iff {tree : Tree β} (h : (built items).write validName = .ok tree)
    (hpaths : ∀ entry ∈ items, entry.1 ≠ []) :
    (∀ path item, leafAt path tree = some item ↔ (path, item) ∈ items) ↔ Consistent items := by
  constructor
  · intro hexact entry hentry other hother ⟨more, hmore⟩
    have hleaf := (hexact entry.1 entry.2).mpr hentry
    have hbelow := (hexact other.1 other.2).mpr hother
    by_cases hnil : more = []
    · subst hnil
      rw [List.append_nil] at hmore
      rw [← hmore, hleaf] at hbelow
      exact Prod.ext hmore (Option.some.inj hbelow)
    · rw [← hmore, leafAt_append_of_leaf hleaf hnil] at hbelow
      cases hbelow
  · intro hconsistent path item
    exact ⟨mem_of_leafAt_written h, fun hmem =>
      leafAt_written h hconsistent (hpaths _ hmem) hmem⟩

end Building

section Writing

variable {κ β ω : Type} [DecidableEq ω]

/-- The tree has exactly the files beneath the target, and every other entry as the base has it. -/
structure Confined (base : Tree β) (target : List Text) (files : List (File β)) (tree : Tree β) :
    Prop where
  beneath : ∀ path item, leafAt (target ++ path) tree = some item ↔
    ∃ file ∈ files, file.path = path ∧ file.item = item
  elsewhere : ∀ path, ¬ target <+: path → leafAt path tree = leafAt path base
  apart : ∀ path, ¬ target <+: path → ¬ path <+: target → entryAt path tree = entryAt path base

def listed (files : List (File β)) : List (List Text × Item β) :=
  files.map fun file => (file.path, file.item)

theorem confined_iff {validName : Text → Bool} {base exported tree : Tree β} {target : List Text}
    {files : List (File β)} (hbuilt : (built (listed files)).write validName = .ok exported)
    (hplaced : place validName exported target base = .ok tree) :
    Confined base target files tree ↔ blocked target base = false ∧ Consistent (listed files) := by
  obtain rfl := place_ok hplaced
  have hlisted : ∀ path item, (path, item) ∈ listed files ↔
      ∃ file ∈ files, file.path = path ∧ file.item = item := by
    intro path item
    simp [listed]
  have hexact := leafAt_written_iff hbuilt fun entry hentry => by
    obtain ⟨file, -, rfl⟩ := List.mem_map.mp hentry
    exact file.named
  constructor
  · intro h
    refine ⟨?_, hexact.mp fun path item => ?_⟩
    · rw [← Bool.not_eq_true]
      intro hblocked
      obtain ⟨path, item, hlead, hne, hleaf, hlost⟩ := exists_lost exported hblocked
      have hbeneath : ¬ target <+: path := fun hunder =>
        hne (hlead.eq_of_length_le hunder.length_le)
      rw [h.elsewhere path hbeneath, hleaf] at hlost
      cases hlost
    · rw [hlisted, ← h.beneath path item, leafAt_graft_append]
  · rintro ⟨hfree, hconsistent⟩
    refine ⟨fun path item => ?_, fun path => leafAt_graft hfree, fun path => entryAt_graft⟩
    rw [leafAt_graft_append, hexact.mpr hconsistent, hlisted]

omit [DecidableEq ω] in
theorem consistent_prepare (destination : Destination κ β ω) {files : List (File β)}
    (h : Consistent (listed files)) : Consistent (listed (files.map destination.prepare)) := by
  have hpath : ∀ file : File β, (destination.prepare file).path = file.path := by
    intro file
    unfold Destination.prepare
    split <;> rfl
  intro entry hentry other hother hlead
  obtain ⟨prepared, hprepared, rfl⟩ := List.mem_map.mp hentry
  obtain ⟨file, hfile, rfl⟩ := List.mem_map.mp hprepared
  obtain ⟨prepared', hprepared', rfl⟩ := List.mem_map.mp hother
  obtain ⟨file', hfile', rfl⟩ := List.mem_map.mp hprepared'
  dsimp only at hlead
  rw [hpath, hpath] at hlead
  have hsame := h _ (List.mem_map_of_mem (f := fun file : File β => (file.path, file.item)) hfile)
    _ (List.mem_map_of_mem (f := fun file : File β => (file.path, file.item)) hfile') hlead
  obtain ⟨hsamePath, hitem⟩ := Prod.mk.inj hsame
  obtain ⟨hexecutable, hcontents⟩ := Item.file.inj hitem
  obtain rfl : file = file' := by
    cases file
    cases file'
    simp_all
  rfl

end Writing

section Collecting

variable {β : Type}

theorem Consistent.append {items others : List (List Text × Item β)} (h : Consistent items)
    (hothers : Consistent others) (hapart : ∀ entry ∈ items, ∀ other ∈ others,
      ¬ entry.1 <+: other.1 ∧ ¬ other.1 <+: entry.1) : Consistent (items ++ others) := by
  intro entry hentry other hother hlead
  rcases List.mem_append.mp hentry with hentry | hentry
  · rcases List.mem_append.mp hother with hother | hother
    · exact h entry hentry other hother hlead
    · exact absurd hlead (hapart entry hentry other hother).1
  · rcases List.mem_append.mp hother with hother | hother
    · exact absurd hlead (hapart other hother entry hentry).2
    · exact hothers entry hentry other hother hlead

theorem name_unique {above path : List Text} {name other : Text} (h : above ++ [name] <+: path)
    (hother : above ++ [other] <+: path) : name = other := by
  have hsame := List.prefix_of_prefix_length_le h hother (by simp)
  have heq := hsame.eq_of_length (by simp)
  simpa using heq

mutual

theorem collectEntry_consistent {above : List Text} {name : Text} {files : List (File β)} :
    (entry : PathEntry Text (Item β)) → entry.Distinct →
      collectEntry above name entry = .ok files →
      Consistent (listed files) ∧ ∀ file ∈ files, above ++ [name] <+: file.path
  | .leaf (.file executable contents), _, h => by
    rw [collectEntry] at h
    obtain rfl := Except.ok.inj h
    refine ⟨fun entry hentry other hother _ => ?_, fun file hfile => ?_⟩
    · rw [List.mem_singleton.mp hentry, List.mem_singleton.mp hother]
    · rw [List.mem_singleton.mp hfile]
  | .leaf (.link _), _, h => by
    rw [collectEntry] at h
    cases h
  | .leaf .submodule, _, h => by
    rw [collectEntry] at h
    cases h
  | .leaf .unknown, _, h => by
    rw [collectEntry] at h
    cases h
  | .leaf .lost, _, h => by
    rw [collectEntry] at h
    cases h
  | .node level, hdistinct, h => by
    rw [collectEntry] at h
    rw [PathEntry.Distinct] at hdistinct
    obtain ⟨hconsistent, hunder⟩ := collect_consistent level hdistinct h
    refine ⟨hconsistent, fun file hfile => ?_⟩
    obtain ⟨inner, -, hlead⟩ := hunder file hfile
    exact (List.prefix_append _ _).trans hlead

/-- What `collect` lists is consistent: each file is beneath a name of its own. -/
theorem collect_consistent {above : List Text} {files : List (File β)} :
    (tree : Tree β) → PathLevel.Distinct tree → collect above tree = .ok files →
      Consistent (listed files) ∧
        ∀ file ∈ files, ∃ name ∈ tree.map Prod.fst, above ++ [name] <+: file.path
  | [], _, h => by
    rw [collect] at h
    obtain rfl := Except.ok.inj h
    exact ⟨fun entry hentry => (nomatch hentry), fun file hfile => (nomatch hfile)⟩
  | (name, entry) :: rest, hdistinct, h => by
    rw [collect] at h
    obtain ⟨here, hhere, h⟩ := bind_eq_ok.mp h
    obtain ⟨others, hothers, h⟩ := bind_eq_ok.mp h
    obtain rfl := Except.ok.inj h
    rw [PathLevel.Distinct] at hdistinct
    obtain ⟨hname, hentry, hrest⟩ := hdistinct
    obtain ⟨hconsistent, hunder⟩ := collectEntry_consistent entry hentry hhere
    obtain ⟨hconsistent', hunder'⟩ := collect_consistent rest hrest hothers
    constructor
    · rw [listed, List.map_append]
      refine hconsistent.append hconsistent' fun item hitem other hother => ?_
      obtain ⟨file, hfile, rfl⟩ := List.mem_map.mp hitem
      obtain ⟨file', hfile', rfl⟩ := List.mem_map.mp hother
      obtain ⟨name', hname', hlead'⟩ := hunder' file' hfile'
      have hlead := hunder file hfile
      have hne : name ≠ name' := fun heq => hname (heq ▸ hname')
      exact ⟨fun hunder => hne (name_unique (hlead.trans hunder) hlead'),
        fun hunder => hne (name_unique hlead (hlead'.trans hunder))⟩
    · intro file hfile
      rcases List.mem_append.mp hfile with hfile | hfile
      · exact ⟨name, List.mem_cons_self, hunder file hfile⟩
      · obtain ⟨name', hname', hlead⟩ := hunder' file hfile
        exact ⟨name', List.mem_cons_of_mem _ hname', hlead⟩

end

end Collecting

section Exporting

variable {κ β ω : Type} [DecidableEq ω]

theorem writeCommit_ok {destination : Destination κ β ω} {targetDirectory branchName : Text}
    {files : List (File β)} {written : Written κ β}
    (h : writeCommit destination targetDirectory branchName files = .ok written) :
    ∃ base exported, destination.tree written.base = some base ∧
      (built (listed (files.map destination.prepare))).write destination.validName = .ok exported ∧
      place destination.validName exported (segments targetDirectory) base = .ok written.tree := by
  unfold writeCommit at h
  simp only [bind, Except.bind, throw, throwThe, MonadExceptOf.throw, pure, Except.pure] at h
  split at h
  · cases h
  split at h
  · cases h
  split at h
  · cases h
  split at h
  case h_2 => cases h
  split at h
  case h_2 => cases h
  rename_i base hbase
  split at h
  case h_2 => cases h
  rename_i baseTree htree
  split at h
  · cases h
  split at h
  · cases h
  rename_i exported hbuilt
  split at h
  · cases h
  rename_i tree hplaced
  split at h
  · cases h
  split at h
  case h_2 => cases h
  obtain rfl := Except.ok.inj h
  refine ⟨baseTree, exported, htree, ?_, hplaced⟩
  unfold buildTree at hbuilt
  split at hbuilt
  · rw [built, listed, List.foldl_map]
    exact hbuilt
  · cases hbuilt

/-- A refused export leaves the branches; one that is written changes nothing outside its target
directory, and has exactly the exported files beneath it, exactly where no leading segment of the
target directory is anything but a directory in the base, and the listed paths are a tree's. -/
theorem export_confined_iff (destination : Destination κ β ω) (targetDirectory branchName : Text)
    (files : List (File β)) :
    (∀ said, (writeTarget destination targetDirectory branchName files).1 = .error said →
      (writeTarget destination targetDirectory branchName files).2 = destination.branches) ∧
    ∀ written, (writeTarget destination targetDirectory branchName files).1 = .ok written →
      ∃ base, destination.tree written.base = some base ∧
        (Confined base (segments targetDirectory) (files.map destination.prepare) written.tree ↔
          blocked (segments targetDirectory) base = false ∧
            Consistent (listed (files.map destination.prepare))) := by
  cases hcommit : writeCommit destination targetDirectory branchName files with
  | error refusal =>
    simp [writeTarget, hcommit]
  | ok commit =>
    obtain ⟨base, exported, hbase, hbuilt, hplaced⟩ := writeCommit_ok hcommit
    by_cases hcuts : destination.cuts branchName = true
    · simp only [writeTarget, hcommit, hcuts, if_true]
      refine ⟨fun said h => (by cases h), fun written h => ?_⟩
      obtain rfl := Except.ok.inj h
      exact ⟨base, hbase, confined_iff hbuilt hplaced⟩
    · rw [writeTarget, hcommit]
      dsimp only
      rw [if_neg hcuts]
      exact ⟨fun _ _ => rfl, fun written h => by cases h⟩

theorem writeTarget_ok {destination : Destination κ β ω} {targetDirectory branchName : Text}
    {files : List (File β)} {written : Written κ β}
    (h : (writeTarget destination targetDirectory branchName files).1 = .ok written) :
    writeCommit destination targetDirectory branchName files = .ok written := by
  rw [writeTarget] at h
  cases hcommit : writeCommit destination targetDirectory branchName files with
  | error refusal =>
    rw [hcommit] at h
    cases h
  | ok commit =>
    simp only [hcommit] at h
    split at h
    · exact h
    · cases h

/-- What `collect` lists of a directory is exported whole, and nothing else of the base changes,
exactly where no file of the base is in the way of the target. -/
theorem export_collected {destination : Destination κ β ω} {targetDirectory branchName : Text}
    {tree : Tree β} {files : List (File β)} {written : Written κ β}
    (hdistinct : PathLevel.Distinct tree) (hcollect : collect [] tree = .ok files)
    (h : (writeTarget destination targetDirectory branchName files).1 = .ok written) :
    ∃ base, destination.tree written.base = some base ∧
      (Confined base (segments targetDirectory) (files.map destination.prepare) written.tree ↔
        blocked (segments targetDirectory) base = false) := by
  have hconsistent := (collect_consistent tree hdistinct hcollect).1
  obtain ⟨base, exported, hbase, hbuilt, hplaced⟩ := writeCommit_ok (writeTarget_ok h)
  refine ⟨base, hbase, (confined_iff hbuilt hplaced).trans ?_⟩
  exact and_iff_left (consistent_prepare destination hconsistent)

end Exporting

/-- A destination whose base holds one file, and whose every step succeeds. -/
def holding (path : List Text) : Destination ℕ ℕ (Bool × Bool) where
  hasOrigin := true
  fetches := true
  opens := true
  branches _ := none
  baseName := some "main".toList
  resolve _ := some 0
  tree _ := some (graft [("README".toList, .leaf (.file false 0))] path [])
  tracks _ := false
  pointer := id
  uploads := true
  stores _ := true
  validName _ := true
  treeId tree := ((leafAt (path ++ ["README".toList]) tree).isSome,
    (leafAt ["fixtures".toList, "case".toList, "a".toList] tree).isSome)
  commit base _ := some (base + 1)
  cuts _ := true

def one : File ℕ := ⟨["a".toList], 7, false, by simp⟩

theorem export_collected_one : ∃ written base,
    (writeTarget (holding []) "README/case".toList "example".toList [one]).1 = .ok written ∧
      (holding []).tree written.base = some base ∧
      (Confined base (segments "README/case".toList) ([one].map (holding []).prepare)
          written.tree ↔ blocked (segments "README/case".toList) base = false) := by
  obtain ⟨written, hwritten⟩ : ∃ written, (writeTarget (holding [])
      "README/case".toList "example".toList [one]).1 = .ok written := ⟨_, rfl⟩
  obtain ⟨base, hbase, hiff⟩ := export_collected (by simp [PathLevel.Distinct, PathEntry.Distinct])
    (show collect [] [("a".toList, .leaf (.file false 7))] = .ok [one] from rfl) hwritten
  exact ⟨written, base, hwritten, hbase, hiff⟩

/-- A file that the target directory leads through is gone. -/
theorem file_lost : normalized "README/case".toList = true ∧ ∃ written base,
    (writeTarget (holding []) "README/case".toList "example".toList [one]).1 = .ok written ∧
      (holding []).tree written.base = some base ∧
      leafAt ["README".toList] base = some (.file false 0) ∧
      leafAt ["README".toList] written.tree = none ∧
      ¬ Confined base (segments "README/case".toList) ([one].map (holding []).prepare)
        written.tree := by
  obtain ⟨written, hwritten⟩ : ∃ written, (writeTarget (holding [])
      "README/case".toList "example".toList [one]).1 = .ok written := ⟨_, rfl⟩
  have htree : written.tree = graft (graft [("a".toList, .leaf (.file false 7))] [] [])
      (segments "README/case".toList) [("README".toList, .leaf (.file false 0))] := by
    obtain rfl := Except.ok.inj hwritten
    rfl
  have hlost : leafAt ["README".toList] written.tree = none := by
    rw [htree]
    decide +kernel
  refine ⟨by decide +kernel, written, _, hwritten, rfl, by decide +kernel, hlost, fun h => ?_⟩
  have hsame := h.elsewhere ["README".toList] (by decide +kernel)
  rw [hlost] at hsame
  revert hsame
  decide +kernel

end Onevcs.Export
