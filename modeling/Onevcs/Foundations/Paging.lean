import Mathlib.Data.List.Nodup

/-!
# Reading a listing page by page

A listing split into pages, each after the first named by the cursor that starts it, and where
a reader of it stands: whether a page is left, and the cursor of that page. What a reader holds
and what is left are the listing at every point, and each page turned leaves one fewer.
-/

namespace Foundations

variable {α κ : Type} [DecidableEq κ]

/-- A listing split into pages: the first, and those that follow, each with the cursor that
starts it. -/
structure Split (κ : Type) (items : List α) where
  first : List α
  rest : List (κ × List α)
  whole : first ++ rest.flatMap Prod.snd = items
  distinct : (rest.map Prod.fst).Nodup

namespace Split

variable {items held page : List α} {rest : List (κ × List α)} {more : Bool}
  {after : Option κ}

/-- The page a cursor starts, the first where none is given, and the pages after it. -/
def from? (split : Split κ items) : Option κ → Option (List α × List (κ × List α))
  | none => some (split.first, split.rest)
  | some cursor =>
    match split.rest.dropWhile fun entry => entry.1 != cursor with
    | [] => none
    | (_, page) :: rest => some (page, rest)

/-- A reader that holds `held` has the rest of the listing before it: the pages from `after`
where a page is left, and nothing where none is. -/
def At (split : Split κ items) (held : List α) (more : Bool) (after : Option κ) : Prop :=
  if more then
    ∃ page rest, split.from? after = some (page, rest) ∧
      held ++ page ++ rest.flatMap Prod.snd = items
  else held = items

def left (split : Split κ items) (more : Bool) (after : Option κ) : ℕ :=
  if more then ((split.from? after).map fun pages => pages.2.length + 1).getD 0 else 0

@[simp] theorem left_false (split : Split κ items) : split.left false after = 0 := rfl

theorem left_true (split : Split κ items) (h : split.from? after = some (page, rest)) :
    split.left true after = rest.length + 1 := by
  simp [left, h]

/-- The pages after a page are those from its cursor on. -/
theorem from?_next {split : Split κ items} {cursor : κ} {next : List α}
    (h : split.from? after = some (page, (cursor, next) :: rest)) :
    split.from? (some cursor) = some (next, rest) := by
  cases after with
  | none =>
    obtain ⟨-, hrest⟩ := Prod.mk.inj (Option.some.inj h)
    simp [from?, hrest]
  | some before =>
    obtain ⟨first, hdrop⟩ : ∃ first, split.rest.dropWhile (fun entry => entry.1 != before) =
        first :: (cursor, next) :: rest := by
      unfold from? at h
      cases hdrop : split.rest.dropWhile fun entry => entry.1 != before with
      | nil => simp [hdrop] at h
      | cons first others =>
        simp only [hdrop, Option.some.injEq, Prod.mk.injEq] at h
        exact ⟨first, by rw [h.2]⟩
    -- No page before this one is started by its cursor.
    obtain ⟨skipped, hrest⟩ : ∃ skipped, split.rest =
        (skipped ++ [first]) ++ (cursor, next) :: rest := by
      refine ⟨split.rest.takeWhile fun entry => entry.1 != before, ?_⟩
      rw [List.append_assoc, List.singleton_append, ← hdrop, List.takeWhile_append_dropWhile]
    have hnodup := split.distinct
    rw [hrest, List.map_append, List.map_cons] at hnodup
    have hskipped : ∀ entry ∈ skipped ++ [first], (entry.1 != cursor) = true := by
      intro entry hentry
      have hne := (List.nodup_append.mp hnodup).2.2 entry.1 (List.mem_map_of_mem hentry) cursor
        List.mem_cons_self
      simpa using hne
    have hdrops : split.rest.dropWhile (fun entry => entry.1 != cursor) =
        (cursor, next) :: rest := by
      rw [hrest, List.dropWhile_append_of_pos hskipped, List.dropWhile_cons]
      simp
    simp only [from?, hdrops]

/-- Before the first page is turned. -/
theorem At.start (split : Split κ items) : split.At [] true none :=
  ⟨split.first, split.rest, rfl, split.whole⟩

/-- A reader with no page left holds the listing. -/
theorem At.done {split : Split κ items} (h : split.At held false after) : held = items := h

/-- A page is turned: it is held, and there is one page fewer. -/
theorem At.turn {split : Split κ items} (h : split.At held true after) :
    ∃ page rest, split.from? after = some (page, rest) ∧
      ∀ last, split.At (held ++ page) (!rest.isEmpty) ((rest.head?.map Prod.fst).or last) ∧
        split.left (!rest.isEmpty) ((rest.head?.map Prod.fst).or last) + 1 =
          split.left true after := by
  obtain ⟨page, rest, hfrom, hitems⟩ := h
  refine ⟨page, rest, hfrom, fun last => ?_⟩
  rw [left_true split hfrom]
  cases rest with
  | nil => exact ⟨by simpa [At] using hitems, rfl⟩
  | cons entry rest =>
    obtain ⟨cursor, next⟩ := entry
    have hnext := from?_next hfrom
    refine ⟨⟨next, rest, hnext, ?_⟩, ?_⟩
    · simpa [List.append_assoc] using hitems
    · exact congrArg (· + 1) (left_true split hnext)

end Split

end Foundations
