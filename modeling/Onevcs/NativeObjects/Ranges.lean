import Mathlib.Data.Finset.Card
import Onevcs.NativeObjects.Paint

/-!
# Counting and listing what a commit adds

The walks of `native_objects.rs` that list the commits reached from one commit and from none of
others: `View::ancestors`, `View::only`, `View::count` and `View::linear_range`.

Every ancestry that was asked for is remembered, and that it could not be listed too. The loops run
on fuel, as `View::paint` does.
-/

namespace Onevcs.NativeObjects

/-- An answer, where there is one, and something made of it. -/
def Outcome.map {α β : Type*} (f : α → β) : Outcome α → Outcome β
  | .unfinished => .unfinished
  | .declined => .declined
  | .answered answer => .answered (f answer)

def ancestry : ℕ := 4096

/-- A read, with every ancestry that was asked for. -/
structure Lister (κ : Type*) where
  reader : Reader κ
  listed : κ → Option (Option (Finset κ))

section Definitions

variable {κ : Type*} [DecidableEq κ]

/-- A parent is pending where it was not seen before. -/
def note (noted : Finset κ × List κ) (parent : κ) : Finset κ × List κ :=
  if parent ∈ noted.1 then noted else (insert parent noted.1, parent :: noted.2)

namespace View

variable (view : View κ)

/-- The loop of `View::ancestors`. -/
def list : ℕ → Finset κ → List κ → Reader κ → Outcome (Finset κ) × Reader κ
  | 0, _, _, reader => (.unfinished, reader)
  | _ + 1, seen, [], reader => (.answered seen, reader)
  | fuel + 1, seen, next :: pending, reader =>
    match view.commit reader next with
    | none => (.declined, reader)
    | some (parsed, reader) =>
      let noted := parsed.parents.foldl note (seen, pending)
      if ancestry < noted.1.card then (.declined, reader)
      else list fuel noted.1 noted.2 reader

def ancestors (fuel : ℕ) (s : Lister κ) (id : κ) : Outcome (Finset κ) × Lister κ :=
  match s.listed id with
  | some (some known) => (.answered known, s)
  | some none => (.declined, s)
  | none =>
    let made := view.list fuel {id} [id] s.reader
    match made.1 with
    | .unfinished => (.unfinished, { s with reader := made.2 })
    | .declined => (.declined, ⟨made.2, Function.update s.listed id (some none)⟩)
    | .answered known =>
      (.answered known, ⟨made.2, Function.update s.listed id (some (some known))⟩)

/-- The ancestries of the commits that are excluded. -/
def excluded (fuel : ℕ) : Lister κ → List κ → Outcome (List (Finset κ)) × Lister κ
  | s, [] => (.answered [], s)
  | s, id :: rest =>
    let first := view.ancestors fuel s id
    match first.1 with
    | .unfinished => (.unfinished, first.2)
    | .declined => (.declined, first.2)
    | .answered known =>
      let others := excluded fuel first.2 rest
      (others.1.map (known :: ·), others.2)

/-- The loop of `View::only`. -/
def gather (excluded : List (Finset κ)) :
    ℕ → Finset κ → List κ → Reader κ → Outcome (Finset κ) × Reader κ
  | 0, _, _, reader => (.unfinished, reader)
  | _ + 1, members, [], reader => (.answered members, reader)
  | fuel + 1, members, next :: pending, reader =>
    if (excluded.any fun set => next ∈ set) || next ∈ members then
      gather excluded fuel members pending reader
    else
      match view.commit reader next with
      | none => (.declined, reader)
      | some (parsed, reader) =>
        gather excluded fuel (insert next members) (parsed.parents.reverse ++ pending) reader

/-- `View::only`: what is reached from a tip and from none of the others. -/
def only (fuel : ℕ) (s : Lister κ) (tip : κ) (hidden : List κ) : Outcome (Finset κ) × Lister κ :=
  let sets := view.excluded fuel s hidden
  match sets.1 with
  | .unfinished => (.unfinished, sets.2)
  | .declined => (.declined, sets.2)
  | .answered excluded =>
    let made := view.gather excluded fuel ∅ [tip] sets.2.reader
    (made.1, { sets.2 with reader := made.2 })

def count (fuel : ℕ) (s : Lister κ) (a : κ) (hidden : List κ) : Outcome ℕ × Lister κ :=
  match view.commit s.reader a with
  | none => (.declined, s)
  | some (_, reader) =>
    let members := view.only fuel { s with reader := reader } a hidden
    (members.1.map Finset.card, members.2)

/-- The loop of `View::linear_range`, where the chain may take this many members more. -/
def follow (members : Finset κ) : ℕ → Option κ → Reader κ → Outcome (List κ) × Reader κ
  | left, next, reader =>
    match next.filter (· ∈ members) with
    | none => (.answered [], reader)
    | some id =>
      match view.commit reader id with
      | none => (.declined, reader)
      | some (parsed, reader) =>
        if 1 < parsed.parents.length then (.declined, reader)
        else
          match left with
          | 0 => (.declined, reader)
          | left + 1 =>
            let rest := follow members left parsed.parents.head? reader
            (rest.1.map (id :: ·), rest.2)

/-- What a chain comes to: the members, where it took all of them. -/
def whole (members : Finset κ) : Outcome (List κ) → Outcome (List κ)
  | .answered chain => if chain.length = members.card then .answered chain else .declined
  | other => other

def linearRange (fuel : ℕ) (s : Lister κ) (since tip : κ) : Outcome (List κ) × Lister κ :=
  match view.commit s.reader since with
  | none => (.declined, s)
  | some (_, reader) =>
    let made := view.only fuel { s with reader := reader } tip [since]
    match made.1 with
    | .unfinished => (.unfinished, made.2)
    | .declined => (.declined, made.2)
    | .answered members =>
      let chain := view.follow members members.card (some tip) made.2.reader
      (whole members chain.1, { made.2 with reader := chain.2 })

end View

end Definitions

end Onevcs.NativeObjects
