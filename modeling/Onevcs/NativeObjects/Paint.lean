import Mathlib.Data.Finset.Basic
import Onevcs.Foundations.Ancestry

/-!
# The paint-down walk

The walk of `native_objects.rs` over commits: `View::paint`, and the two answers read
off it, `View::merge_base` and `View::is_ancestor`.

A commit is read through the stores of a view. What a read costs is part of the
model: each commit not read before spends one of the allowance, and a walk that asks
for one more than it has is declined, as is one that meets a commit no store holds.

The walk is a loop of the source. Here it runs on fuel, and a run that is out of fuel
is told apart from one that was declined.
-/

namespace Onevcs.NativeObjects

open Foundations

/-- What is parsed of a commit, as far as the walk reads it. -/
structure Parsed (κ : Type*) where
  parents : List κ
  time : Int

/-- The marks of one commit, one field for each bit of the source's byte. -/
structure Flags where
  parent1 : Bool
  parent2 : Bool
  stale : Bool
  result : Bool

namespace Flags

def none : Flags := ⟨false, false, false, false⟩

/-- `PARENT1`. -/
def first : Flags := ⟨true, false, false, false⟩

/-- `PARENT2`. -/
def second : Flags := ⟨false, true, false, false⟩

def union (f g : Flags) : Flags :=
  ⟨f.parent1 || g.parent1, f.parent2 || g.parent2, f.stale || g.stale, f.result || g.result⟩

/-- The marks a commit hands to its parents, as it holds them: everything but `RESULT`. -/
def marks (f : Flags) : Flags := { f with result := false }

/-- `carried & marks == marks`. -/
def carries (f g : Flags) : Bool :=
  (f.parent1 || !g.parent1) && (f.parent2 || !g.parent2) && (f.stale || !g.stale) &&
    (f.result || !g.result)

/-- The commit is a candidate: reached from both sides and not known stale. -/
def candidate (f : Flags) : Bool := f.parent1 && f.parent2 && !f.stale

/-- What a popped commit hands on: a candidate's ancestors are stale. -/
def handed (f : Flags) : Flags :=
  if f.candidate then { f.marks with stale := true } else f.marks

end Flags

structure Entry (κ : Type*) where
  time : Int
  pushed : Nat
  id : κ

namespace Entry

variable {κ : Type*}

/-- `e` is popped before `f`: by the later time, and among equal times by the earlier
push. -/
def before (e f : Entry κ) : Prop := f.time < e.time ∨ (f.time = e.time ∧ e.pushed < f.pushed)

instance (e f : Entry κ) : Decidable (e.before f) := inferInstanceAs (Decidable (_ ∨ _))

end Entry

/-- The heap's `pop`: the entry that goes before the others, and the others. -/
def popMax {κ : Type*} : List (Entry κ) → Option (Entry κ × List (Entry κ))
  | [] => none
  | e :: rest =>
    match popMax rest with
    | none => some (e, [])
    | some (m, others) => if m.before e then some (m, e :: others) else some (e, m :: others)

/-- The stores a view reads commits from. -/
structure View (κ : Type*) where
  stored : κ → Option (Parsed κ)

/-- What one read has left to spend, and the commits it remembers. -/
structure Reader (κ : Type*) where
  unspent : Nat
  remembered : Finset κ

structure Walk (κ : Type*) where
  flags : κ → Flags
  queue : List (Entry κ)
  enqueued : Finset κ
  oldestNonstale : Option (Int × κ)
  pushed : Nat
  results : List κ
  reader : Reader κ

/-- How a run of the loop ends. -/
inductive Outcome (α : Type*)
  -- out of fuel, the loop having more to do
  | unfinished
  -- a commit could not be read
  | declined
  | answered (answer : α)
  deriving DecidableEq

section Definitions

variable {κ : Type*} [DecidableEq κ]

def View.commit (view : View κ) (reader : Reader κ) (id : κ) : Option (Parsed κ × Reader κ) :=
  if id ∈ reader.remembered then
    (view.stored id).map fun parsed => (parsed, reader)
  else if reader.unspent = 0 then none
  else
    (view.stored id).map fun parsed =>
      (parsed, ⟨reader.unspent - 1, insert id reader.remembered⟩)

namespace Walk

/-- Nothing marked and nothing queued. -/
def blank (reader : Reader κ) : Walk κ where
  flags _ := .none
  queue := []
  enqueued := ∅
  oldestNonstale := none
  pushed := 0
  results := []
  reader := reader

/-- Write the flags of one commit. -/
def mark (s : Walk κ) (id : κ) (f : Flags) : Walk κ :=
  { s with flags := Function.update s.flags id f }

/-- `push`: an id already in the queue is not pushed again. -/
def push (s : Walk κ) (id : κ) (time : Int) (stale : Bool) : Walk κ :=
  if id ∈ s.enqueued then s
  else
    { s with
      queue := ⟨time, s.pushed, id⟩ :: s.queue
      enqueued := insert id s.enqueued
      pushed := s.pushed + 1
      oldestNonstale :=
        if !stale && s.oldestNonstale.all (fun oldest => decide (time ≤ oldest.1)) then
          some (time, id)
        else s.oldestNonstale }

/-- A read of the view, charged to the walk. -/
def read (s : Walk κ) (view : View κ) (id : κ) : Option (Parsed κ × Walk κ) :=
  (view.commit s.reader id).map fun answer => (answer.1, { s with reader := answer.2 })

/-- A popped commit hands its marks to one parent. -/
def visitParent (view : View κ) (marks : Flags) (s : Walk κ) (parent : κ) : Option (Walk κ) :=
  if (s.flags parent).carries marks then some s
  else
    (s.read view parent).map fun answer =>
      (answer.2.mark parent ((answer.2.flags parent).union marks)).push parent answer.1.time
        marks.stale

/-- The loop over the parents of a popped commit. -/
def visitParents (view : View κ) (marks : Flags) : Walk κ → List κ → Option (Walk κ)
  | s, [] => some s
  | s, parent :: rest => (s.visitParent view marks parent).bind fun s =>
    visitParents view marks s rest

/-- A popped commit that both sides reach is a result, once. -/
def harvest (s : Walk κ) (id : κ) : Walk κ :=
  if (s.flags id).candidate && !(s.flags id).result then
    { s.mark id { s.flags id with result := true } with results := s.results ++ [id] }
  else s

/-- The walk once `e` has been popped off it, leaving `rest`. -/
def popped (s : Walk κ) (e : Entry κ) (rest : List (Entry κ)) : Walk κ :=
  { s with
    queue := rest
    enqueued := s.enqueued.erase e.id
    oldestNonstale :=
      if s.oldestNonstale.any (fun oldest => decide (oldest.2 = e.id)) then none
      else s.oldestNonstale }

/-- One round of the loop, for a popped entry. -/
def round (view : View κ) (s : Walk κ) (e : Entry κ) (rest : List (Entry κ)) : Option (Walk κ) :=
  let s := s.popped e rest
  let marks := (s.flags e.id).handed
  let s := s.harvest e.id
  (s.read view e.id).bind fun answer => visitParents view marks answer.2 answer.1.parents

/-- The loop: while some pushed entry that was not stale is still queued. -/
def loop (view : View κ) : Nat → Walk κ → Outcome (Walk κ)
  | 0, _ => .unfinished
  | fuel + 1, s =>
    if s.oldestNonstale.isNone then .answered s
    else
      match popMax s.queue with
      | none => .answered s
      | some (e, rest) =>
        match s.round view e rest with
        | none => .declined
        | some next => loop view fuel next

end Walk

namespace View

/-- What is set up before the loop: the two sides marked and queued. -/
def start (view : View κ) (reader : Reader κ) (one two : κ) : Option (Walk κ) :=
  (((Walk.blank reader).mark one .first).read view one).bind fun first =>
    let s := first.2.push one first.1.time false
    ((s.mark two ((s.flags two).union .second)).read view two).map fun second =>
      second.2.push two second.1.time false

def paint (view : View κ) (fuel : Nat) (reader : Reader κ) (one two : κ) : Outcome (Walk κ) :=
  match view.start reader one two with
  | none => .declined
  | some s => s.loop view fuel

def mergeBase (view : View κ) (fuel : Nat) (reader : Reader κ) (a b : κ) : Outcome κ :=
  if a = b then
    match view.commit reader a with
    | none => .declined
    | some _ => .answered a
  else
    match view.paint fuel reader a b with
    | .unfinished => .unfinished
    | .declined => .declined
    | .answered s =>
      match s.results.filter fun id => !(s.flags id).stale with
      | [only] => .answered only
      | _ => .declined

def isAncestor (view : View κ) (fuel : Nat) (reader : Reader κ) (ancestor descendant : κ) :
    Outcome Bool :=
  if ancestor = descendant then
    match view.commit reader ancestor with
    | none => .declined
    | some _ => .answered true
  else
    match view.paint fuel reader ancestor descendant with
    | .unfinished => .unfinished
    | .declined => .declined
    | .answered s => .answered (s.flags ancestor).parent2

end View

end Definitions

end Onevcs.NativeObjects
