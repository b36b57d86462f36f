import Mathlib.Data.List.Basic

/-!
# What became of a surface

The exposure audit's `status.rs`: the words a surface's coverage is reported in, from the best
to the worst, and how the statuses of several reads combine.
-/

namespace Onevcs.Audit

/-- `Status`: what became of one surface. -/
inductive Status
  | scanned
  | notFound
  | otherError
  | permissionDenied
  | rateLimited
  deriving DecidableEq

namespace Status

/-- Where a status stands in the order of the words. -/
def rank : Status → Nat
  | .scanned => 0
  | .notFound => 1
  | .otherError => 2
  | .permissionDenied => 3
  | .rateLimited => 4

/-- `Status::combine`: the worse of two. -/
def combine (status other : Status) : Status :=
  if status.rank ≤ other.rank then other else status

theorem combine_eq_scanned {status other : Status} :
    status.combine other = .scanned ↔ status = .scanned ∧ other = .scanned := by
  cases status <;> cases other <;> decide

/-- The status of several reads. -/
def combineAll (statuses : List Status) : Status := statuses.foldl combine .scanned

theorem foldl_combine_eq_scanned {statuses : List Status} {status : Status} :
    statuses.foldl combine status = .scanned ↔
      status = .scanned ∧ ∀ other ∈ statuses, other = .scanned := by
  induction statuses generalizing status with
  | nil => simp
  | cons first rest ih =>
    rw [List.foldl_cons, ih, combine_eq_scanned, and_assoc]
    simp

theorem combineAll_eq_scanned {statuses : List Status} :
    combineAll statuses = .scanned ↔ ∀ status ∈ statuses, status = .scanned := by
  rw [combineAll, foldl_combine_eq_scanned]
  simp

end Status

end Onevcs.Audit
