import Mathlib.Data.List.Nodup

/-!
# Laying one keyed list over another

A keyed list is laid over another: an entry whose key is there already takes that entry's place,
and one whose key is not is put at the end. What that comes to is said of the two lists: the first,
each entry replaced by the one of its key where there is one, and then what is left of the second.
-/

namespace Foundations

variable {α κ : Type} [DecidableEq κ] {key : α → κ} {x a : α} {l base extra : List α}

/-- Put an entry in the place of the first of its key, or at the end. -/
def put (key : α → κ) (x : α) : List α → List α
  | [] => [x]
  | a :: rest => if key a = key x then x :: rest else a :: put key x rest

/-- Put each entry of one list in another. -/
def overlay (key : α → κ) (base extra : List α) : List α :=
  extra.foldl (fun l x => put key x l) base

/-- What stands in the place of an entry. -/
def overriding (key : α → κ) (extra : List α) (a : α) : α :=
  (extra.find? fun x => key x = key a).getD a

/-- What was put is looked up. -/
theorem lookup_put_self {β : Type} (k : κ) (v : β) (fields : List (κ × β)) :
    (put Prod.fst (k, v) fields).lookup k = some v := by
  induction fields with
  | nil => rw [put, List.lookup_cons, beq_self_eq_true]
  | cons field rest ih =>
    unfold put
    split
    · rw [List.lookup_cons, beq_self_eq_true]
    · next hne =>
      rw [List.lookup_cons, beq_false_of_ne (Ne.symm hne)]
      exact ih

theorem put_of_notMem (h : key x ∉ l.map key) : put key x l = l ++ [x] := by
  induction l with
  | nil => rfl
  | cons a rest ih =>
    rw [List.map_cons, List.mem_cons, not_or] at h
    rw [put, if_neg (Ne.symm h.1), ih h.2, List.cons_append]

theorem put_of_mem (hl : (l.map key).Nodup) (h : key x ∈ l.map key) :
    put key x l = l.map fun a => if key a = key x then x else a := by
  induction l with
  | nil => cases h
  | cons a rest ih =>
    rw [List.map_cons, List.nodup_cons] at hl
    rw [List.map_cons, put]
    by_cases ha : key a = key x
    · rw [if_pos ha, if_pos ha]
      refine congrArg _ ?_
      have hrest : ∀ b ∈ rest, (if key b = key x then x else b) = b := by
        intro b hb
        rw [if_neg]
        intro hkey
        exact hl.1 (List.mem_map.mpr ⟨b, hb, hkey.trans ha.symm⟩)
      rw [List.map_congr_left hrest, List.map_id']
    · rw [if_neg ha, if_neg ha]
      have hmem : key x ∈ rest.map key := by
        rw [List.map_cons, List.mem_cons] at h
        exact h.resolve_left (Ne.symm ha)
      rw [ih hl.2 hmem]

/-- The keys stay in their places where the key is there. -/
theorem map_put_of_mem (hl : (l.map key).Nodup) (h : key x ∈ l.map key) :
    (put key x l).map key = l.map key := by
  rw [put_of_mem hl h, List.map_map]
  refine List.map_congr_left fun a _ => ?_
  change key (if key a = key x then x else a) = key a
  split
  · next heq => exact heq.symm
  · rfl

/-- One keyed list laid over another. -/
theorem overlay_eq (hbase : (base.map key).Nodup) (hextra : (extra.map key).Nodup) :
    overlay key base extra =
      base.map (overriding key extra) ++ extra.filter fun x => key x ∉ base.map key := by
  induction extra generalizing base with
  | nil =>
    have hnone : base.map (overriding key []) = base := List.map_id' base
    rw [hnone, List.filter_nil, List.append_nil]
    rfl
  | cons x rest ih =>
    rw [List.map_cons, List.nodup_cons] at hextra
    have hstep : overlay key base (x :: rest) = overlay key (put key x base) rest := rfl
    have hx : overriding key (x :: rest) x = x := by simp [overriding]
    rw [hstep]
    by_cases hmem : key x ∈ base.map key
    · have hkeys := map_put_of_mem hbase hmem
      have hdropped : (x :: rest).filter (fun x => key x ∉ base.map key) =
          rest.filter fun x => key x ∉ base.map key := by
        rw [List.filter_cons_of_neg]
        simpa using hmem
      rw [ih (hkeys ▸ hbase) hextra.2, hkeys, put_of_mem hbase hmem, hdropped, List.map_map]
      refine congrArg (· ++ _) (List.map_congr_left fun a _ => ?_)
      change overriding key rest (if key a = key x then x else a) = _
      by_cases ha : key a = key x
      · have hnone : rest.find? (fun y => key y = key x) = none := by
          rw [List.find?_eq_none]
          intro y hy hkey
          exact hextra.1 (List.mem_map.mpr ⟨y, hy, by simpa using hkey⟩)
        rw [if_pos ha]
        simp [overriding, hnone, ha]
      · rw [if_neg ha]
        simp [overriding, Ne.symm ha]
    · have hkeys : (put key x base).map key = base.map key ++ [key x] := by
        rw [put_of_notMem hmem, List.map_append, List.map_singleton]
      have hnodup : ((put key x base).map key).Nodup := by
        rw [hkeys, List.nodup_append]
        refine ⟨hbase, List.nodup_singleton _, ?_⟩
        rintro k hk _ hkx rfl
        rw [List.mem_singleton.mp hkx] at hk
        exact hmem hk
      have hleft : rest.filter (fun y => key y ∉ base.map key ++ [key x]) =
          rest.filter fun y => key y ∉ base.map key := by
        refine List.filter_congr fun y hy => ?_
        have hne : key y ≠ key x := fun hkey => hextra.1 (List.mem_map.mpr ⟨y, hy, hkey⟩)
        simp [hne]
      have hkept : (x :: rest).filter (fun y => key y ∉ base.map key) =
          x :: rest.filter fun y => key y ∉ base.map key := by
        rw [List.filter_cons_of_pos]
        simpa using hmem
      have hover : base.map (overriding key (x :: rest)) = base.map (overriding key rest) := by
        refine List.map_congr_left fun a ha => ?_
        have hne : key x ≠ key a := fun hkey => hmem (List.mem_map.mpr ⟨a, ha, hkey.symm⟩)
        simp [overriding, hne]
      have hself : overriding key rest x = x := by
        have hnone : rest.find? (fun y => key y = key x) = none := by
          rw [List.find?_eq_none]
          intro y hy hkey
          exact hextra.1 (List.mem_map.mpr ⟨y, hy, by simpa using hkey⟩)
        simp [overriding, hnone]
      rw [ih hnodup hextra.2, hkeys, hleft, hkept, hover, put_of_notMem hmem, List.map_append,
        List.map_singleton, hself, List.append_assoc, List.singleton_append]

theorem key_overriding : key (overriding key extra a) = key a := by
  unfold overriding
  cases hfind : extra.find? fun x => key x = key a with
  | none => rfl
  | some x => simpa using List.find?_some hfind

/-- No key repeats in one keyed list laid over another. -/
theorem nodup_overlay (hbase : (base.map key).Nodup) (hextra : (extra.map key).Nodup) :
    ((overlay key base extra).map key).Nodup := by
  rw [overlay_eq hbase hextra, List.map_append, List.map_map, List.nodup_append]
  have hkeys : base.map (key ∘ overriding key extra) = base.map key :=
    List.map_congr_left fun _ _ => key_overriding
  refine ⟨hkeys ▸ hbase, (List.filter_sublist.map key).nodup hextra, ?_⟩
  rintro k hk _ hk' rfl
  obtain ⟨x, hx, rfl⟩ := List.mem_map.mp hk'
  rw [hkeys] at hk
  simp only [List.mem_filter, decide_eq_true_eq] at hx
  exact hx.2 hk

end Foundations
