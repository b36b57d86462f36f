import Mathlib.Data.Finset.Card
import Mathlib.Order.Lattice

/-!
# Keeping the newest

Things numbered in the order they were made, of which all but the newest few may go: what is let go
of has enough that are newer beside it at that moment, and so at every later one.
-/

namespace Foundations

variable {α : Type} [LinearOrder α]

/-- What is there with a greater number. -/
def newer (there : Finset α) (a : α) : Finset α := there.filter (a < ·)

/-- Whatever was made and is not there has so many newer. -/
def Retains (count : ℕ) (made there : Finset α) : Prop :=
  ∀ a ∈ made, a ∈ there ∨ count ≤ (newer there a).card

variable {count : ℕ} {made there there' : Finset α} {a b : α}

theorem mem_newer : b ∈ newer there a ↔ b ∈ there ∧ a < b := Finset.mem_filter

theorem newer_subset (h : there ⊆ there') : newer there a ⊆ newer there' a :=
  Finset.filter_subset_filter _ h

theorem newer_subset_of_le (h : a ≤ b) : newer there b ⊆ newer there a := by
  intro c hc
  obtain ⟨hthere, hlt⟩ := mem_newer.mp hc
  exact mem_newer.mpr ⟨hthere, lt_of_le_of_lt h hlt⟩

/-- What went has as many newer there as it has made. -/
theorem Retains.newer_of_made (h : Retains count made there)
    (hmade : count ≤ (newer made a).card) : count ≤ (newer there a).card := by
  by_cases hsubset : newer made a ⊆ there
  · refine hmade.trans (Finset.card_le_card fun b hb => ?_)
    exact mem_newer.mpr ⟨hsubset hb, (mem_newer.mp hb).2⟩
  · obtain ⟨b, hb, hgone⟩ := Finset.not_subset.mp hsubset
    obtain ⟨hbmade, hlt⟩ := mem_newer.mp hb
    have hnewer := (h b hbmade).resolve_left hgone
    exact hnewer.trans (Finset.card_le_card (newer_subset_of_le hlt.le))

/-- Something as new is there. -/
theorem Retains.exists_ge (h : Retains count made there) (hcount : 0 < count) (ha : a ∈ made) :
    ∃ b ∈ there, a ≤ b := by
  rcases h a ha with hthere | hnewer
  · exact ⟨a, hthere, le_rfl⟩
  · obtain ⟨b, hb⟩ := Finset.card_pos.mp (lt_of_lt_of_le hcount hnewer)
    obtain ⟨hthere, hlt⟩ := mem_newer.mp hb
    exact ⟨b, hthere, hlt.le⟩

/-- What more is there takes nothing from what is retained. -/
theorem Retains.mono (h : Retains count made there) (hsubset : there ⊆ there') :
    Retains count made there' := by
  intro a ha
  exact (h a ha).imp (fun hthere => hsubset hthere)
    fun hnewer => hnewer.trans (Finset.card_le_card (newer_subset hsubset))

/-- One more is made, and is there. -/
theorem Retains.insert (h : Retains count made there) (hsubset : there ⊆ there')
    (ha : a ∈ there') : Retains count (insert a made) there' := by
  intro b hb
  rcases Finset.mem_insert.mp hb with rfl | hb
  · exact .inl ha
  · exact h.mono hsubset b hb

/-- Where one with so many newer goes, what had so many newer still has. -/
theorem le_card_newer_erase (ha : count ≤ (newer there a).card)
    (hb : count ≤ (newer there b).card) : count ≤ (newer (there.erase a) b).card := by
  rcases lt_or_ge b a with hlt | hle
  · refine ha.trans (Finset.card_le_card fun c hc => ?_)
    obtain ⟨hthere, hafter⟩ := mem_newer.mp hc
    exact mem_newer.mpr ⟨Finset.mem_erase.mpr ⟨hafter.ne', hthere⟩, hlt.trans hafter⟩
  · refine hb.trans (Finset.card_le_card fun c hc => ?_)
    obtain ⟨hthere, hafter⟩ := mem_newer.mp hc
    exact mem_newer.mpr ⟨Finset.mem_erase.mpr ⟨(lt_of_le_of_lt hle hafter).ne', hthere⟩, hafter⟩

/-- What has so many newer may go. -/
theorem Retains.erase (h : Retains count made there) (ha : count ≤ (newer there a).card) :
    Retains count made (there.erase a) := by
  intro b hb
  by_cases heq : b = a
  · rw [heq]
    exact .inr (le_card_newer_erase ha ha)
  · exact (h b hb).imp (fun hthere => Finset.mem_erase.mpr ⟨heq, hthere⟩) (le_card_newer_erase ha)

/-- All but so many of the last of an ascending list have so many newer. -/
theorem card_newer_of_mem_take {l : List α} (hsorted : l.Pairwise (· < ·))
    (h : a ∈ l.take (l.length - count)) : count ≤ (newer l.toFinset a).card := by
  have hsplit := List.take_append_drop (l.length - count) l
  rw [← hsplit] at hsorted
  have hacross := (List.pairwise_append.mp hsorted).2.2 a h
  have hnodup : (l.drop (l.length - count)).Nodup :=
    (List.pairwise_append.mp hsorted).2.1.imp ne_of_lt
  have hpos : 0 < l.length - count := by
    rcases Nat.eq_zero_or_pos (l.length - count) with hzero | hpos
    · rw [hzero] at h
      cases h
    · exact hpos
  calc count = (l.drop (l.length - count)).length := by
        rw [List.length_drop]
        omega
    _ = (l.drop (l.length - count)).toFinset.card := (List.toFinset_card_of_nodup hnodup).symm
    _ ≤ (newer l.toFinset a).card := Finset.card_le_card fun b hb => by
        have hmem := List.mem_toFinset.mp hb
        exact mem_newer.mpr ⟨List.mem_toFinset.mpr (List.mem_of_mem_drop hmem), hacross b hmem⟩

end Foundations
