import Mathlib.Data.Set.Card
import Mathlib.Order.CompletePartialOrder
import Mathlib.Logic.Function.Basic

/-!
# Dividing a set among parties

`Ledger total pool share` says that `total` is divided into a pool and the shares of the parties:
they are pairwise disjoint and make up `total`. A party takes from the pool (`Ledger.take`) or
puts back what is in its share (`Ledger.give`); what is divided grows and shrinks with a share
(`Ledger.grow`, `Ledger.shrink`).
-/

/-- `total` is divided into `pool` and the sets `share i`. -/
structure Ledger {α ι : Type*} (total pool : Set α) (share : ι → Set α) : Prop where
  covers : ∀ x, x ∈ total ↔ x ∈ pool ∨ ∃ i, x ∈ share i
  pool_share : ∀ i, Disjoint pool (share i)
  share_share : ∀ i j, i ≠ j → Disjoint (share i) (share j)

namespace Ledger

variable {α ι : Type*} {total pool A : Set α} {share : ι → Set α}

/-- Everything is in the pool. -/
theorem init : Ledger pool pool fun _ : ι => ∅ where
  covers := by simp
  pool_share := by simp
  share_share := by simp

variable [DecidableEq ι] {i : ι}

/-- A share is exchanged for one that meets no other share. -/
theorem share_share_update (h : Ledger total pool share)
    (hA : ∀ j, j ≠ i → Disjoint A (share j)) (j k : ι) (hjk : j ≠ k) :
    Disjoint (Function.update share i A j) (Function.update share i A k) := by
  by_cases hj : j = i
  · subst hj
    rw [Function.update_self, Function.update_of_ne hjk.symm]
    exact hA k hjk.symm
  · rw [Function.update_of_ne hj]
    by_cases hk : k = i
    · subst hk
      rw [Function.update_self]
      exact (hA j hj).symm
    · rw [Function.update_of_ne hk]
      exact h.share_share j k hjk

/-- Party `i` takes `A` from the pool. -/
theorem take (h : Ledger total pool share) (hA : A ⊆ pool) :
    Ledger total (pool \ A) (Function.update share i (share i ∪ A)) where
  covers := by
    intro x
    rw [h.covers, Function.exists_update_iff share (p := fun _ s => x ∈ s)]
    constructor
    · intro hx
      by_cases hxA : x ∈ A
      · exact Or.inr (Or.inl (Or.inr hxA))
      · rcases hx with hx | ⟨j, hx⟩
        · exact Or.inl ⟨hx, hxA⟩
        · by_cases hj : j = i
          · subst hj
            exact Or.inr (Or.inl (Or.inl hx))
          · exact Or.inr (Or.inr ⟨j, hj, hx⟩)
    · rintro (hx | (hx | hx) | ⟨j, -, hx⟩)
      · exact Or.inl hx.1
      · exact Or.inr ⟨i, hx⟩
      · exact Or.inl (hA hx)
      · exact Or.inr ⟨j, hx⟩
  pool_share := by
    rw [Function.forall_update_iff share (p := fun _ s => Disjoint (pool \ A) s)]
    constructor
    · rw [Set.disjoint_union_right]
      exact ⟨(h.pool_share i).mono_left Set.sdiff_subset, Set.disjoint_sdiff_left⟩
    · intro j _
      exact (h.pool_share j).mono_left Set.sdiff_subset
  share_share := by
    apply h.share_share_update
    intro j hj
    rw [Set.disjoint_union_left]
    exact ⟨h.share_share i j hj.symm, (h.pool_share j).mono_left hA⟩

/-- Party `i` puts `A` back into the pool. -/
theorem give (h : Ledger total pool share) (hA : A ⊆ share i) :
    Ledger total (pool ∪ A) (Function.update share i (share i \ A)) where
  covers := by
    intro x
    rw [h.covers, Function.exists_update_iff share (p := fun _ s => x ∈ s)]
    constructor
    · rintro (hx | ⟨j, hx⟩)
      · exact Or.inl (Or.inl hx)
      · by_cases hj : j = i
        · subst hj
          by_cases hxA : x ∈ A
          · exact Or.inl (Or.inr hxA)
          · exact Or.inr (Or.inl ⟨hx, hxA⟩)
        · exact Or.inr (Or.inr ⟨j, hj, hx⟩)
    · rintro ((hx | hx) | hx | ⟨j, -, hx⟩)
      · exact Or.inl hx
      · exact Or.inr ⟨i, hA hx⟩
      · exact Or.inr ⟨i, hx.1⟩
      · exact Or.inr ⟨j, hx⟩
  pool_share := by
    rw [Function.forall_update_iff share (p := fun _ s => Disjoint (pool ∪ A) s)]
    constructor
    · rw [Set.disjoint_union_left]
      exact ⟨(h.pool_share i).mono_right Set.sdiff_subset, Set.disjoint_sdiff_right⟩
    · intro j hj
      rw [Set.disjoint_union_left]
      exact ⟨h.pool_share j, (h.share_share i j hj.symm).mono_left hA⟩
  share_share := by
    apply h.share_share_update
    intro j hj
    exact (h.share_share i j hj.symm).mono_left Set.sdiff_subset

/-- There is more to divide, and party `i` has it. -/
theorem grow (h : Ledger total pool share) (hA : Disjoint total A) :
    Ledger (total ∪ A) pool (Function.update share i (share i ∪ A)) where
  covers := by
    intro x
    rw [Set.mem_union, h.covers, Function.exists_update_iff share (p := fun _ s => x ∈ s)]
    constructor
    · rintro ((hx | ⟨j, hx⟩) | hx)
      · exact Or.inl hx
      · by_cases hj : j = i
        · subst hj
          exact Or.inr (Or.inl (Or.inl hx))
        · exact Or.inr (Or.inr ⟨j, hj, hx⟩)
      · exact Or.inr (Or.inl (Or.inr hx))
    · rintro (hx | (hx | hx) | ⟨j, -, hx⟩)
      · exact Or.inl (Or.inl hx)
      · exact Or.inl (Or.inr ⟨i, hx⟩)
      · exact Or.inr hx
      · exact Or.inl (Or.inr ⟨j, hx⟩)
  pool_share := by
    rw [Function.forall_update_iff share (p := fun _ s => Disjoint pool s)]
    refine ⟨?_, fun j _ => h.pool_share j⟩
    rw [Set.disjoint_union_right]
    exact ⟨h.pool_share i, hA.mono_left fun x hx => (h.covers x).mpr (Or.inl hx)⟩
  share_share := by
    apply h.share_share_update
    intro j hj
    rw [Set.disjoint_union_left]
    exact ⟨h.share_share i j hj.symm,
      (hA.mono_left fun x hx => (h.covers x).mpr (Or.inr ⟨j, hx⟩)).symm⟩

/-- Party `i` loses `A`, which is no longer there to divide. -/
theorem shrink (h : Ledger total pool share) (hA : A ⊆ share i) :
    Ledger (total \ A) pool (Function.update share i (share i \ A)) where
  covers := by
    intro x
    rw [Set.mem_sdiff, h.covers, Function.exists_update_iff share (p := fun _ s => x ∈ s)]
    constructor
    · rintro ⟨hx | ⟨j, hx⟩, hxA⟩
      · exact Or.inl hx
      · by_cases hj : j = i
        · subst hj
          exact Or.inr (Or.inl ⟨hx, hxA⟩)
        · exact Or.inr (Or.inr ⟨j, hj, hx⟩)
    · rintro (hx | hx | ⟨j, hj, hx⟩)
      · exact ⟨Or.inl hx, fun hxA => Set.disjoint_left.mp (h.pool_share i) hx (hA hxA)⟩
      · exact ⟨Or.inr ⟨i, hx.1⟩, hx.2⟩
      · exact ⟨Or.inr ⟨j, hx⟩,
          fun hxA => Set.disjoint_left.mp (h.share_share j i hj) hx (hA hxA)⟩
  pool_share := by
    rw [Function.forall_update_iff share (p := fun _ s => Disjoint pool s)]
    exact ⟨(h.pool_share i).mono_right Set.sdiff_subset, fun j _ => h.pool_share j⟩
  share_share := by
    apply h.share_share_update
    intro j hj
    exact (h.share_share i j hj.symm).mono_left Set.sdiff_subset

end Ledger
