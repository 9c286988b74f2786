import MimallocRs.Sizes
import Mathlib.Tactic.Ring

/-!
# The order of the size classes

Larger requests fall into larger bins (`bin_mono`), and the blocks of a bin are themselves of a size
that falls into it (`bin_binBlockSize`). So `bin_block_size` gives the largest size of a bin
(`binBlockSize_eq`).
-/

namespace MimallocRs

variable {size size' w b : ℕ}

/-- The three leading bits of the number of words, less one. -/
theorem leading_bounds {v : ℕ} (hv : 4 ≤ v) :
    4 ≤ v / 2 ^ (Nat.log2 v - 2) ∧ v / 2 ^ (Nat.log2 v - 2) < 8 := by
  have hlog : 2 ≤ Nat.log2 v := (Nat.le_log2 (by omega)).mpr hv
  have hlow : 2 ^ Nat.log2 v ≤ v := Nat.log2_self_le (by omega)
  have hhigh : v < 2 ^ (Nat.log2 v + 1) := Nat.lt_log2_self
  have hpow : 2 ^ Nat.log2 v = 4 * 2 ^ (Nat.log2 v - 2) := by
    rw [show (4 : ℕ) = 2 ^ 2 from rfl, ← Nat.pow_add, Nat.add_sub_cancel' hlog]
  rw [Nat.pow_succ, hpow] at hhigh
  rw [hpow] at hlow
  constructor
  · rw [Nat.le_div_iff_mul_le (Nat.two_pow_pos _)]
    exact hlow
  · rw [Nat.div_lt_iff_lt_mul (Nat.two_pow_pos _)]
    omega

/-- The bin of a size of more than eight words. -/
theorem bin_of_medium (h8 : 8 < wsizeFromSize size) (hle : wsizeFromSize size ≤ miLargeMaxObjWsize) :
    bin size + 7 = 4 * Nat.log2 (wsizeFromSize size - 1) +
      (wsizeFromSize size - 1) / 2 ^ (Nat.log2 (wsizeFromSize size - 1) - 2) := by
  obtain ⟨hlow, hhigh⟩ := leading_bounds (v := wsizeFromSize size - 1) (by omega)
  have hlog : 3 ≤ Nat.log2 (wsizeFromSize size - 1) := (Nat.le_log2 (by omega)).mpr (by omega)
  simp only [bin, if_neg (Nat.not_le.mpr h8), if_neg (Nat.not_lt.mpr hle)]
  omega

theorem wsizeFromSize_mono (h : size ≤ size') : wsizeFromSize size ≤ wsizeFromSize size' := by
  unfold wsizeFromSize
  exact Nat.div_le_div_right (by omega)

/-- The bin of a size of at most eight words. -/
theorem bin_of_small (h8 : wsizeFromSize size ≤ 8) :
    bin size = if wsizeFromSize size ≤ 1 then 1 else (wsizeFromSize size + 1) / 2 * 2 := by
  simp only [bin, if_pos h8]

/-- The bins of the sizes that have a size class. -/
theorem bin_lt (hle : wsizeFromSize size ≤ miLargeMaxObjWsize) : bin size < miBinHuge := by
  unfold bin miBinHuge
  dsimp only
  split
  · split <;> omega
  · split
    · omega
    · next h8 hlarge =>
      have hlog : Nat.log2 (wsizeFromSize size - 1) < 16 := by
        rw [Nat.log2_lt (by omega)]
        unfold miLargeMaxObjWsize at hlarge
        omega
      omega

theorem bin_le (size : ℕ) : bin size ≤ miBinHuge := by
  by_cases hle : wsizeFromSize size ≤ miLargeMaxObjWsize
  · exact (bin_lt hle).le
  · exact (bin_of_large (Nat.lt_of_not_le hle)).le

/-- **Larger requests fall into larger bins.** -/
theorem bin_mono (h : size ≤ size') : bin size ≤ bin size' := by
  have hw := wsizeFromSize_mono h
  by_cases hle : wsizeFromSize size' ≤ miLargeMaxObjWsize
  · by_cases h8 : wsizeFromSize size' ≤ 8
    · rw [bin_of_small h8, bin_of_small (hw.trans h8)]
      split <;> split <;> omega
    · have hbin' := bin_of_medium (Nat.lt_of_not_le h8) hle
      obtain ⟨hlow', hhigh'⟩ := leading_bounds (v := wsizeFromSize size' - 1) (by omega)
      have hlog' : 3 ≤ Nat.log2 (wsizeFromSize size' - 1) :=
        (Nat.le_log2 (by omega)).mpr (by omega)
      by_cases h8' : wsizeFromSize size ≤ 8
      · rw [bin_of_small h8']
        split <;> omega
      · have hbin := bin_of_medium (Nat.lt_of_not_le h8') (hw.trans hle)
        obtain ⟨hlow, hhigh⟩ := leading_bounds (v := wsizeFromSize size - 1) (by omega)
        have hlog : Nat.log2 (wsizeFromSize size - 1) ≤ Nat.log2 (wsizeFromSize size' - 1) := by
          rw [Nat.le_log2 (by omega)]
          exact (Nat.log2_self_le (by omega)).trans (by omega)
        rcases Nat.lt_or_eq_of_le hlog with hlt | heq
        · omega
        · -- of the sizes with the same highest bit the larger one has the larger leading bits
          rw [heq] at hbin
          have hdiv := Nat.div_le_div_right (c := 2 ^ (Nat.log2 (wsizeFromSize size' - 1) - 2))
            (Nat.sub_le_sub_right hw 1)
          omega
  · rw [bin_of_large (Nat.lt_of_not_le hle)]
    exact bin_le size

/-- What a round enters is a size of its bin. -/
theorem binSizesRound_bin {t : ℕ → ℕ} (ht : ∀ b, t b = 0 ∨ bin (t b) = b) (b : ℕ) :
    binSizesRound t w b = 0 ∨ bin (binSizesRound t w b) = b := by
  unfold binSizesRound
  split
  · by_cases hb : b = bin (w * miIntptrSize)
    · subst hb
      rw [Function.update_self]
      exact Or.inr rfl
    · rw [Function.update_of_ne hb]
      exact ht b
  · exact ht b

theorem foldl_binSizesRound_bin (l : List ℕ) {t : ℕ → ℕ} (ht : ∀ b, t b = 0 ∨ bin (t b) = b)
    (b : ℕ) : l.foldl binSizesRound t b = 0 ∨ bin (l.foldl binSizesRound t b) = b := by
  induction l generalizing t with
  | nil => exact ht b
  | cons w l ih => exact ih (binSizesRound_bin ht)

/-- **The blocks of a bin are of a size that falls into it.** -/
theorem bin_binBlockSize (hpos : 0 < size) (hb : bin size < miBinHuge) :
    bin (binBlockSize (bin size)) = bin size := by
  have hle := le_binBlockSize hpos hb
  rcases foldl_binSizesRound_bin (List.range' 1 (miLargeMaxObjSize / miIntptrSize))
    (fun _ => Or.inl rfl) (bin size) with hzero | hbin
  · have hzero : binBlockSize (bin size) = 0 := hzero
    omega
  · exact hbin

/-- The block size of a bin is its largest size. -/
theorem binBlockSize_eq (hpos : 0 < size) (hb : bin size < miBinHuge)
    (hmax : bin size < bin (size + 1)) : binBlockSize (bin size) = size := by
  have hle := le_binBlockSize hpos hb
  have hbin := bin_binBlockSize hpos hb
  by_contra hne
  have hlt := bin_mono (show size + 1 ≤ binBlockSize (bin size) by omega)
  omega

/-- Larger requests are served by larger blocks. -/
theorem binBlockSize_mono (h : size ≤ size') (hpos : 0 < size) (hb : bin size' < miBinHuge) :
    binBlockSize (bin size) ≤ binBlockSize (bin size') := by
  have hb' : bin size < miBinHuge := (bin_mono h).trans_lt hb
  rcases Nat.le_total (binBlockSize (bin size)) size' with hle | hle
  · exact hle.trans (le_binBlockSize (by omega) hb)
  · -- then the larger request falls into the same bin
    have hbin := bin_mono hle
    rw [bin_binBlockSize hpos hb'] at hbin
    rw [Nat.le_antisymm (bin_mono h) hbin]

end MimallocRs
