import MimallocRs.Bits
import Mathlib.Logic.Function.Basic
import Mathlib.Data.Nat.Log
import Mathlib.Data.List.Range

/-!
# Size classes

The size classes of `bits.rs` and the block sizes that `heap.rs` derives from them. `BIN_SIZES` is
built by a loop over all word sizes that have a class, and holds for each bin the largest request
that falls into it; a request is never larger than the blocks of its bin (`le_binBlockSize`).
-/

namespace MimallocRs

/-- Largest object with a size class, in words. -/
def miLargeMaxObjWsize : ℕ := 65536

/-- `wsize_from_size`: bytes in machine words, rounded up. -/
def wsizeFromSize (size : ℕ) : ℕ := (size + (miIntptrSize - 1)) / miIntptrSize

/-- `bin`: the size class of a request. -/
def bin (size : ℕ) : ℕ :=
  let wsize := wsizeFromSize size
  if wsize ≤ 8 then
    if wsize ≤ 1 then 1 else (wsize + 1) / 2 * 2
  else if miLargeMaxObjWsize < wsize then miBinHuge
  else
    let b := Nat.log2 (wsize - 1)
    b * 4 + (wsize - 1) / 2 ^ (b - 2) % 4 - 3

/-- One round of the loop that builds `BIN_SIZES`. -/
def binSizesRound (t : ℕ → ℕ) (w : ℕ) : ℕ → ℕ :=
  let sz := w * miIntptrSize
  if bin sz < miBinHuge ∧ t (bin sz) < sz then Function.update t (bin sz) sz else t

/-- `BIN_SIZES`. -/
def binSizes : ℕ → ℕ :=
  (List.range' 1 (miLargeMaxObjSize / miIntptrSize)).foldl binSizesRound fun _ => 0

/-- `bin_block_size`. -/
def binBlockSize (b : ℕ) : ℕ := binSizes b

/-- A round never lowers an entry. -/
theorem le_binSizesRound (t : ℕ → ℕ) (w b : ℕ) : t b ≤ binSizesRound t w b := by
  unfold binSizesRound
  split
  · next h =>
    by_cases hb : b = bin (w * miIntptrSize)
    · subst hb
      rw [Function.update_self]
      exact Nat.le_of_lt h.2
    · rw [Function.update_of_ne hb]
  · exact Nat.le_refl _

theorem le_foldl_binSizesRound (l : List ℕ) (t : ℕ → ℕ) (b : ℕ) :
    t b ≤ l.foldl binSizesRound t b := by
  induction l generalizing t with
  | nil => exact Nat.le_refl _
  | cons w l ih => exact Nat.le_trans (le_binSizesRound t w b) (ih _)

/-- After the loop the entry of the bin of a word size is at least that size. -/
theorem le_foldl_binSizesRound_of_mem {l : List ℕ} {w : ℕ} (hw : w ∈ l)
    (hb : bin (w * miIntptrSize) < miBinHuge) (t : ℕ → ℕ) :
    w * miIntptrSize ≤ l.foldl binSizesRound t (bin (w * miIntptrSize)) := by
  induction l generalizing t with
  | nil => cases hw
  | cons v l ih =>
    rw [List.foldl_cons]
    rcases List.mem_cons.mp hw with rfl | hw
    · apply Nat.le_trans _ (le_foldl_binSizesRound l _ _)
      unfold binSizesRound
      split
      · rw [Function.update_self]
      · next h => exact Nat.le_of_not_lt fun hlt => h ⟨hb, hlt⟩
    · exact ih hw _

theorem bin_of_large {size : ℕ} (h : miLargeMaxObjWsize < wsizeFromSize size) :
    bin size = miBinHuge := by
  have h8 : ¬ wsizeFromSize size ≤ 8 := by
    unfold miLargeMaxObjWsize at h
    omega
  simp only [bin, if_neg h8, if_pos h]

/-- A request falls into the bin of its size in words. -/
theorem bin_wsize (size : ℕ) : bin (wsizeFromSize size * miIntptrSize) = bin size := by
  have h : wsizeFromSize (wsizeFromSize size * miIntptrSize) = wsizeFromSize size := by
    unfold wsizeFromSize miIntptrSize
    omega
  simp only [bin, h]

/-- **The blocks of the bin of a request are large enough for it.** -/
theorem le_binBlockSize {size : ℕ} (hpos : 0 < size) (hb : bin size < miBinHuge) :
    size ≤ binBlockSize (bin size) := by
  have hle : wsizeFromSize size ≤ miLargeMaxObjWsize := by
    by_contra hlt
    rw [bin_of_large (Nat.lt_of_not_le hlt)] at hb
    exact Nat.lt_irrefl _ hb
  have hmem : wsizeFromSize size ∈ List.range' 1 (miLargeMaxObjSize / miIntptrSize) := by
    rw [List.mem_range'_1]
    unfold miLargeMaxObjWsize at hle
    unfold wsizeFromSize miLargeMaxObjSize miIntptrSize at *
    omega
  have h := le_foldl_binSizesRound_of_mem hmem (by rwa [bin_wsize]) fun _ => 0
  rw [bin_wsize] at h
  apply Nat.le_trans _ h
  unfold wsizeFromSize miIntptrSize
  omega

/-- A round enters no size that is not a size of the loop. -/
theorem binSizesRound_le {t : ℕ → ℕ} {w n : ℕ} (hw : w * miIntptrSize ≤ n) (ht : ∀ b, t b ≤ n)
    (b : ℕ) : binSizesRound t w b ≤ n := by
  unfold binSizesRound
  split
  · by_cases hb : b = bin (w * miIntptrSize)
    · subst hb
      rwa [Function.update_self]
    · rw [Function.update_of_ne hb]
      exact ht b
  · exact ht b

theorem foldl_binSizesRound_le {l : List ℕ} {n : ℕ} (hl : ∀ w ∈ l, w * miIntptrSize ≤ n)
    {t : ℕ → ℕ} (ht : ∀ b, t b ≤ n) (b : ℕ) : l.foldl binSizesRound t b ≤ n := by
  induction l generalizing t with
  | nil => exact ht b
  | cons w l ih =>
    apply ih fun v hv => hl v (List.mem_cons_of_mem w hv)
    exact binSizesRound_le (hl w List.mem_cons_self) ht

/-- No bin has blocks larger than the largest object that has a bin. -/
theorem binBlockSize_le (b : ℕ) : binBlockSize b ≤ miLargeMaxObjSize := by
  apply foldl_binSizesRound_le _ fun _ => Nat.zero_le _
  intro w hw
  rw [List.mem_range'_1] at hw
  unfold miLargeMaxObjSize miIntptrSize at *
  omega

/-- The sizes of the blocks are multiples of a word. -/
theorem dvd_foldl_binSizesRound {l : List ℕ} {t : ℕ → ℕ} (ht : ∀ b, miIntptrSize ∣ t b) (b : ℕ) :
    miIntptrSize ∣ l.foldl binSizesRound t b := by
  induction l generalizing t with
  | nil => exact ht b
  | cons w l ih =>
    apply ih
    intro b
    unfold binSizesRound
    split
    · by_cases hb : b = bin (w * miIntptrSize)
      · subst hb
        rw [Function.update_self]
        exact Nat.dvd_mul_left ..
      · rw [Function.update_of_ne hb]
        exact ht b
    · exact ht b

theorem dvd_binBlockSize (b : ℕ) : miIntptrSize ∣ binBlockSize b :=
  dvd_foldl_binSizesRound (fun _ => Nat.dvd_zero _) b

end MimallocRs
