import Mathlib.Data.Set.Card
import Mathlib.Order.CompletePartialOrder

/-!
# Sizes

The constants of `bits.rs` for a 64-bit target, and the rounding helpers of `layout.rs` on which
the page geometry rests. Sizes and addresses are natural numbers; an operation that can leave the
range of `usize` is written with an explicit remainder.
-/

namespace MimallocRs

/-- `2^64`, the number of values of `usize`. -/
def usizeRange : ℕ := 2 ^ 64

/-- Bytes in a pointer. -/
def miIntptrSize : ℕ := 8

/-- The alignment of `max_align_t`. -/
def miMaxAlignSize : ℕ := 16

/-- Bytes in a slice: 64 KiB. -/
def miArenaSliceSize : ℕ := 65536

/-- Bits of a user address. -/
def miMaxVabits : ℕ := 47

/-- Bits in a bitmap chunk. -/
def miBchunkBits : ℕ := 512

/-- Largest object of a small page: 10 KiB. -/
def miSmallMaxObjSize : ℕ := (65536 - 4096) / 6

/-- Largest object of a medium page. -/
def miMediumMaxObjSize : ℕ := (8 * 65536 - 4096) / 6

/-- Largest object with a size class: 512 KiB. -/
def miLargeMaxObjSize : ℕ := 524288

/-- Largest object served through the direct table, in words. -/
def miSmallWsizeMax : ℕ := 128

/-- Largest object served through the direct table, in bytes. -/
def miSmallSizeMax : ℕ := miSmallWsizeMax * miIntptrSize

/-- The bin of objects too large for a size class. -/
def miBinHuge : ℕ := 73

/-- The bin of full pages. -/
def miBinFull : ℕ := miBinHuge + 1

/-- The number of bins. -/
def miBinCount : ℕ := miBinFull + 1

/-- How many sweeps an emptied sole page survives. -/
def miRetireCycles : ℕ := 16

/-- The page flags kept in the low bits of `xthread_id`. -/
def miPageFlagMask : ℕ := 3

/-- The flag of a page that has handed out an interior pointer. -/
def miPageHasInteriorPointers : ℕ := 2

/-- The owner id of an abandoned page. -/
def miThreadidAbandoned : ℕ := 0

/-- The owner id of an abandoned page that is registered in its arena. -/
def miThreadidAbandonedMapped : ℕ := miPageFlagMask + 1

/-- `align_up` at a power of two: `(sz + mask) & !mask`, the sum wrapping. -/
def alignUp (sz alignment : ℕ) : ℕ := (sz + (alignment - 1)) % usizeRange / alignment * alignment

/-- Rounding up where the sum does not wrap. -/
theorem alignUp_spec {x align : ℕ} (hpos : 0 < align) (hle : x + (align - 1) < usizeRange) :
    x ≤ alignUp x align ∧ alignUp x align ≤ x + (align - 1) ∧ align ∣ alignUp x align := by
  unfold alignUp
  rw [Nat.mod_eq_of_lt hle]
  have hmod := Nat.div_add_mod (x + (align - 1)) align
  have hlt := Nat.mod_lt (x + (align - 1)) hpos
  rw [Nat.mul_comm] at hmod
  exact ⟨by omega, by omega, Nat.dvd_mul_left ..⟩

end MimallocRs
