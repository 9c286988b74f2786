import MimallocRs.Bits
import Mathlib.Tactic.Common

/-!
# Encoded links of free blocks

A free block keeps the address of the next one in its first word. The secure and debug builds encode
it with the two keys of the page (`encode`, `decode`); the word `0` stands for the end of the list.
For every pair of keys there is one address, `reservedPtr`, whose encoding is that word: a link to it
is read back as the end of the list. Every other link is read back as it was written
(`encoded_next_roundtrip`).
-/

namespace MimallocRs

/-- `MI_SIZE_BITS`. -/
def miSizeBits : ℕ := 64

/-- `mi_rotl`: the lowest bits of `r` count. -/
def miRotl (x r : BitVec 64) : BitVec 64 := x.rotateLeft (r.toNat % miSizeBits)

/-- `mi_rotr`. -/
def miRotr (x r : BitVec 64) : BitVec 64 := x.rotateRight (r.toNat % miSizeBits)

/-- The encoding keys of a page: `keys[0]` and `keys[1]`. -/
abbrev Keys := BitVec 64 × BitVec 64

/-- `encode`: the word of a link to `p`. -/
def encode (keys : Keys) (p : BitVec 64) : BitVec 64 :=
  if p = 0 then 0 else miRotl (p ^^^ keys.2) keys.1 + keys.1

/-- `decode`: the address that a word links to. -/
def decode (keys : Keys) (x : BitVec 64) : BitVec 64 :=
  if x = 0 then 0 else miRotr (x - keys.1) keys.1 ^^^ keys.2

/-- The address that would be encoded as the end of the list. -/
def reservedPtr (keys : Keys) : BitVec 64 := miRotr (0 - keys.1) keys.1 ^^^ keys.2

theorem rotateRight_rotateLeft {w : ℕ} (x : BitVec w) (r : ℕ) :
    (x.rotateLeft r).rotateRight r = x := by
  apply BitVec.eq_of_getLsbD_eq
  intro i hi
  have hr : r % w < w := Nat.mod_lt r (by omega)
  rw [BitVec.getLsbD_rotateRight, BitVec.getLsbD_rotateLeft, BitVec.getLsbD_rotateLeft]
  by_cases hlow : i < w - r % w
  · have hge : ¬ r % w + i < r % w := by omega
    simp [hlow, hge]
    omega
  · have hlt : i - (w - r % w) < r % w := by omega
    have hidx : w - r % w + (i - (w - r % w)) = i := by omega
    simp [hlow, hlt, hi, hidx]

theorem rotateLeft_rotateRight {w : ℕ} (x : BitVec w) (r : ℕ) :
    (x.rotateRight r).rotateLeft r = x := by
  apply BitVec.eq_of_getLsbD_eq
  intro i hi
  have hr : r % w < w := Nat.mod_lt r (by omega)
  rw [BitVec.getLsbD_rotateLeft, BitVec.getLsbD_rotateRight, BitVec.getLsbD_rotateRight]
  by_cases hlow : i < r % w
  · have hge : ¬ w - r % w + i < w - r % w := by omega
    simp [hlow, hge]
    omega
  · have hlt : i - r % w < w - r % w := by omega
    have hidx : r % w + (i - r % w) = i := by omega
    simp [hlow, hlt, hi, hidx]

@[simp] theorem miRotr_miRotl (x r : BitVec 64) : miRotr (miRotl x r) r = x :=
  rotateRight_rotateLeft x _

@[simp] theorem miRotl_miRotr (x r : BitVec 64) : miRotl (miRotr x r) r = x :=
  rotateLeft_rotateRight x _

/-- The encoding of an address, null apart, loses nothing. -/
theorem unencode (p : BitVec 64) (keys : Keys) :
    miRotr (miRotl (p ^^^ keys.2) keys.1 + keys.1 - keys.1) keys.1 ^^^ keys.2 = p := by
  rw [BitVec.add_sub_cancel, miRotr_miRotl, BitVec.xor_assoc, BitVec.xor_self, BitVec.xor_zero]

/-- Only one address is encoded as the end of the list. -/
theorem eq_reservedPtr_iff (p : BitVec 64) (keys : Keys) :
    p = reservedPtr keys ↔ miRotl (p ^^^ keys.2) keys.1 + keys.1 = 0 := by
  constructor
  · rintro rfl
    unfold reservedPtr
    rw [BitVec.xor_assoc, BitVec.xor_self, BitVec.xor_zero, miRotl_miRotr, BitVec.sub_add_cancel]
  · intro h
    rw [reservedPtr, ← h, unencode]

/-- **A link is read back as it was written**, and one that is not null is not read back as the end of
the list, unless it is a link to the one address that the keys encode as the word `0`. -/
theorem encoded_next_roundtrip (p : BitVec 64) (keys : Keys) :
    (decode keys (encode keys p) = p ∧ (p ≠ 0 → decode keys (encode keys p) ≠ 0)) ↔
      (p = 0 ∨ p ≠ reservedPtr keys) := by
  by_cases hnull : p = 0
  · simp [hnull, encode, decode]
  · have hp : p = reservedPtr keys ↔ encode keys p = 0 := by
      rw [eq_reservedPtr_iff, encode, if_neg hnull]
    by_cases hzero : encode keys p = 0
    · have hread : decode keys (encode keys p) = 0 := by
        rw [hzero, decode, if_pos rfl]
      constructor
      · intro h
        exact absurd hread (h.2 hnull)
      · intro h
        exact absurd (hp.mpr hzero) (h.resolve_left hnull)
    · have hread : decode keys (encode keys p) = p := by
        rw [decode, if_neg hzero, encode, if_neg hnull, unencode]
      rw [hread]
      exact ⟨fun _ => Or.inr fun h => hzero (hp.mp h), fun _ => ⟨rfl, id⟩⟩

/-- With a second key that is the address of a block, and `0` for the first one, a link to the block is
read back as the end of the list. -/
theorem encoded_next_lost :
    ¬ (decode (0, 0x7f0000010100) (encode (0, 0x7f0000010100) 0x7f0000010100) = 0x7f0000010100 ∧
      (0x7f0000010100#64 ≠ 0 →
        decode (0, 0x7f0000010100) (encode (0, 0x7f0000010100) 0x7f0000010100) ≠ 0)) := by
  decide

end MimallocRs
