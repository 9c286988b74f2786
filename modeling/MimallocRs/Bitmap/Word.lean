import MimallocRs.Bits
import Mathlib.Tactic.Common

/-!
# Words, masks and bit indices

A bitmap is an array of chunks of eight words of 64 bits. Bit `i` of the bitmap is bit `i % 64` of
field `i % 512 / 64` of chunk `i / 512`. `maskBits c f w` are the bits of the bitmap that the word
`w` stands for in field `f` of chunk `c`; the masks of the source stand for runs of bits
(`maskBits_mask`).
-/

namespace MimallocRs

/-- `FIELD_BITS`. -/
def fieldBits : ℕ := 64

/-- `CHUNK_BITS`. -/
def chunkBits : ℕ := miBchunkBits

/-- `CHUNK_FIELDS`. -/
def chunkFields : ℕ := chunkBits / fieldBits

@[simp] theorem fieldBits_eq : fieldBits = 64 := rfl

@[simp] theorem chunkBits_eq : chunkBits = 512 := rfl

@[simp] theorem chunkFields_eq : chunkFields = 8 := rfl

/-- Ranges are compared by their first bit and their length. -/
instance lawfulBEqRange : LawfulBEq (ℕ × ℕ) := inferInstance

/-- `mask_n`: the `n` lowest bits. -/
def maskN (n : ℕ) : BitVec 64 :=
  if n = fieldBits then BitVec.allOnes 64 else (1#64 <<< n) - 1#64

/-- The mask of the `n` bits of a field from bit `b` on. -/
def fieldMask (b n : ℕ) : BitVec 64 := maskN n <<< b

theorem maskN_getLsbD {n i : ℕ} (hn : n ≤ 64) : (maskN n).getLsbD i = decide (i < n) := by
  unfold maskN
  split
  · next h =>
    rw [h, BitVec.getLsbD_allOnes]
    rfl
  · next h =>
    have hn : n < 64 := by
      simp only [fieldBits_eq] at h
      omega
    have hpow : 2 ^ n < 2 ^ 64 := Nat.pow_lt_pow_right (by omega) hn
    have hval : ((1#64 <<< n) - 1#64).toNat = 2 ^ n - 1 := by
      have hone : 1 ≤ 2 ^ n := Nat.one_le_two_pow
      simp only [BitVec.toNat_sub, BitVec.toNat_shiftLeft, BitVec.toNat_ofNat, Nat.one_mod,
        Nat.shiftLeft_eq, Nat.one_mul]
      rw [Nat.mod_eq_of_lt hpow]
      omega
    rw [BitVec.getLsbD, hval, Nat.testBit_two_pow_sub_one]

theorem fieldMask_getLsbD {b n i : ℕ} (hbn : b + n ≤ 64) :
    (fieldMask b n).getLsbD i = decide (b ≤ i ∧ i < b + n) := by
  unfold fieldMask
  rw [BitVec.getLsbD_shiftLeft]
  by_cases hi : i < 64
  · by_cases hb : i < b
    · simp [hb]
    · rw [maskN_getLsbD (by omega)]
      simp only [hi, hb, decide_true, decide_false, Bool.not_false, Bool.true_and, decide_eq_decide]
      omega
  · simp only [hi, decide_false, Bool.false_and]
    symm
    simp only [decide_eq_false_iff_not]
    omega

/-! ## Words bit by bit -/

/-- All bits of `m` are set in `w`. -/
theorem and_eq_iff {w m : BitVec 64} :
    w &&& m = m ↔ ∀ i, m.getLsbD i = true → w.getLsbD i = true := by
  constructor
  · intro h i hi
    rw [← h, BitVec.getLsbD_and, Bool.and_eq_true] at hi
    exact hi.1
  · intro h
    apply BitVec.eq_of_getLsbD_eq
    intro i _
    rw [BitVec.getLsbD_and]
    cases hm : m.getLsbD i with
    | true => simp [h i hm]
    | false => simp

/-- No bit of `m` is set in `w`. -/
theorem and_eq_zero_iff {w m : BitVec 64} :
    w &&& m = 0#64 ↔ ∀ i, m.getLsbD i = true → w.getLsbD i = false := by
  constructor
  · intro h i hi
    have hz : (w &&& m).getLsbD i = false := by simp [h]
    simpa [BitVec.getLsbD_and, hi] using hz
  · intro h
    apply BitVec.eq_of_getLsbD_eq
    intro i _
    rw [BitVec.getLsbD_and]
    cases hm : m.getLsbD i with
    | true => simp [h i hm]
    | false => simp

/-! ## Bits of the bitmap -/

/-- The bits of the bitmap from `i` on, `n` of them. -/
def bitRange (i n : ℕ) : Set ℕ := {j | i ≤ j ∧ j < i + n}

/-- The bits of the bitmap that the word `w` stands for in field `f` of chunk `c`. -/
def maskBits (c f : ℕ) (w : BitVec 64) : Set ℕ :=
  {j | j / 512 = c ∧ j % 512 / 64 = f ∧ w.getLsbD (j % 64) = true}

@[simp] theorem mem_bitRange {i n j : ℕ} : j ∈ bitRange i n ↔ i ≤ j ∧ j < i + n := Iff.rfl

@[simp] theorem mem_maskBits {c f j : ℕ} {w : BitVec 64} :
    j ∈ maskBits c f w ↔ j / 512 = c ∧ j % 512 / 64 = f ∧ w.getLsbD (j % 64) = true := Iff.rfl

@[simp] theorem bitRange_zero {i : ℕ} : bitRange i 0 = ∅ := by
  ext j
  simp only [mem_bitRange, Set.mem_empty_iff_false, iff_false]
  omega

theorem bitRange_add {i m n : ℕ} : bitRange i (m + n) = bitRange i m ∪ bitRange (i + m) n := by
  ext j
  simp only [mem_bitRange, Set.mem_union]
  omega

theorem bitRange_split {i m n : ℕ} (h : m ≤ n) :
    bitRange i n = bitRange i m ∪ bitRange (i + m) (n - m) := by
  rw [← bitRange_add, Nat.add_sub_cancel' h]

theorem disjoint_bitRange {i m n : ℕ} : Disjoint (bitRange i m) (bitRange (i + m) n) := by
  rw [Set.disjoint_left]
  intro j hj hj'
  rw [mem_bitRange] at hj hj'
  omega

/-- The mask of a run that lies in field `f` of chunk `c`. -/
theorem maskBits_mask {c f b n : ℕ} (hf : f < 8) (hn : b + n ≤ 64) :
    maskBits c f (fieldMask b n) = bitRange (c * 512 + (f * 64 + b)) n := by
  ext j
  simp only [mem_maskBits, mem_bitRange, fieldMask_getLsbD hn, decide_eq_true_eq]
  omega

theorem maskBits_zero {c f : ℕ} : maskBits c f 0#64 = ∅ := by
  ext j
  simp

end MimallocRs
