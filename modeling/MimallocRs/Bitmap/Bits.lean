import MimallocRs.Bitmap.Prog
import Mathlib.Data.Set.Lattice

/-!
# The words of a bitmap as a set of bits

`bitsOf cc w` are the set bits of a bitmap of `cc` chunks with the words `w`. A word at a place of
the bitmap stands for a part of them (`Loc.bits`), and an exchange of the word clears some and sets
some (`bitsOf_update`).
-/

namespace MimallocRs

/-- The words of a bitmap. -/
abbrev Words := Loc → BitVec 64

/-- The word exists in a bitmap of `cc` chunks. -/
def Loc.Valid (cc : ℕ) : Loc → Prop
  | .map f => f < chunkFields
  | .chunk c f => c < cc ∧ f < chunkFields

instance (cc : ℕ) (l : Loc) : Decidable (l.Valid cc) := by
  cases l <;> unfold Loc.Valid <;> infer_instance

/-- The bits of the bitmap that a word stands for. The chunkmap stands for none. -/
def Loc.bits : Loc → BitVec 64 → Set ℕ
  | .map _, _ => ∅
  | .chunk c f, w => maskBits c f w

/-- The set bits of a bitmap of `cc` chunks. -/
def bitsOf (cc : ℕ) (w : Words) : Set ℕ :=
  {j | j / 512 < cc ∧ (w (.chunk (j / 512) (j % 512 / 64))).getLsbD (j % 64) = true}

namespace Loc

variable {cc : ℕ} {l : Loc} {v w : BitVec 64}

theorem bits_and_not : l.bits (v &&& ~~~w) = l.bits v \ l.bits w := by
  cases l with
  | map f => simp [bits]
  | chunk c f =>
    ext j
    simp only [bits, mem_maskBits, Set.mem_sdiff, BitVec.getLsbD_and, BitVec.getLsbD_not,
      Bool.and_eq_true, Bool.not_eq_true', decide_eq_true_eq]
    have hj : j % 64 < 64 := Nat.mod_lt _ (by omega)
    rw [← Bool.not_eq_true]
    tauto

theorem bits_or : l.bits (v ||| w) = l.bits v ∪ l.bits w := by
  cases l with
  | map f => simp [bits]
  | chunk c f =>
    ext j
    simp only [bits, mem_maskBits, Set.mem_union, BitVec.getLsbD_or, Bool.or_eq_true]
    tauto

theorem bits_subset (h : v &&& w = w) : l.bits w ⊆ l.bits v := by
  cases l with
  | map f => exact le_rfl
  | chunk c f => exact fun j hj => ⟨hj.1, hj.2.1, and_eq_iff.mp h _ hj.2.2⟩

end Loc

/-- A word at a place of the bitmap stands for set bits. -/
theorem bits_subset_bitsOf {cc : ℕ} {l : Loc} {w : Words} (hl : l.Valid cc) :
    l.bits (w l) ⊆ bitsOf cc w := by
  cases l with
  | map f => exact Set.empty_subset _
  | chunk c f =>
    rintro j ⟨rfl, rfl, hj⟩
    exact ⟨hl.1, hj⟩

/-- The set bits after a word has been exchanged. -/
theorem bitsOf_update {cc : ℕ} {l : Loc} {w : Words} {new : BitVec 64} (hl : l.Valid cc) :
    bitsOf cc (Function.update w l new) =
      (bitsOf cc w \ l.bits (w l &&& ~~~new)) ∪ l.bits (new &&& ~~~w l) := by
  rw [Loc.bits_and_not, Loc.bits_and_not]
  ext j
  cases l with
  | map f => simp [bitsOf, Loc.bits, Function.update_of_ne]
  | chunk c f =>
    by_cases hj : Loc.chunk (j / 512) (j % 512 / 64) = .chunk c f
    · rw [← hj]
      injection hj with hjc hjf
      subst hjc hjf
      simp only [bitsOf, Loc.bits, Set.mem_ofPred_eq, Function.update_self, Set.mem_union,
        Set.mem_sdiff, mem_maskBits]
      have hcc : j / 512 < cc := hl.1
      tauto
    · have hjl : ¬ (j / 512 = c ∧ j % 512 / 64 = f) := fun h => hj (by rw [h.1, h.2])
      simp only [bitsOf, Loc.bits, Set.mem_ofPred_eq, Function.update_of_ne hj, Set.mem_union,
        Set.mem_sdiff, mem_maskBits]
      tauto

/-- Setting the bits of a mask. -/
theorem bitsOf_update_or {cc : ℕ} {l : Loc} {w : Words} {mask : BitVec 64} (hl : l.Valid cc) :
    bitsOf cc (Function.update w l (w l ||| mask)) = bitsOf cc w ∪ l.bits mask := by
  have hsub : l.bits (w l) ⊆ bitsOf cc w := bits_subset_bitsOf hl
  rw [bitsOf_update hl, Loc.bits_and_not, Loc.bits_and_not, Loc.bits_or,
    Set.sdiff_eq_empty.mpr Set.subset_union_left, Set.sdiff_empty, Set.union_sdiff_left]
  ext j
  simp only [Set.mem_union, Set.mem_sdiff]
  have hj := @hsub j
  tauto

/-- A clearing exchange sets nothing. -/
theorem clear_sets_nothing {l : Loc} {old mask : BitVec 64} :
    l.bits ((old &&& ~~~mask) &&& ~~~old) = ∅ := by
  rw [Loc.bits_and_not, Loc.bits_and_not, Set.sdiff_eq_empty]
  exact Set.sdiff_subset

/-- Clearing the bits of a mask that are all set. -/
theorem bitsOf_update_and_not {cc : ℕ} {l : Loc} {w : Words} {mask : BitVec 64} (hl : l.Valid cc)
    (h : w l &&& mask = mask) :
    bitsOf cc (Function.update w l (w l &&& ~~~mask)) = bitsOf cc w \ l.bits mask := by
  rw [bitsOf_update hl, clear_sets_nothing, Loc.bits_and_not, Loc.bits_and_not,
    sdiff_sdiff_right_self, inf_eq_right.mpr (Loc.bits_subset h), Set.union_empty]

/-! ## Runs of bits in the functions of a bitmap -/

theorem findShift_eq_some {w : BitVec 64} {n b : ℕ} (h : findShift w n = some b) (hn : n ≤ 64) :
    b + n ≤ 64 ∧ w &&& fieldMask b n = fieldMask b n := by
  have hb := List.mem_range.mp (List.mem_of_find?_eq_some h)
  have hmask := List.find?_some h
  rw [fieldBits_eq] at hb
  exact ⟨by omega, by simpa using hmask⟩

namespace BChunk

/-- The mask of the bits of a run that lie in the field of its first bit. -/
theorem maskBits_here {c bit remaining : ℕ} (hbit : bit < 512) :
    maskBits c (bit / fieldBits) (fieldMask (bit % fieldBits) (here bit remaining)) =
      bitRange (c * 512 + bit) (here bit remaining) := by
  simp only [here, fieldBits_eq]
  rw [maskBits_mask (by omega) (by omega), Nat.mul_comm (bit / 64), Nat.div_add_mod]

theorem here_le (bit remaining : ℕ) : here bit remaining ≤ remaining := Nat.min_le_left _ _

theorem lt_of_valid {cc c bit : ℕ} (h : (Loc.chunk c (bit / fieldBits)).Valid cc) : bit < 512 := by
  have hf := h.2
  simp only [fieldBits_eq, chunkFields_eq] at hf
  omega

/-- The bits that a list of fields and masks of chunk `c` stands for. -/
def listBits (c : ℕ) (l : List (ℕ × BitVec 64)) : Set ℕ := {j | ∃ p ∈ l, j ∈ maskBits c p.1 p.2}

theorem listBits_nil {c : ℕ} : listBits c [] = ∅ := by simp [listBits]

theorem listBits_cons {c : ℕ} {p : ℕ × BitVec 64} {l : List (ℕ × BitVec 64)} :
    listBits c (p :: l) = maskBits c p.1 p.2 ∪ listBits c l := by
  ext j
  simp [listBits]

theorem listBits_append {c : ℕ} {l l' : List (ℕ × BitVec 64)} :
    listBits c (l ++ l') = listBits c l ∪ listBits c l' := by
  ext j
  simp [listBits, or_and_right, exists_or]

end BChunk

namespace Bitmap

theorem here_le (bit remaining : ℕ) : here bit remaining ≤ remaining := Nat.min_le_left _ _

theorem chunk_add_mod (bit : ℕ) : bit / chunkBits * 512 + bit % chunkBits = bit := by
  rw [chunkBits_eq]
  omega

end Bitmap

end MimallocRs
