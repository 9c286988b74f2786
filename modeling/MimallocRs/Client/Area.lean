import MimallocRs.Sizes
import MimallocRs.Page.Basic
import MimallocRs.Page.Encode

/-!
# The block area of a page

Where the blocks of a page lie in memory, and the link words that the allocator keeps in the first
word of a block (`free_list.rs`). An ordinary page has its header at the start of its first slice
and its blocks behind it; the single block of a huge page starts at the first slice. A pointer
handed out for a block may point into its interior; `recoverBlockStart` finds the block again.
-/

namespace MimallocRs

/-- The slices of a page, its blocks, and how it encodes links. -/
structure Area where
  /-- The first slice. -/
  slice : ℕ
  sliceCount : ℕ
  blockSize : ℕ
  /-- The page is in the bin of huge pages (`Page::is_huge`). -/
  huge : Bool
  /-- `ENCODED`: the build encodes the links. -/
  encoded : Bool
  keys : BitVec 64 × BitVec 64
  word_le : miIntptrSize ≤ blockSize
  word_dvd : miIntptrSize ∣ blockSize
  room : (if huge then blockSize else Page.startOff) ≤ sliceCount * miArenaSliceSize
  mapped_le : (slice + sliceCount) * miArenaSliceSize ≤ usizeRange

/-! ## Links -/

/-- Byte `i` of a word, the least significant first. -/
def byteOf (w : BitVec 64) (i : ℕ) : BitVec 8 := BitVec.ofNat 8 (w.toNat / 256 ^ i)

namespace Area

variable (ar : Area)

/-- `page_start`. -/
def start : ℕ := ar.slice * miArenaSliceSize + if ar.huge then 0 else Page.startOff

/-- The number of blocks. -/
def reserved : ℕ :=
  if ar.huge then 1
  else (ar.sliceCount * miArenaSliceSize - Page.startOff) / ar.blockSize % 2 ^ 32

/-- The address of a block. -/
def blockStart (b : Blk) : ℕ := ar.start + b * ar.blockSize

/-- The address `a` lies in the block `b`. -/
def Inside (a : ℕ) (b : Blk) : Prop := ar.blockStart b ≤ a ∧ a < ar.blockStart b + ar.blockSize

/-- The block in which an address of the block area lies. -/
def blockOf (a : ℕ) : Blk := (a - ar.start) / ar.blockSize

/-- The block that starts at `a`, if one does. -/
def blockAt (a : ℕ) : Option Blk :=
  if ar.start ≤ a ∧ (a - ar.start) % ar.blockSize = 0 ∧ ar.blockOf a < ar.reserved then
    some (ar.blockOf a)
  else none

/-- The slice of `a` is mapped to the page. -/
def Mapped (a : ℕ) : Prop :=
  ar.slice ≤ a / miArenaSliceSize ∧ a / miArenaSliceSize < ar.slice + ar.sliceCount

instance (a : ℕ) : Decidable (ar.Mapped a) := inferInstanceAs (Decidable (_ ∧ _))

/-- `recover_block_start`. -/
def recoverBlockStart (p : ℕ) : ℕ :=
  let off := p - ar.start
  if off = 0 then p else ar.start + off / ar.blockSize * ar.blockSize

/-- The word that `set_next` stores. -/
def linkWord (n : Option Blk) : BitVec 64 :=
  let p := BitVec.ofNat 64 (n.elim 0 ar.blockStart)
  if ar.encoded then encode ar.keys p else p

/-- The page from which `alloc_generic` serves a request of `size` bytes has this area. -/
def Serves (size : ℕ) : Prop :=
  if miBinHuge ≤ bin size then ar.huge = true ∧ ar.blockSize = alignUp size miMaxAlignSize
  else ar.huge = false ∧ ar.blockSize = binBlockSize (bin size)

instance (size : ℕ) : Decidable (ar.Serves size) := by
  unfold Serves
  exact inferInstance

variable {ar} {a size : ℕ} {b c : Blk}

theorem blockSize_pos : 0 < ar.blockSize := Nat.lt_of_lt_of_le (by decide) ar.word_le

theorem inside_blockStart : ar.Inside (ar.blockStart b) b :=
  ⟨Nat.le_refl _, Nat.lt_add_of_pos_right blockSize_pos⟩

theorem Inside.start_le (h : ar.Inside a b) : ar.start ≤ a :=
  Nat.le_trans (Nat.le_add_right _ _) h.1

theorem Inside.blockOf_eq (h : ar.Inside a b) : ar.blockOf a = b := by
  have hle := h.1
  have hlt := h.2
  unfold blockStart at hle hlt
  apply Nat.div_eq_of_lt_le
  · omega
  · rw [Nat.succ_mul]
    omega

theorem Inside.unique (h : ar.Inside a b) (h' : ar.Inside a c) : b = c :=
  h.blockOf_eq.symm.trans h'.blockOf_eq

@[simp] theorem blockOf_blockStart : ar.blockOf (ar.blockStart b) = b :=
  inside_blockStart.blockOf_eq

theorem blockAt_blockStart (hb : b < ar.reserved) : ar.blockAt (ar.blockStart b) = some b := by
  have hmod : (ar.blockStart b - ar.start) % ar.blockSize = 0 := by
    rw [blockStart, Nat.add_sub_cancel_left, Nat.mul_mod_left]
  rw [blockAt, blockOf_blockStart, if_pos ⟨Nat.le_add_right _ _, hmod, hb⟩]

/-- **A pointer into a block leads back to its start.** -/
theorem recoverBlockStart_eq (h : ar.Inside a b) : ar.recoverBlockStart a = ar.blockStart b := by
  have hb : (a - ar.start) / ar.blockSize = b := h.blockOf_eq
  have hle := h.start_le
  simp only [recoverBlockStart, hb]
  split
  · next hoff =>
    rw [hoff, Nat.zero_div] at hb
    rw [← hb, blockStart]
    omega
  · rfl

/-- The blocks end before the slices of the page do. -/
theorem area_le : ar.blockStart ar.reserved ≤ (ar.slice + ar.sliceCount) * miArenaSliceSize := by
  have hroom := ar.room
  unfold blockStart start reserved
  rw [Nat.add_mul]
  split
  · next hh =>
    rw [if_pos hh] at hroom
    omega
  · next hh =>
    rw [if_neg hh] at hroom
    have hmod := Nat.mod_le ((ar.sliceCount * miArenaSliceSize - Page.startOff) / ar.blockSize)
      (2 ^ 32)
    have hmul := Nat.mul_le_mul_right ar.blockSize hmod
    have hdiv := Nat.div_mul_le_self (ar.sliceCount * miArenaSliceSize - Page.startOff) ar.blockSize
    omega

theorem blockStart_add_le (hb : b < ar.reserved) :
    ar.blockStart b + ar.blockSize ≤ (ar.slice + ar.sliceCount) * miArenaSliceSize := by
  apply Nat.le_trans _ ar.area_le
  have := Nat.mul_le_mul_right ar.blockSize (Nat.succ_le_of_lt hb)
  rw [Nat.succ_mul] at this
  unfold blockStart
  omega

/-- The addresses of the blocks are mapped to the page. -/
theorem Inside.mapped (h : ar.Inside a b) (hb : b < ar.reserved) : ar.Mapped a := by
  have hstart := h.start_le
  have hend := blockStart_add_le hb
  have hlt := h.2
  have hle : ar.slice * miArenaSliceSize ≤ ar.start := Nat.le_add_right _ _
  constructor
  · exact (Nat.le_div_iff_mul_le (by decide)).mpr (by omega)
  · exact (Nat.div_lt_iff_lt_mul (by decide)).mpr (by omega)

/-- The blocks of the page that serves a request are large enough for it. -/
theorem Serves.le (h : ar.Serves size) (hpos : 0 < size) (hlt : size < usizeRange) :
    size ≤ ar.blockSize := by
  unfold Serves at h
  split at h
  · have hsize := h.2
    have hword := ar.blockSize_pos
    unfold alignUp miMaxAlignSize usizeRange at hsize
    unfold usizeRange at hlt
    omega
  · next hb =>
    rw [h.2]
    exact le_binBlockSize hpos (Nat.lt_of_not_le hb)

/-- The blocks of the page that serves an allocation have room for it. -/
theorem Serves.size_le (h : ar.Serves (max size miIntptrSize)) (hlt : size < usizeRange) :
    size ≤ ar.blockSize := by
  have hmax : max size miIntptrSize < usizeRange := Nat.max_lt.mpr ⟨hlt, by decide⟩
  have hpos : 0 < max size miIntptrSize := Nat.lt_of_lt_of_le (by decide) (Nat.le_max_right _ _)
  exact Nat.le_trans (Nat.le_max_left _ _) (h.le hpos hmax)

end Area

end MimallocRs
