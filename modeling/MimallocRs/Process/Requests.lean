import MimallocRs.Process.Served

/-!
# The sizes of requests

`good_size` predicts the usable size of a block. It does for every request that has a size class, and
for a larger one only if its size, rounded up to 16 bytes, is a multiple of a slice
(`good_size_usable`): `alloc_huge` rounds up to 16 bytes and `good_size` to slices.
-/

namespace MimallocRs

open Interleave Prog

variable {c : Config ProcAct Unit ProcOp ProcOp.Res Process} {t hp size size' : ℕ}

/-! ## `good_size` -/

/-- The requests that have a size class. -/
theorem bin_lt_iff : bin size < miBinHuge ↔ size ≤ miLargeMaxObjSize := by
  have hw : wsizeFromSize size ≤ miLargeMaxObjWsize ↔ size ≤ miLargeMaxObjSize := by
    unfold wsizeFromSize miLargeMaxObjWsize miLargeMaxObjSize miIntptrSize
    omega
  rw [← hw]
  refine ⟨fun h => ?_, bin_lt⟩
  by_contra hlt
  rw [bin_of_large (Nat.lt_of_not_le hlt)] at h
  exact Nat.lt_irrefl _ h

/-- `good_size` of a request that has a size class. -/
theorem goodSize_of_bin (hb : bin size < miBinHuge) : goodSize size = binBlockSize (bin size) := by
  simp only [goodSize, bin_max, if_neg (Nat.not_le.mpr hb)]

/-- `good_size` of a request that has none. -/
theorem goodSize_of_huge (hb : miBinHuge ≤ bin size) : goodSize size = alignUp size miArenaSliceSize := by
  have hle : miIntptrSize ≤ size := by
    by_contra hlt
    have hsmall : bin size < miBinHuge := bin_lt_iff.mpr (by
      unfold miIntptrSize at hlt
      unfold miLargeMaxObjSize
      omega)
    omega
  simp only [goodSize, Nat.max_eq_left hle, if_pos hb]

/-- Rounding up to slices does not wrap up to here. -/
def goodSizeMax : ℕ := usizeRange - miArenaSliceSize

theorem alignUp_slice (h : size ≤ goodSizeMax) : size ≤ alignUp size miArenaSliceSize ∧
    alignUp size miArenaSliceSize < size + miArenaSliceSize ∧
      miArenaSliceSize ∣ alignUp size miArenaSliceSize := by
  have hle : size + (miArenaSliceSize - 1) < usizeRange := by
    unfold goodSizeMax usizeRange miArenaSliceSize at *
    omega
  obtain ⟨hup, hdown, hdvd⟩ := alignUp_spec (by decide) hle
  refine ⟨hup, ?_, hdvd⟩
  unfold miArenaSliceSize at *
  omega

/-- A size that is a multiple of a slice stays as it is. -/
theorem alignUp_slice_eq (h : size ≤ goodSizeMax) (hdvd : miArenaSliceSize ∣ size) :
    alignUp size miArenaSliceSize = size := by
  obtain ⟨hup, hdown, hdvd'⟩ := alignUp_slice h
  unfold miArenaSliceSize at *
  omega

/-- **`good_size` is monotone.** -/
theorem goodSize_mono (h : size ≤ size') (hmax : size' ≤ goodSizeMax) :
    goodSize size ≤ goodSize size' := by
  by_cases hb' : bin size' < miBinHuge
  · have hb : bin size < miBinHuge := (bin_mono h).trans_lt hb'
    rw [goodSize_of_bin hb, goodSize_of_bin hb', ← bin_max size, ← bin_max size']
    apply binBlockSize_mono (max_le_max_right _ h)
    · exact Nat.lt_of_lt_of_le (by decide) (Nat.le_max_right ..)
    · rwa [bin_max]
  · have hhuge' : miBinHuge ≤ bin size' := Nat.le_of_not_lt hb'
    obtain ⟨hup', -, hdvd'⟩ := alignUp_slice hmax
    rw [goodSize_of_huge hhuge']
    by_cases hb : bin size < miBinHuge
    · have hle := binBlockSize_le (bin size)
      rw [bin_lt_iff] at hb'
      rw [goodSize_of_bin hb]
      omega
    · obtain ⟨hup, hdown, hdvd⟩ := alignUp_slice (h.trans hmax)
      rw [goodSize_of_huge (Nat.le_of_not_lt hb)]
      unfold miArenaSliceSize at *
      omega

/-- **`good_size` is idempotent.** -/
theorem goodSize_goodSize (hmax : size ≤ goodSizeMax) : goodSize (goodSize size) = goodSize size := by
  by_cases hb : bin size < miBinHuge
  · have hbin : bin (binBlockSize (bin size)) = bin size := by
      have hpos : 0 < max size miIntptrSize := Nat.lt_of_lt_of_le (by decide) (Nat.le_max_right ..)
      have hmax := bin_binBlockSize hpos (by rwa [bin_max])
      rwa [bin_max] at hmax
    rw [goodSize_of_bin hb, goodSize_of_bin (by rwa [hbin]), hbin]
  · obtain ⟨hup, hdown, hdvd⟩ := alignUp_slice hmax
    have hhuge : miBinHuge ≤ bin (alignUp size miArenaSliceSize) :=
      (Nat.le_of_not_lt hb).trans (bin_mono hup)
    have hmax' : alignUp size miArenaSliceSize ≤ goodSizeMax := by
      unfold goodSizeMax usizeRange miArenaSliceSize at *
      omega
    rw [goodSize_of_huge (Nat.le_of_not_lt hb), goodSize_of_huge hhuge, alignUp_slice_eq hmax' hdvd]

/-- The blocks for a request are of the predicted size if it has a size class, or is a multiple of a
slice after rounding up to 16 bytes. -/
theorem servedSize_eq_iff (hmax : size ≤ goodSizeMax) : servedSize size = goodSize size ↔
    size ≤ miLargeMaxObjSize ∨ miArenaSliceSize ∣ alignUp size miMaxAlignSize := by
  rw [← bin_lt_iff]
  by_cases hb : bin size < miBinHuge
  · rw [goodSize_of_bin hb, servedSize, if_neg (Nat.not_le.mpr hb)]
    exact iff_of_true rfl (Or.inl hb)
  · obtain ⟨hup, hdown, hdvd⟩ := alignUp_slice hmax
    have hle : size + (miMaxAlignSize - 1) < usizeRange := by
      unfold goodSizeMax usizeRange miArenaSliceSize miMaxAlignSize at *
      omega
    obtain ⟨hup16, hdown16, -⟩ := alignUp_spec (by decide) hle
    rw [goodSize_of_huge (Nat.le_of_not_lt hb), servedSize, if_pos (Nat.le_of_not_lt hb)]
    constructor
    · intro heq
      rw [heq]
      exact Or.inr hdvd
    · intro hor
      have hdvd16 := hor.resolve_left hb
      unfold miArenaSliceSize miMaxAlignSize at *
      omega

/-! ## What is served -/

/-- A page is not larger than a chunk of slices. -/
theorem Sound.blockSize_le {w : Process} {q : Queues} {D : Set TheapPtr} {H : Option PagePtr}
    {T : Set (ℕ × ℕ)} {p : PagePtr} (h : Sound w q D H T) (hp : p ∈ w.pages) :
    (w.page p).page.blockSize ≤ chunkBits * miArenaSliceSize := by
  obtain ⟨⟨a, -, hin, -⟩, -⟩ := h.placed p hp
  have hok := h.pageOk p hp
  have hmul := Nat.le_mul_of_pos_left (w.page p).page.blockSize hok.reserved_pos
  have hstart := hok.start
  have hfits := hok.fits
  have hcount : (w.desc p).sliceCount ≤ chunkBits := by
    have hroom := hin.2
    show (w.desc p).sliceCount ≤ 512
    omega
  have hbytes := Nat.mul_le_mul_right miArenaSliceSize hcount
  rw [Nat.add_mul] at hfits
  omega

/-- `alloc`, and then `usable_size` of the block. -/
def allocUsable (th : TheapPtr) (size : ℕ) : Prog ProcAct (Option ℕ) := do
  match ← ThreadHeap.alloc th size with
  | none => return none
  | some a => return some (← usableSize a)

/-- **`good_size`.** From every state that a run reaches: the usable size of a block that `alloc`
returns is the one that `good_size` predicts if and only if the request has a size class, or is a
multiple of a slice after rounding up to 16 bytes. `good_size` is monotone and idempotent on the sizes
that are served. -/
theorem good_size_usable (h : processSystem.Reachable Process.Init System.anyMove c)
    (hc : c.Quiescent) (hth : c.mem.HasTheap t hp) :
    (∀ size < usizeRange, ProcEnds true (512 < hugeSlices size) (allocUsable ⟨t, hp⟩ size) c.mem
      fun r _ => ∀ usable, r = some usable → size ≤ goodSizeMax ∧ (usable = goodSize size ↔
        size ≤ miLargeMaxObjSize ∨ miArenaSliceSize ∣ alignUp size miMaxAlignSize)) ∧
      (∀ size size', size ≤ size' → size' ≤ goodSizeMax → goodSize size ≤ goodSize size') ∧
      ∀ size ≤ goodSizeMax, goodSize (goodSize size) = goodSize size := by
  refine ⟨fun size hsize => ?_, fun _ _ => goodSize_mono, fun _ => goodSize_goodSize⟩
  obtain ⟨q, hidle⟩ := reachable_idle h hc
  simp only [allocUsable, Prog.bind_eq, Prog.pure_eq]
  apply Ends.bind
  have hn : bin size < miBinHuge ∨ hugeSlices size ≤ 512 ∨ 512 < hugeSlices size ∨
      c.mem.CannotServe (hugeSlices size) := by omega
  apply (ThreadHeap.alloc_ends hidle.sound hth hsize hn).mono
  rintro r w' ⟨q', hallocs⟩
  cases r with
  | none => exact .ret fun _ hc => (by cases hc)
  | some a =>
    obtain ⟨p, blk, hserved⟩ := hallocs.served a rfl
    have hin : w'.InBlock a (p, blk) := by
      rw [hserved.ptr]
      exact hallocs.sound.inBlock_start hserved.live
    apply usableSize_ends hallocs.sound hin
    apply Ends.ret
    rintro usable ⟨⟩
    have hrest : w'.Rest a (p, blk) = servedSize size := by
      rw [← hserved.blockSize, hserved.ptr]
      show (w'.desc p).pageStart + (blk + 1) * (w'.page p).page.blockSize -
        ((w'.desc p).pageStart + blk * (w'.page p).page.blockSize) = _
      rw [Nat.add_mul]
      omega
    have hle := hallocs.sound.blockSize_le hserved.live.1
    have hmax : size ≤ goodSizeMax := by
      have hsize := hserved.le
      rw [hserved.blockSize] at hle
      apply (hsize.trans hle).trans
      decide
    rw [hrest]
    exact ⟨hmax, servedSize_eq_iff hmax⟩

/-- The first request of a process is for 600000 bytes. -/
theorem good_size_usable_first :
    (∀ size < usizeRange, ProcEnds true (512 < hugeSlices size) (allocUsable ⟨0, 0⟩ size)
      (.blank true) fun r _ => ∀ usable, r = some usable → size ≤ goodSizeMax ∧
        (usable = goodSize size ↔
          size ≤ miLargeMaxObjSize ∨ miArenaSliceSize ∣ alignUp size miMaxAlignSize)) ∧
      (∀ size size', size ≤ size' → size' ≤ goodSizeMax → goodSize size ≤ goodSize size') ∧
      ∀ size ≤ goodSizeMax, goodSize (goodSize size) = goodSize size :=
  good_size_usable (.init (Process.blank_init true)) (fun _ => rfl) (by decide)

/-- A block for 600000 bytes has 600000 usable bytes, and `good_size` says 655360. -/
theorem good_size_mismatch :
    ¬ ∀ c, processSystem.Reachable Process.Init System.anyMove c → c.Quiescent →
      ∀ t hp, c.mem.HasTheap t hp → ∀ size < usizeRange,
        ProcEnds true True (allocUsable ⟨t, hp⟩ size) c.mem fun r _ =>
          ∀ usable, r = some usable → usable = goodSize size := by
  intro h
  have hends := h ⟨.blank true, fun _ => none⟩ (.init (Process.blank_init true)) (fun _ => rfl) 0 0
    (by decide) 600000 (by decide)
  have hrun : ((processMachine true).runAlone () 4 1000 (allocUsable ⟨0, 0⟩ 600000)
      (.blank true)).any (fun r => r.1 == some 600000) = true := by
    decide +kernel
  obtain ⟨r, hgood, htest⟩ := hends.runAlone hrun
  have hwrong := hgood 600000 (eq_of_beq htest)
  rw [goodSize_of_huge (by decide)] at hwrong
  exact absurd hwrong (by decide)

end MimallocRs
