import MimallocRs.Bitmap.Whole

/-!
# Ranges of bits

The tests, the set and the claim of a range of bits within a chunk, and the claim of a range that may
span chunks, each run without interference. They do what they say on every range, with one exception:
`try_clear_n` reads the field of its first bit even for an empty range, and panics on the empty range
behind the last bit of the chunk, which its assertion lets pass (`chunk_range_end`). The tests and
`set_n` read nothing there.
-/

namespace MimallocRs

open Interleave

variable {cc c cbit n idx m : ℕ} {w : Words}

/-- The bits `A` have been claimed if they were all set, and nothing has been changed otherwise. -/
def Claims (cc : ℕ) (A : Set ℕ) (w : Words) (r : Bool) (w' : Words) : Prop :=
  (r = true ↔ A ⊆ bitsOf cc w) ∧ (r = true → bitsOf cc w' = bitsOf cc w \ A) ∧
    (r = false → bitsOf cc w' = bitsOf cc w)

/-- What the functions of the chunk `c` do to its `n` bits from `cbit` on. -/
structure ChunkRange (cc c : ℕ) (w : Words) (cbit n : ℕ) : Prop where
  isSetN : BitEnds cc False (BChunk.isSetN (.chunk c) cbit n) w fun r w' =>
    w' = w ∧ (r = true ↔ bitRange (c * chunkBits + cbit) n ⊆ bitsOf cc w)
  isClearN : BitEnds cc False (BChunk.isClearN (.chunk c) cbit n) w fun r w' =>
    w' = w ∧ (r = true ↔ Disjoint (bitRange (c * chunkBits + cbit) n) (bitsOf cc w))
  setN : BitEnds cc False (BChunk.setN (.chunk c) cbit n) w fun _ w' =>
    bitsOf cc w' = bitsOf cc w ∪ bitRange (c * chunkBits + cbit) n
  tryClearN : BitEnds cc False (BChunk.tryClearN (.chunk c) cbit n) w
    (Claims cc (bitRange (c * chunkBits + cbit) n) w)

theorem Claims.of_ite {A : Set ℕ} {r : Bool} {w' : Words} (hr : r = true ↔ A ⊆ bitsOf cc w)
    (hw : bitsOf cc w' = if r then bitsOf cc w \ A else bitsOf cc w) : Claims cc A w r w' := by
  refine ⟨hr, ?_, ?_⟩
  · rintro rfl
    exact hw
  · rintro rfl
    exact hw

namespace BChunk

/-- Behind the last bit of a chunk there is no field to read. -/
theorem tryClearN_panics : BitEnds cc True (tryClearN (.chunk c) chunkBits 0) w fun _ _ => False := by
  simp only [tryClearN, Prog.bind_eq, Prog.pure_eq]
  rw [if_pos (by decide)]
  apply BitEnds.load_panics
  intro hl
  exact absurd hl.2 (by decide)

end BChunk

/-- **Ranges of bits.** The functions of a chunk do what they promise for a range within the chunk, and
so does `range_try_clear` for a range within the bitmap, unless the range of the chunk starts behind
its last bit. -/
theorem chunk_ranges (hcc : cc ≤ chunkBits) (hc : c < cc) (hn : cbit + n ≤ chunkBits)
    (hm : idx + m ≤ cc * chunkBits) :
    (ChunkRange cc c w cbit n ∧
      BitEnds cc False (Bitmap.rangeTryClear cc idx m) w (Claims cc (bitRange idx m) w)) ↔
        (0 < n ∨ cbit < chunkBits) := by
  constructor
  · rintro ⟨h, -⟩
    by_contra hend
    rw [not_or, not_lt, not_lt] at hend
    obtain ⟨hzero, hle⟩ := hend
    obtain rfl : n = 0 := by omega
    obtain rfl : cbit = chunkBits := by omega
    exact h.tryClearN.not_panics BChunk.tryClearN_panics
  · intro hstart
    have hcbit : cbit < chunkBits := by omega
    refine ⟨⟨?_, ?_, ?_, ?_⟩, ?_⟩
    · exact BChunk.isSetN_ends hc hn
    · exact BChunk.isClearN_ends hc hn
    · exact BChunk.setN_ends hc hn
    · apply (BChunk.tryClearN_ends hc hcbit hn).mono
      rintro r w' ⟨hr, hw'⟩
      exact Claims.of_ite hr hw'
    · apply (Bitmap.rangeTryClear_ends hcc hm).mono
      rintro r w' ⟨hr, hw'⟩
      exact Claims.of_ite hr hw'

theorem chunk_ranges_first : (ChunkRange 1 0 (fun _ => 0#64) 60 8 ∧
    BitEnds 1 False (Bitmap.rangeTryClear 1 0 512) (fun _ => 0#64)
      (Claims 1 (bitRange 0 512) fun _ => 0#64)) ↔ (0 < 8 ∨ 60 < chunkBits) :=
  chunk_ranges (by decide) (by decide) (by decide) (by decide)

/-- The claim of no bits behind the last one panics, in a chunk that is clear. -/
theorem chunk_range_end : 512 + 0 ≤ chunkBits ∧ ¬ ChunkRange 1 0 (fun _ => 0#64) 512 0 :=
  ⟨by decide, fun h => h.tryClearN.not_panics BChunk.tryClearN_panics⟩

end MimallocRs
