import MimallocRs.Bitmap.Whole
import Mathlib.Data.Set.Card

/-!
# Counting bits

`popcount` adds up the set bits of the fields, chunk by chunk. Used alone, it counts the bits of the
bitmap.
-/

namespace MimallocRs

open Interleave Prog

variable {cc c : ℕ} {panics : Prop} {w : Words}

/-- `BChunk::popcount`. -/
def BChunk.popcount (ch : ℕ → Loc) : Prog BitAct ℕ := BChunk.countFree ch (List.range chunkFields)

namespace Bitmap

/-- The set bits of some of the chunks. -/
def countChunks : List ℕ → Prog BitAct ℕ
  | [] => return 0
  | c :: cs => do
    let here ← BChunk.popcount (.chunk c)
    let rest ← countChunks cs
    return here + rest

/-- `Bitmap::popcount` of a bitmap of `cc` chunks. -/
def popcount (cc : ℕ) : Prog BitAct ℕ := countChunks (List.range cc)

/-- The set bits of a chunk, one after the other. -/
def countBits (w : Words) (c : ℕ) : ℕ :=
  (List.range 512).countP fun j => (w (.chunk c (j / 64))).getLsbD (j % 64)

theorem countChunks_ends {cs : List ℕ} (hcs : ∀ c ∈ cs, c < cc) :
    BitEnds cc panics (countChunks cs) w fun r w' => w' = w ∧ r = (cs.map (countBits w)).sum := by
  induction cs with
  | nil => exact Ends.ret ⟨rfl, rfl⟩
  | cons c cs ih =>
    simp only [countChunks, BChunk.popcount, Prog.bind_eq, Prog.pure_eq]
    apply Ends.bind
    apply (BChunk.countFree_ends (hcs c List.mem_cons_self) fun f hf => List.mem_range.mp hf).mono
    rintro here _ ⟨rfl, rfl⟩
    apply Ends.bind
    apply (ih fun c' hc' => hcs c' (List.mem_cons_of_mem _ hc')).mono
    rintro rest _ ⟨rfl, rfl⟩
    apply Ends.ret
    refine ⟨rfl, ?_⟩
    rw [BChunk.sum_countOnes, List.map_cons, List.sum_cons]
    rfl

/-- The bits of the first chunks, counted chunk by chunk. -/
theorem sum_countBits (w : Words) (m : ℕ) : ((List.range m).map (countBits w)).sum =
    (List.range (m * 512)).countP fun j =>
      (w (.chunk (j / 512) (j % 512 / 64))).getLsbD (j % 64) := by
  induction m with
  | zero => simp
  | succ m ih =>
    rw [List.range_succ, List.map_append, List.sum_append, ih, Nat.succ_mul, List.range_add,
      List.countP_append, List.countP_map]
    simp only [List.map_cons, List.map_nil, List.sum_singleton, Nat.add_left_cancel_iff]
    apply List.countP_congr
    intro j hj
    have hlt := List.mem_range.mp hj
    have hchunk : (m * 512 + j) / 512 = m := by omega
    have hfield : (m * 512 + j) % 512 / 64 = j / 64 := by omega
    have hbit : (m * 512 + j) % 64 = j % 64 := by omega
    show _ ↔ (w (.chunk ((m * 512 + j) / 512) ((m * 512 + j) % 512 / 64))).getLsbD
      ((m * 512 + j) % 64) = true
    rw [hchunk, hfield, hbit]

/-- The number of set bits. -/
theorem ncard_bitsOf (cc : ℕ) (w : Words) :
    (bitsOf cc w).ncard = ((List.range cc).map (countBits w)).sum := by
  have hset : bitsOf cc w = ((List.range (cc * 512)).filter fun j =>
      (w (.chunk (j / 512) (j % 512 / 64))).getLsbD (j % 64)).toFinset := by
    ext j
    have hlt : j / 512 < cc ↔ j < cc * 512 := Nat.div_lt_iff_lt_mul (by decide)
    simp [bitsOf, hlt]
  rw [hset, Set.ncard_coe_finset, List.toFinset_card_of_nodup (List.nodup_range.filter _),
    ← List.countP_eq_length_filter, sum_countBits]

/-- **`popcount` counts the bits** that are set. -/
theorem popcount_ends :
    BitEnds cc panics (popcount cc) w fun r w' => w' = w ∧ r = (bitsOf cc w).ncard := by
  apply (countChunks_ends fun c hc => List.mem_range.mp hc).mono
  rintro r w' ⟨rfl, rfl⟩
  exact ⟨rfl, (ncard_bitsOf cc w').symm⟩

end Bitmap

end MimallocRs
