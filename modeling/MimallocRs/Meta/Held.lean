import MimallocRs.Meta.Limit
import Mathlib.Data.List.Pairwise

/-!
# Metadata blocks never overlap

`Holds s l` says that the pointers `l` are allocated in the metadata memory `s`: none of their blocks
is free, and no two of them share a block. It is kept by every call of the metadata allocator, which
adds what `meta_zalloc` returns to `l` and takes what `meta_free` gives back from it. A new pointer
therefore differs from all that are held (`Holds.fresh`).
-/

namespace MimallocRs

open Interleave Prog

variable {refuses : Bool} {s : MetaMem} {α : Type} {c p size : ℕ} {l : List (ℕ × ℕ)}

namespace MetaMem

/-- The number of blocks of a request. -/
abbrev blocksOf (r : ℕ × ℕ) : ℕ := divCeil r.2 metaBlockSize

/-- The blocks of the request `r` lie in a chunk, behind its header, and are not free. -/
def Held (s : MetaMem) (r : ℕ × ℕ) : Prop :=
  ∃ c ∈ s.chunks, ∃ idx, r.1 = Meta.blockPtr c idx ∧ Meta.headerBlocks ≤ idx ∧ 0 < blocksOf r ∧
    idx + blocksOf r ≤ metaBlocks ∧ Disjoint (bitRange idx (blocksOf r)) (bitsOf 1 (s.words c))

/-- Two requests share no block. -/
def BlocksApart (r r' : ℕ × ℕ) : Prop :=
  r.1 + blocksOf r * metaBlockSize ≤ r'.1 ∨ r'.1 + blocksOf r' * metaBlockSize ≤ r.1

/-- The requests `l`, with the pointers that have served them, are allocated. -/
structure Holds (s : MetaMem) (l : List (ℕ × ℕ)) : Prop where
  chunks : s.Chunks
  held : ∀ r ∈ l, s.Held r
  apart : l.Pairwise BlocksApart

theorem BlocksApart.symm {r r' : ℕ × ℕ} (h : BlocksApart r r') : BlocksApart r' r := Or.symm h

theorem Held.allocation {r : ℕ × ℕ} (h : s.Held r) : s.Allocation r.1 r.2 := by
  obtain ⟨c, hc, idx, hp, hidx, hpos, hle, -⟩ := h
  exact ⟨c, hc, idx, hp, hidx, hpos, hle⟩

theorem Held.mono {s' : MetaMem} {r : ℕ × ℕ} (h : s.Held r) (hsub : s.chunks ⊆ s'.chunks)
    (hbits : ∀ c ∈ s.chunks, bitsOf 1 (s'.words c) ⊆ bitsOf 1 (s.words c)) : s'.Held r := by
  obtain ⟨c, hc, idx, hp, hidx, hpos, hle, hdis⟩ := h
  exact ⟨c, hsub hc, idx, hp, hidx, hpos, hle, hdis.mono_right (hbits c hc)⟩

theorem Holds.subset {l' : List (ℕ × ℕ)} (h : s.Holds l) (hl : l'.Sublist l) : s.Holds l' :=
  ⟨h.chunks, fun r hr => h.held r (hl.subset hr), h.apart.sublist hl⟩

theorem Holds.perm {l' : List (ℕ × ℕ)} (h : s.Holds l) (hl : l.Perm l') : s.Holds l' := by
  refine ⟨h.chunks, fun r hr => h.held r (hl.mem_iff.mpr hr), ?_⟩
  exact hl.pairwise h.apart fun hr => hr.symm

/-- Other fields of the memory do not matter. -/
theorem Holds.congr {s' : MetaMem} (h : s.Holds l) (hhead : s'.head = s.head) (hnext : s'.next = s.next)
    (hwords : s'.words = s.words) (hchunks : s'.chunks = s.chunks) : s'.Holds l := by
  obtain ⟨⟨hchain, hapart, hok⟩, hheld, hl⟩ := h
  refine ⟨⟨?_, ?_, ?_⟩, fun r hr => ?_, hl⟩
  · rwa [hhead, hnext, hchunks]
  · rwa [hchunks]
  · rwa [hchunks, hwords]
  · apply (hheld r hr).mono
    · rw [hchunks]
      exact fun _ h => h
    · rw [hwords]
      exact fun _ _ => subset_rfl

theorem Holds.ne_of_mem {q : ℕ} (h : s.Holds ((p, size) :: l)) (hq : (q, size) ∈ l) : q ≠ p := by
  rintro rfl
  obtain ⟨-, -, -, -, -, hpos, -⟩ := h.held _ List.mem_cons_self
  have hapart := (List.pairwise_cons.mp h.apart).1 _ hq
  have hblock : 0 < metaBlockSize := by decide
  have hlt := Nat.mul_pos hpos hblock
  unfold BlocksApart at hapart
  omega

/-- Ranges of blocks that share none lie one behind the other. -/
theorem range_apart {a b m n : ℕ} (hm : 0 < m) (hn : 0 < n)
    (h : Disjoint (bitRange a m) (bitRange b n)) : a + m ≤ b ∨ b + n ≤ a := by
  by_contra hno
  rw [not_or, not_le, not_le] at hno
  have hmem : max a b ∈ bitRange a m := by
    rw [mem_bitRange]
    omega
  apply Set.disjoint_left.mp h hmem
  rw [mem_bitRange]
  omega

/-- Blocks of apart chunks are apart, and so are those of apart ranges of one chunk. -/
theorem blocksApart_of_chunks {r r' : ℕ × ℕ} {c d i j : ℕ} (hr : r.1 = Meta.blockPtr c i)
    (hr' : r'.1 = Meta.blockPtr d j) (hi : i + blocksOf r ≤ metaBlocks)
    (hj : j + blocksOf r' ≤ metaBlocks) (hcd : c ≠ d → Apart c d)
    (hsame : c = d → i + blocksOf r ≤ j ∨ j + blocksOf r' ≤ i) : BlocksApart r r' := by
  have hregion : metaRegionSize = metaBlocks * 64 := by decide
  have hblock : metaBlockSize = 64 := rfl
  unfold BlocksApart Meta.blockPtr at *
  rw [hr, hr', hblock]
  by_cases heq : c = d
  · have := hsame heq
    omega
  · have hapart := hcd heq
    unfold Apart at hapart
    omega

end MetaMem

namespace Meta

open MetaMem

/-- **What `meta_zalloc` returns shares no block with what is held.** -/
theorem metaZalloc_holds (h : s.Holds l) :
    MetaEnds refuses (metaZalloc size) s fun r s' =>
      s'.Holds l ∧ s'.live = s.live ∧ ∀ p, r = some p → s'.Holds ((p, size) :: l) := by
  apply (metaZalloc_ends h.chunks).mono
  intro r s' hz
  have hl : s'.Holds l := ⟨hz.chunks, fun q hq => (h.held q hq).mono hz.subset hz.shrinks, h.apart⟩
  refine ⟨hl, hz.live, fun p hp => ?_⟩
  obtain ⟨c, hc, idx, hptr, hidx, hpos, hle, hdis, hset⟩ := hz.taken p hp
  refine ⟨hz.chunks, List.forall_mem_cons.mpr ⟨⟨c, hc, idx, hptr, hidx, hpos, hle, hdis⟩, hl.held⟩,
    List.pairwise_cons.mpr ⟨fun q hq => ?_, h.apart⟩⟩
  obtain ⟨d, hd, j, hqptr, -, hqpos, hqle, hqdis⟩ := h.held q hq
  apply blocksApart_of_chunks (r := (p, size)) hptr hqptr hle hqle
  · have hsymm : Std.Symm Apart := ⟨fun _ _ h => Or.symm h⟩
    exact fun hne => hz.chunks.apart.forall hc (hz.subset hd) hne
  · rintro rfl
    exact range_apart hpos hqpos (hqdis.symm.mono_left (hset hd))

/-- What `meta_free` gives back is no longer held. -/
theorem metaFree_holds (h : s.Holds ((p, size) :: l)) :
    MetaEnds refuses (metaFree p size) s fun _ s' => s'.Holds l ∧ s'.live = s.live := by
  obtain ⟨hp, hl⟩ := List.forall_mem_cons.mp h.held
  obtain ⟨happ, hapart⟩ := List.pairwise_cons.mp h.apart
  obtain ⟨c, hc, idx, hptr, hidx, hpos, hle, -⟩ := hp
  have hptr : p = blockPtr c idx := hptr
  subst hptr
  apply MetaEnds.act (fun _ => rfl)
  apply (freeInChunks_ends h.chunks hc hidx hpos hle h.chunks.chain hc h.chunks.apart).mono
  rintro _ s' ⟨hchunks, hsame, hlive, w, rfl, hbits⟩
  refine ⟨⟨hchunks, fun q hq => ?_, hapart⟩, hlive⟩
  obtain ⟨d, hd, j, hqptr, hqidx, hqpos, hqle, hqdis⟩ := hl q hq
  refine ⟨d, hd, j, hqptr, hqidx, hqpos, hqle, ?_⟩
  by_cases hdc : d = c
  · -- the ranges of the two requests in their common chunk are apart
    subst hdc
    rw [withWords_words, hbits]
    apply Set.disjoint_union_right.mpr ⟨hqdis, _⟩
    have hq : d + idx * 64 + divCeil size metaBlockSize * 64 ≤ q.1 ∨
      q.1 + blocksOf q * 64 ≤ d + idx * 64 := happ q hq
    have hqptr : q.1 = d + j * 64 := hqptr
    rw [Set.disjoint_left]
    intro b hb hb'
    have hb' : idx ≤ b ∧ b < idx + divCeil size metaBlockSize := mem_bitRange.mp hb'
    rw [mem_bitRange] at hb
    omega
  · have hwords : (s.withWords c w).words d = s.words d := Function.update_of_ne hdc ..
    rwa [hwords]

end Meta

namespace Arena

open Meta MetaMem

variable {sliceCount : ℕ} {hpos : 0 < sliceCount} {commit : Bool}

/-- The bitmaps of the new arena are none of the metadata allocator's, and all slices are free. -/
theorem initBitmaps_fresh {a : Arena} (hnew : s.new.words .free = fun _ => 0#64) :
    MetaEnds refuses ((a.initBitmaps commit).hoist (.arena a)) s fun _ s' =>
      ∃ m, s' = { s with new := m } ∧ a.freeBits m = bitRange 0 a.sliceCount := by
  have hexec : ∀ {β : Type} (e : ArenaAct β) (s : MetaMem) (choice : ℕ),
      (metaMachine refuses).exec () (.arena a e) s choice =
        ((arenaMachine a).exec () e s.new choice).map fun r => (r.1, { s with new := r.2 }) :=
    fun _ _ _ => rfl
  apply (Ends.hoist (N := metaMachine refuses) (.arena a) (·.new) (fun m s => { s with new := m })
    (fun _ _ _ => rfl) (fun _ _ => rfl) (fun _ => rfl) hexec initBitmaps_ends).mono
  rintro _ s' ⟨hfree, hs'⟩
  refine ⟨_, hs', ?_⟩
  have hnone : a.freeBits s.new = ∅ := by
    rw [freeBits, hnew, Set.eq_empty_iff_forall_notMem]
    intro j hj
    have hbit := hj.2
    simp at hbit
  rw [hfree, hnone, Set.empty_union]

/-- **What `Arena::create` leaves.** The metadata of an arena that it returns is held and all slices
are free; otherwise nothing more is held than before. -/
theorem create_holds {l : List (ℕ × ℕ)} (h : s.Holds l) :
    MetaEnds refuses (create sliceCount hpos commit) s fun r s' => s'.live = s.live ∧
      match r with
      | none => s'.Holds l
      | some r => s'.Holds (r.blocks ++ l) ∧ r.arena.sliceCount = sliceCount ∧
          r.arena.freeBits s'.new = bitRange 0 sliceCount := by
  simp only [create, Prog.bind_eq, Prog.pure_eq, Prog.perform_bind]
  split
  · exact Ends.ret ⟨rfl, h⟩
  · apply Ends.act
    · intro choice hnone
      have hnone : (if refuses ∧ choice = 0 then _ else _) = none := hnone
      split at hnone <;> cases hnone
    · intro choice r s₀ hsome
      have hsome : (if refuses ∧ choice = 0 then _ else _) = some (r, s₀) := hsome
      split at hsome
      · cases hsome
        exact Ends.ret ⟨rfl, h⟩
      · cases hsome
        apply Ends.bind
        apply (metaZalloc_holds h).mono
        rintro r s₁ ⟨h₁, hlive₁, hhot⟩
        cases r with
        | none =>
          apply MetaEnds.act (fun _ => rfl)
          exact Ends.ret ⟨hlive₁, h₁⟩
        | some hot =>
          apply Ends.bind
          apply (metaZalloc_holds (hhot hot rfl)).mono
          rintro r s₂ ⟨h₂, hlive₂, hdesc⟩
          cases r with
          | none =>
            apply MetaEnds.act (fun _ => rfl)
            apply Ends.bind
            apply (metaFree_holds h₂).mono
            rintro _ s₃ ⟨h₃, hlive₃⟩
            exact Ends.ret ⟨hlive₃.trans (hlive₂.trans hlive₁), h₃⟩
          | some desc =>
            apply MetaEnds.act (fun _ => rfl)
            apply Ends.bind
            apply (initBitmaps_fresh rfl).mono
            rintro _ s₃ ⟨m, rfl, hfree⟩
            apply Ends.ret
            refine ⟨hlive₂.trans hlive₁, ?_, rfl, hfree⟩
            exact (hdesc desc rfl).congr rfl rfl rfl rfl

/-- A new arena that is given back leaves nothing held. -/
theorem destroy_holds {l : List (ℕ × ℕ)} {r : Created} (h : s.Holds (r.blocks ++ l)) :
    MetaEnds refuses (destroy r) s fun _ s' => s'.live = s.live ∧ s'.Holds l := by
  have hswap : s.Holds ((r.hot, hotBitmapBytes r.arena.chunkCount) :: (r.desc, arenaSize) :: l) :=
    h.perm (List.Perm.swap ..)
  simp only [destroy, Prog.bind_eq, Prog.perform_bind]
  apply MetaEnds.act (fun _ => rfl)
  apply Ends.bind
  apply (metaFree_holds hswap).mono
  rintro _ s₁ ⟨h₁, hlive₁⟩
  apply (metaFree_holds h₁).mono
  rintro _ s₂ ⟨h₂, hlive₂⟩
  exact ⟨hlive₂.trans hlive₁, h₂⟩

end Arena

end MimallocRs
