import MimallocRs.Meta.Prog
import MimallocRs.Bitmap.Search
import MimallocRs.Foundations.Chain

/-!
# What the metadata allocator can serve

A metadata chunk has 512 blocks, and `meta_zalloc` lets requests of up to 512 blocks pass its guard.
But no chunk ever has more than 508 free blocks in a row, since its header takes four of them. Hence
a request is served, whenever the operating system grants a region, if and only if it takes at most
508 blocks. The bitmaps of an arena of `n` chunks take `4 * (n + 1)` blocks, so that an arena can be
created with at most 126 chunks, although `Arena::create` admits 512.
-/

namespace MimallocRs

open Interleave Prog

variable {refuses : Bool} {s : MetaMem} {α : Type} {c p size : ℕ}

/-- Every execution of a call on the metadata allocator comes to an end. -/
abbrev MetaEnds {α : Type} (refuses : Bool) (p : Prog MetaAct α) (s : MetaMem)
    (Q : α → MetaMem → Prop) : Prop :=
  Ends (metaMachine refuses) () False p s Q

namespace MetaEnds

variable {β : Type} {s' : MetaMem} {Q : α → MetaMem → Prop}

/-- An event that has one answer, whatever the choice. -/
theorem act {e : MetaAct β} {k : β → Prog MetaAct α} {b : β}
    (he : ∀ choice, s.exec refuses e choice = some (b, s')) (h : MetaEnds refuses (k b) s' Q) :
    MetaEnds refuses (.act e k) s Q := by
  apply Ends.act
  · intro choice hnone
    cases (he choice).symm.trans hnone
  · intro choice b' s'' hsome
    cases (he choice).symm.trans hsome
    exact h

end MetaEnds

namespace MetaMem

/-- The bitmap of chunk `c` is `w`. -/
def withWords (s : MetaMem) (c : ℕ) (w : Words) : MetaMem :=
  { s with words := Function.update s.words c w }

@[simp] theorem withWords_words (w : Words) : (s.withWords c w).words c = w :=
  Function.update_self ..

@[simp] theorem withWords_self : s.withWords c (s.words c) = s := by
  unfold withWords
  rw [Function.update_eq_self]

/-- The bitmap of a chunk is covered by its chunkmap, and its header is never free. -/
structure ChunkOk (w : Words) : Prop where
  covered : Covered 1 w
  header : ∀ j ∈ bitsOf 1 w, Meta.headerBlocks ≤ j

/-- The chunks lie apart from each other, and their bitmaps are sound. -/
structure Chunks (s : MetaMem) : Prop where
  chain : Chain s.next s.head s.chunks
  apart : s.chunks.Pairwise Apart
  ok : ∀ c ∈ s.chunks, ChunkOk (s.words c)

/-- The blocks of a request of `size` bytes at `p` lie in a chunk, behind its header. -/
def Allocation (s : MetaMem) (p size : ℕ) : Prop :=
  ∃ c ∈ s.chunks, ∃ idx, p = Meta.blockPtr c idx ∧ Meta.headerBlocks ≤ idx ∧
    0 < divCeil size metaBlockSize ∧ idx + divCeil size metaBlockSize ≤ metaBlocks

/-- What is handed out are blocks of the chunks. -/
structure Inv (s : MetaMem) : Prop where
  chunks : s.Chunks
  live : ∀ r ∈ s.live, s.Allocation r.1 r.2

theorem Allocation.mono {s' : MetaMem} (h : s.Allocation p size) (hle : s.chunks ⊆ s'.chunks) :
    s'.Allocation p size := by
  obtain ⟨c, hc, hidx⟩ := h
  exact ⟨c, hle hc, hidx⟩

/-- What is handed out leaves room for the header. -/
theorem Allocation.blocks_le (h : s.Allocation p size) : divCeil size metaBlockSize ≤ 508 := by
  obtain ⟨_, _, idx, -, hidx, -, hle⟩ := h
  have hroom : metaBlocks = 512 ∧ Meta.headerBlocks = 4 := by decide
  omega

/-- A chunk whose bitmap changes but stays sound. -/
theorem Chunks.withWords {w : Words} (h : s.Chunks) (hw : ChunkOk w) :
    (s.withWords c w).Chunks where
  chain := h.chain
  apart := h.apart
  ok d hd := by
    by_cases hdc : d = c
    · rw [hdc, withWords_words]
      exact hw
    · have hwords : (s.withWords c w).words d = s.words d := Function.update_of_ne hdc ..
      rw [hwords]
      exact h.ok d hd

theorem apart_place (choice : ℕ) : ∀ d ∈ s.chunks, Apart (s.place choice) d := by
  unfold place
  split
  · next h => exact h
  · have hmax : ∀ l : List ℕ, ∀ d ∈ l, d + metaRegionSize ≤
        l.foldr (fun c top => max (c + metaRegionSize) top) 0 := by
      intro l
      induction l with
      | nil => simp
      | cons c l ih =>
        intro d hd
        rw [List.foldr_cons]
        rcases List.mem_cons.mp hd with rfl | hd
        · exact le_max_left _ _
        · exact (ih d hd).trans (le_max_right _ _)
    exact fun d hd => Or.inr (hmax s.chunks d hd)

end MetaMem

namespace Meta

open MetaMem

variable {blocks idx : ℕ} {l : List ℕ} {cur : Option ℕ}

/-! ## Calls on the bitmap of a chunk -/

theorem bitsOf_zero : bitsOf 1 (fun _ => 0#64) = ∅ := by
  rw [Set.eq_empty_iff_forall_notMem]
  intro j hj
  have hbit := hj.2
  simp at hbit

/-- A call on the bitmap of a chunk. -/
theorem onChunk_ends {p : Prog BitAct α} {R : α → Words → Prop}
    (h : BitEnds 1 False p (s.words c) R) :
    MetaEnds refuses (onChunk c p) s fun r s' => ∃ w, R r w ∧ s' = s.withWords c w := by
  have hexec : ∀ {β : Type} (e : BitAct β) (s : MetaMem) (choice : ℕ),
      (metaMachine refuses).exec () (.bit c e) s choice =
        ((wordMachine 1).exec () e (s.words c) choice).map fun r => (r.1, s.withWords c r.2) :=
    fun _ _ _ => rfl
  apply (Ends.hoist (N := metaMachine refuses) (.bit c) (·.words c) (fun w s => s.withWords c w)
    (fun s w w' => by simp [MetaMem.withWords]) (fun _ _ => withWords_words _)
    (fun _ => withWords_self) hexec h).mono
  intro r s' hr
  exact ⟨_, hr⟩

/-- The search of a chunk for a run of free blocks. -/
theorem search_ends (hok : ChunkOk (s.words c)) :
    MetaEnds refuses (onChunk c (Bitmap.tryFindAndClearN 1 blocks 0)) s fun r s' =>
      match r with
      | none => s' = s ∧ (0 < blocks → blocks ≤ 512 → BChunk.NoRun 1 (s.words c) 0 blocks)
      | some idx => ∃ w, s' = s.withWords c w ∧ ChunkOk w ∧ idx + blocks ≤ 512 ∧
          bitRange idx blocks ⊆ bitsOf 1 (s.words c) ∧
          bitsOf 1 w = bitsOf 1 (s.words c) \ bitRange idx blocks := by
  have hcc : 1 ≤ 512 := by omega
  have hsearch : BitEnds 1 False (Bitmap.tryFindAndClearN 1 blocks 0) (s.words c) fun r w =>
      match r with
      | none => w = s.words c ∧ (0 < blocks → blocks ≤ 512 →
          BChunk.NoRun 1 (s.words c) 0 blocks)
      | some idx => ChunkOk w ∧ idx + blocks ≤ 512 ∧
          bitRange idx blocks ⊆ bitsOf 1 (s.words c) ∧
          bitsOf 1 w = bitsOf 1 (s.words c) \ bitRange idx blocks := by
    by_cases hle : blocks ≤ 512
    · apply (((Bitmap.tryFindAndClearN_ends hcc).and
        (Bitmap.tryFindAndClearN_none hcc hle hok.covered)).and_panics
        (Bitmap.tryFindAndClearN_covers hcc hok.covered)).mono
      rintro r w ⟨⟨hr, hnone⟩, hcov⟩
      cases r with
      | none => exact ⟨hr.1, fun hpos _ => hnone rfl hpos 0 (by omega)⟩
      | some idx =>
        obtain ⟨hidx, -, hset, hbits⟩ := hr
        refine ⟨⟨hcov, fun j hj => hok.header j ?_⟩, hidx, hset, hbits⟩
        rw [hbits] at hj
        exact hj.1
    · apply ((Bitmap.tryFindAndClearN_ends hcc).and_panics
        (Bitmap.tryFindAndClearN_covers hcc hok.covered)).mono
      rintro r w ⟨hr, hcov⟩
      cases r with
      | none => exact ⟨hr.1, fun _ h => absurd h hle⟩
      | some idx => omega
  apply (onChunk_ends hsearch).mono
  rintro r s' ⟨w, hr, rfl⟩
  cases r with
  | none =>
    obtain ⟨rfl, hrun⟩ := hr
    exact ⟨withWords_self, hrun⟩
  | some idx => exact ⟨w, rfl, hr⟩

/-! ## `meta_zalloc` -/

/-- The walk over the chunks ends at one with room, or has changed nothing. -/
theorem findInChunks_ends (hok : ∀ c ∈ l, ChunkOk (s.words c)) (hl : Chain s.next cur l) :
    MetaEnds refuses (findInChunks blocks cur) s fun r s' =>
      match r with
      | none => s' = s
      | some p => ∃ c ∈ l, ∃ w idx, s' = s.withWords c w ∧ ChunkOk w ∧ p = blockPtr c idx ∧
          idx + blocks ≤ 512 ∧ bitRange idx blocks ⊆ bitsOf 1 (s.words c) ∧
          bitsOf 1 w = bitsOf 1 (s.words c) \ bitRange idx blocks := by
  induction l generalizing cur with
  | nil =>
    subst hl
    apply Ends.loop
    exact Ends.ret rfl
  | cons c l ih =>
    obtain ⟨rfl, hl⟩ := hl
    apply Ends.loop
    apply Ends.bind
    apply Ends.bind
    apply (search_ends (hok c List.mem_cons_self)).mono
    intro r s' hr
    cases r with
    | some idx =>
      obtain ⟨w, rfl, hw, hidx, hset, hbits⟩ := hr
      apply Ends.ret
      apply Ends.ret
      exact ⟨c, List.mem_cons_self, w, idx, rfl, hw, rfl, hidx, hset, hbits⟩
    | none =>
      obtain ⟨rfl, -⟩ := hr
      apply MetaEnds.act (fun _ => rfl)
      apply Ends.ret
      apply (ih (fun d hd => hok d (List.mem_cons_of_mem _ hd)) hl).mono
      intro r s'' hr
      cases r with
      | none => exact hr
      | some p =>
        obtain ⟨d, hd, hp⟩ := hr
        exact ⟨d, List.mem_cons_of_mem _ hd, hp⟩

/-- A new chunk has all blocks behind its header free. -/
theorem pushNewChunk_ends (h : s.Chunks) :
    MetaEnds refuses pushNewChunk s fun r s' =>
      match r with
      | none => refuses = true ∧ s' = s
      | some c => s'.Chunks ∧ s'.chunks = c :: s.chunks ∧ s'.live = s.live ∧
          bitRange headerBlocks (metaBlocks - headerBlocks) ⊆ bitsOf 1 (s'.words c) ∧
          c ∉ s.chunks ∧ ∀ d ∈ s.chunks, s'.words d = s.words d := by
  have hin : headerBlocks + (metaBlocks - headerBlocks) ≤ 1 * 512 := by decide
  simp only [pushNewChunk, Prog.bind_eq, Prog.pure_eq, Prog.perform_bind]
  apply Ends.act
  · intro choice hnone
    have hnone : (if refuses ∧ choice = 0 then _ else _) = none := hnone
    split at hnone <;> cases hnone
  · intro choice r s₁ hsome
    have hsome : (if refuses ∧ choice = 0 then _ else _) = some (r, s₁) := hsome
    split at hsome
    · next hr =>
      cases hsome
      exact Ends.ret ⟨hr.1, rfl⟩
    · cases hsome
      have hapart : ∀ d ∈ s.chunks, Apart (s.place choice) d := apart_place choice
      generalize s.place choice = c at hapart
      have hnew : c ∉ s.chunks := by
        intro hc
        have hself := hapart c hc
        have hpos : 0 < metaRegionSize := by decide
        unfold Apart at hself
        omega
      apply MetaEnds.act (fun _ => rfl)
      apply Ends.bind
      apply (onChunk_ends ((Bitmap.unsafeSetN_ends (by omega) hin).and_panics
        (Bitmap.unsafeSetN_covers (by
          show Covered 1 (Function.update s.words c (fun _ => 0#64) c)
          rw [Function.update_self]
          exact covered_zero)))).mono
      rintro _ s₂ ⟨w, ⟨hbits, hcov⟩, rfl⟩
      have hfree : bitsOf 1 w = bitRange headerBlocks (metaBlocks - headerBlocks) := by
        rw [hbits]
        show bitsOf 1 (Function.update s.words c (fun _ => 0#64) c) ∪ _ = _
        rw [Function.update_self, bitsOf_zero, Set.empty_union]
      apply MetaEnds.act (fun _ => rfl)
      apply Ends.ret
      have hsame : ∀ d ∈ s.chunks,
          Function.update (Function.update s.words c fun _ => 0#64) c w d = s.words d := by
        intro d hd
        have hdc : d ≠ c := fun hdc => hnew (hdc ▸ hd)
        rw [Function.update_of_ne hdc, Function.update_of_ne hdc]
      refine ⟨⟨⟨rfl, ?_⟩, List.pairwise_cons.mpr ⟨hapart, h.apart⟩, ?_⟩, rfl, rfl, ?_, hnew, hsame⟩
      · show Chain (Function.update s.next c s.head) (Function.update s.next c s.head c) s.chunks
        rw [Function.update_self]
        apply h.chain.congr
        intro d hd
        have hdc : d ≠ c := fun hdc => hnew (hdc ▸ hd)
        exact Function.update_of_ne hdc ..
      · intro d hd
        by_cases hdc : d = c
        · subst hdc
          show ChunkOk (Function.update (Function.update s.words d _) d w d)
          rw [Function.update_self]
          refine ⟨hcov, fun j hj => ?_⟩
          rw [hfree] at hj
          exact (mem_bitRange.mp hj).1
        · show ChunkOk (Function.update (Function.update s.words c _) c w d)
          rw [Function.update_of_ne hdc, Function.update_of_ne hdc]
          exact h.ok d ((List.mem_cons.mp hd).resolve_left hdc)
      · show _ ⊆ bitsOf 1 (Function.update (Function.update s.words c _) c w c)
        rw [Function.update_self, hfree]

/-- What `meta_zalloc` does: a pointer it returns is to blocks of a chunk, and it returns one, if
the operating system does not refuse, whenever a chunk has enough blocks behind its header. -/
structure Zalloced (refuses : Bool) (size : ℕ) (s : MetaMem) (r : Option ℕ) (s' : MetaMem) :
    Prop where
  chunks : s'.Chunks
  subset : s.chunks ⊆ s'.chunks
  live : s'.live = s.live
  shrinks : ∀ c ∈ s.chunks, bitsOf 1 (s'.words c) ⊆ bitsOf 1 (s.words c)
  taken : ∀ p, r = some p → ∃ c ∈ s'.chunks, ∃ idx, p = blockPtr c idx ∧ headerBlocks ≤ idx ∧
    0 < divCeil size metaBlockSize ∧ idx + divCeil size metaBlockSize ≤ metaBlocks ∧
    Disjoint (bitRange idx (divCeil size metaBlockSize)) (bitsOf 1 (s'.words c)) ∧
    (c ∈ s.chunks → bitRange idx (divCeil size metaBlockSize) ⊆ bitsOf 1 (s.words c))
  served : refuses = false → 0 < divCeil size metaBlockSize →
    divCeil size metaBlockSize ≤ metaBlocks - headerBlocks → r.isSome = true

theorem Zalloced.allocated {r : Option ℕ} {s' : MetaMem} (h : Zalloced refuses size s r s') :
    ∀ p, r = some p → s'.Allocation p size := by
  intro p hp
  obtain ⟨c, hc, idx, hidx, hheader, hpos, hle, -⟩ := h.taken p hp
  exact ⟨c, hc, idx, hidx, hheader, hpos, hle⟩

/-- A run of free blocks lies behind the header. -/
theorem header_le (hok : ChunkOk (s.words c)) (hpos : 0 < blocks)
    (hset : bitRange idx blocks ⊆ bitsOf 1 (s.words c)) : headerBlocks ≤ idx :=
  hok.header idx (hset (mem_bitRange.mpr ⟨le_rfl, by omega⟩))

theorem withWords_shrinks {w : Words} {R : Set ℕ} (hbits : bitsOf 1 w = bitsOf 1 (s.words c) \ R) :
    ∀ d ∈ s.chunks, bitsOf 1 ((s.withWords c w).words d) ⊆ bitsOf 1 (s.words d) := by
  intro d _
  by_cases hdc : d = c
  · rw [hdc, withWords_words, hbits]
    exact Set.sdiff_subset
  · have hwords : (s.withWords c w).words d = s.words d := Function.update_of_ne hdc ..
    rw [hwords]

theorem metaZalloc_ends (h : s.Chunks) :
    MetaEnds refuses (metaZalloc size) s (Zalloced refuses size s) := by
  simp only [metaZalloc, Prog.bind_eq, Prog.pure_eq, Prog.perform_bind]
  split
  · next hguard =>
    apply Ends.ret
    refine ⟨h, fun _ hc => hc, rfl, fun _ _ => subset_rfl, fun p hp => (by cases hp),
      fun _ hpos hle => ?_⟩
    unfold metaBlocks headerBlocks at *
    omega
  · next hguard =>
    rw [not_or, Nat.not_lt] at hguard
    have hpos : 0 < divCeil size metaBlockSize := Nat.pos_of_ne_zero hguard.1
    apply MetaEnds.act (fun _ => rfl)
    apply Ends.bind
    apply (findInChunks_ends h.ok h.chain).mono
    intro r s₁ hr
    cases r with
    | some p =>
      obtain ⟨c, hc, w, idx, rfl, hw, rfl, hidx, hset, hbits⟩ := hr
      apply Ends.ret
      refine ⟨h.withWords hw, fun _ hd => hd, rfl, withWords_shrinks hbits, ?_, fun _ _ _ => rfl⟩
      intro p hp
      cases hp
      refine ⟨c, hc, idx, rfl, header_le (h.ok c hc) hpos hset, hpos, hidx, ?_, fun _ => hset⟩
      rw [withWords_words, hbits]
      exact Set.disjoint_sdiff_right
    | none =>
      subst hr
      apply Ends.bind
      apply (pushNewChunk_ends h).mono
      intro r s₂ hr
      cases r with
      | none =>
        obtain ⟨hrefuses, rfl⟩ := hr
        apply Ends.ret
        refine ⟨h, fun _ hc => hc, rfl, fun _ _ => subset_rfl, fun p hp => (by cases hp),
          fun hgrants => ?_⟩
        rw [hrefuses] at hgrants
        cases hgrants
      | some c =>
        obtain ⟨h₂, hchunks, hlive, hfree, hnew, hsame⟩ := hr
        have hc : c ∈ s₂.chunks := by
          rw [hchunks]
          exact List.mem_cons_self
        have hsub : s₁.chunks ⊆ s₂.chunks := by
          rw [hchunks]
          exact List.subset_cons_self _ _
        apply Ends.bind
        apply (search_ends (h₂.ok c hc)).mono
        intro r s₃ hr
        cases r with
        | some idx =>
          obtain ⟨w, rfl, hw, hidx, hset, hbits⟩ := hr
          apply Ends.ret
          refine ⟨h₂.withWords hw, hsub, hlive, ?_, ?_, fun _ _ _ => rfl⟩
          · intro d hd
            rw [← hsame d hd]
            exact withWords_shrinks hbits d (hsub hd)
          · intro p hp
            cases hp
            refine ⟨c, hc, idx, rfl, header_le (h₂.ok c hc) hpos hset, hpos, hidx, ?_,
              fun hc => absurd hc hnew⟩
            rw [withWords_words, hbits]
            exact Set.disjoint_sdiff_right
        | none =>
          obtain ⟨rfl, hnorun⟩ := hr
          apply Ends.ret
          refine ⟨h₂, hsub, hlive, fun d hd => (hsame d hd).symm ▸ subset_rfl,
            fun p hp => (by cases hp), fun _ _ hle => ?_⟩
          have hle512 : headerBlocks + (metaBlocks - headerBlocks) = 512 := by decide
          refine absurd ?_ (hnorun hpos (by omega) headerBlocks (by omega))
          intro j hj
          apply hfree
          rw [mem_bitRange] at hj ⊢
          omega

/-! ## `meta_free` -/

/-- The walk over the chunks ends at the one in which the blocks are. -/
theorem freeInChunks_ends (h : s.Chunks) (hc : c ∈ s.chunks) (hidx : headerBlocks ≤ idx)
    (hpos : 0 < divCeil size metaBlockSize) (hle : idx + divCeil size metaBlockSize ≤ metaBlocks)
    (hl : Chain s.next cur l) (hmem : c ∈ l) (hapart : l.Pairwise Apart) :
    MetaEnds refuses (freeInChunks (blockPtr c idx) size cur) s fun _ s' =>
      s'.Chunks ∧ s'.chunks = s.chunks ∧ s'.live = s.live ∧ ∃ w, s' = s.withWords c w ∧
        bitsOf 1 w = bitsOf 1 (s.words c) ∪ bitRange idx (divCeil size metaBlockSize) := by
  induction l generalizing cur with
  | nil => cases hmem
  | cons d l ih =>
    obtain ⟨rfl, hl⟩ := hl
    rw [List.pairwise_cons] at hapart
    apply Ends.loop
    apply Ends.bind
    dsimp only
    by_cases hdc : d = c
    · subst hdc
      have howns : owns d (blockPtr d idx) = true := by
        unfold owns blockPtr metaRegionSize metaBlockSize at *
        exact decide_eq_true (by omega)
      have hoff : (blockPtr d idx - d) / metaBlockSize = idx := by
        unfold blockPtr metaBlockSize
        omega
      have hin : Bitmap.InChunk 1 idx (divCeil size metaBlockSize) := by
        have h512 : metaBlocks = 512 := by decide
        constructor <;> omega
      rw [if_pos howns, hoff]
      apply Ends.bind
      apply (onChunk_ends ((Bitmap.setN_ends (by omega) hin).and_panics
        (Bitmap.setN_covers (h.ok d hc).covered))).mono
      rintro _ s' ⟨w, ⟨hbits, hcov⟩, rfl⟩
      apply Ends.ret
      apply Ends.ret
      refine ⟨h.withWords ⟨hcov, fun j hj => ?_⟩, rfl, rfl, w, rfl, hbits⟩
      rw [hbits] at hj
      rcases hj with hj | hj
      · exact (h.ok d hc).header j hj
      · exact hidx.trans (mem_bitRange.mp hj).1
    · have hmem : c ∈ l := (List.mem_cons.mp hmem).resolve_left (Ne.symm hdc)
      -- a chunk that lies apart from `c` does not own its blocks
      have hother : owns d (blockPtr c idx) = false := by
        have hd := hapart.1 c hmem
        unfold Apart at hd
        unfold owns blockPtr metaRegionSize metaBlockSize at *
        exact decide_eq_false (by omega)
      rw [hother, if_neg Bool.false_ne_true]
      apply MetaEnds.act (fun _ => rfl)
      apply Ends.ret
      exact ih hl hmem hapart.2

/-- A free puts the blocks back. -/
theorem metaFree_ends (h : s.Chunks) (hp : s.Allocation p size) :
    MetaEnds refuses (metaFree p size) s fun _ s' =>
      s'.Chunks ∧ s'.chunks = s.chunks ∧ s'.live = s.live := by
  obtain ⟨c, hc, idx, rfl, hidx, hpos, hle⟩ := hp
  apply MetaEnds.act (fun _ => rfl)
  apply (freeInChunks_ends h hc hidx hpos hle h.chain hc h.apart).mono
  rintro _ s' ⟨h', hchunks, hlive, -⟩
  exact ⟨h', hchunks, hlive⟩

end Meta

namespace Arena

open Meta MetaMem

variable {sliceCount : ℕ} {hpos : 0 < sliceCount} {commit : Bool}

/-- The size of the bitmaps of an arena, in blocks. -/
theorem hot_blocks (cc : ℕ) : divCeil (hotBitmapBytes cc) metaBlockSize = 4 * (cc + 1) := by
  unfold divCeil hotBitmapBytes bchunkSize metaBlockSize
  omega

theorem allocation_hot {cc : ℕ} (h : s.Allocation p (hotBitmapBytes cc)) : cc ≤ 126 := by
  have hle := h.blocks_le
  rw [hot_blocks] at hle
  omega

/-- What `Arena::create` does: the memory of an arena that it returns is that of two requests, and
it returns one, if the operating system does not refuse, whenever the bitmaps fit into a chunk. -/
structure CreateDone (refuses : Bool) (sliceCount : ℕ) (s : MetaMem) (r : Option Created)
    (s' : MetaMem) : Prop where
  chunks : s'.Chunks
  subset : s.chunks ⊆ s'.chunks
  live : s'.live = s.live
  desc : ∀ a, r = some a → s'.Allocation a.desc arenaSize
  hot : ∀ a, r = some a → s'.Allocation a.hot (hotBitmapBytes a.arena.chunkCount)
  count : ∀ a, r = some a → a.arena.chunkCount = chunksFor sliceCount
  region : ∀ a, r = some a → a.arena.Region
  served : refuses = false → 4 * (chunksFor sliceCount + 1) ≤ metaBlocks - headerBlocks →
    r.isSome = true

/-- An arena that is not created. -/
theorem CreateDone.none {s' : MetaMem} (hchunks : s'.Chunks) (hsub : s.chunks ⊆ s'.chunks)
    (hlive : s'.live = s.live)
    (hserved : refuses = false → ¬ 4 * (chunksFor sliceCount + 1) ≤ metaBlocks - headerBlocks) :
    CreateDone refuses sliceCount s none s' :=
  ⟨hchunks, hsub, hlive, fun _ h => (by cases h), fun _ h => (by cases h), fun _ h => (by cases h),
    fun _ h => (by cases h), fun hr hle => absurd hle (hserved hr)⟩

/-- The bitmaps of the new arena are none of the metadata allocator's. -/
theorem initBitmaps_new {a : Arena} :
    MetaEnds refuses ((a.initBitmaps commit).hoist (.arena a)) s fun _ s' =>
      ∃ m, s' = { s with new := m } := by
  have hexec : ∀ {β : Type} (e : ArenaAct β) (s : MetaMem) (choice : ℕ),
      (metaMachine refuses).exec () (.arena a e) s choice =
        ((arenaMachine a).exec () e s.new choice).map fun r => (r.1, { s with new := r.2 }) :=
    fun _ _ _ => rfl
  apply (Ends.hoist (N := metaMachine refuses) (.arena a) (·.new) (fun m s => { s with new := m })
    (fun _ _ _ => rfl) (fun _ _ => rfl) (fun _ => rfl) hexec initBitmaps_ends).mono
  intro _ s' hs'
  exact ⟨_, hs'.2⟩

theorem create_ends (h : s.Chunks) :
    MetaEnds refuses (create sliceCount hpos commit) s (CreateDone refuses sliceCount s) := by
  have harena : divCeil arenaSize metaBlockSize = 3 := by decide
  have hroom : metaBlocks - headerBlocks = 508 := by decide
  simp only [create, Prog.bind_eq, Prog.pure_eq, Prog.perform_bind]
  split
  · next hguard =>
    apply Ends.ret
    apply CreateDone.none h (fun _ hc => hc) rfl
    intro _
    rw [chunkBits_eq] at hguard
    omega
  · next hguard =>
    apply Ends.act
    · intro choice hnone
      have hnone : (if refuses ∧ choice = 0 then _ else _) = none := hnone
      split at hnone <;> cases hnone
    · intro choice r s₀ hsome
      have hsome : (if refuses ∧ choice = 0 then _ else _) = some (r, s₀) := hsome
      split at hsome
      · next hr =>
        cases hsome
        apply Ends.ret
        apply CreateDone.none h (fun _ hc => hc) rfl
        intro hgrants
        rw [hr.1] at hgrants
        cases hgrants
      · cases hsome
        apply Ends.bind
        apply (metaZalloc_ends h).mono
        intro r s₁ h₁
        cases r with
        | none =>
          apply MetaEnds.act (fun _ => rfl)
          apply Ends.ret
          apply CreateDone.none h₁.chunks h₁.subset h₁.live
          intro hgrants hle
          rw [← hot_blocks] at hle
          have hpos : 0 < divCeil (hotBitmapBytes (chunksFor sliceCount)) metaBlockSize := by
            rw [hot_blocks]
            omega
          cases h₁.served hgrants hpos hle
        | some hot =>
          apply Ends.bind
          apply (metaZalloc_ends h₁.chunks).mono
          intro r s₂ h₂
          have hsub : s.chunks ⊆ s₂.chunks := fun c hc => h₂.subset (h₁.subset hc)
          have hlive : s₂.live = s.live := h₂.live.trans h₁.live
          have hhot := (h₁.allocated hot rfl).mono h₂.subset
          cases r with
          | none =>
            apply MetaEnds.act (fun _ => rfl)
            apply Ends.bind
            apply (metaFree_ends h₂.chunks hhot).mono
            rintro _ s₃ ⟨h₃, hchunks, hlive₃⟩
            apply Ends.ret
            apply CreateDone.none h₃ (by rwa [hchunks]) (hlive₃.trans hlive)
            intro hgrants _
            cases h₂.served hgrants (by omega) (by omega)
          | some desc =>
            apply MetaEnds.act (fun _ => rfl)
            apply Ends.bind
            apply initBitmaps_new.mono
            rintro _ s₃ ⟨m, rfl⟩
            apply Ends.ret
            have hdesc := h₂.allocated desc rfl
            refine ⟨⟨h₂.chunks.chain, h₂.chunks.apart, h₂.chunks.ok⟩, hsub, hlive, ?_, ?_, ?_, ?_,
              fun _ _ => rfl⟩
            · intro a ha
              cases ha
              exact hdesc
            · intro a ha
              cases ha
              exact hhot
            · intro a ha
              cases ha
              rfl
            · intro a ha
              cases ha
              refine ⟨?_, Nat.mod_lt _ (by decide)⟩
              show (choice / 4 * miArenaSliceSize % 2 ^ miMaxVabits) % miArenaSliceSize = 0
              unfold miArenaSliceSize miMaxVabits
              omega

end Arena

/-! ## Reachable states -/

open MetaMem

theorem MetaMem.Init.sound {s : MetaMem} (hs : s.Init) : s.Chunks := by
  refine ⟨?_, ?_, ?_⟩
  · rw [hs.head, hs.chunks]
    rfl
  · rw [hs.chunks]
    exact List.Pairwise.nil
  · simp [hs.chunks]

/-- What each call leaves behind. -/
def metaPost : (o : MetaOp) → MetaMem → o.Res → MetaMem → Prop
  | .zalloc size, s, r, s' => Meta.Zalloced true size s r s'
  | .free p size, s, _, s' =>
    s'.Chunks ∧ s'.chunks = s.chunks ∧ s'.live = s.live.erase (p, size)
  | .create sliceCount _ _, s, r, s' => Arena.CreateDone true sliceCount s r s'

/-- The chunks are sound, and what is handed out are blocks of them, whatever calls have been
made. -/
theorem metaSystem_inv {c : Config MetaAct Unit MetaOp MetaOp.Res MetaMem}
    (h : metaSystem.Reachable MetaMem.Init System.anyMove c) (hq : c.Quiescent) : c.mem.Inv := by
  have hrun : Serial metaSystem (metaMachine true) False MetaMem.Inv metaPost c := by
    apply System.Reachable.serial (fun _ _ _ _ _ _ _ _ _ h => h) _ _ _ h
    · intro s hs
      exact ⟨hs.sound, by simp [hs.live]⟩
    · intro o s s' hinv hstart
      cases o with
      | zalloc size =>
        cases hstart
        exact Meta.metaZalloc_ends hinv.chunks
      | free p size =>
        have hstart : (if (p, size) ∈ s.live then _ else none) = some s' := hstart
        split at hstart
        · next hlive =>
          cases hstart
          exact Meta.metaFree_ends ⟨hinv.chunks.chain, hinv.chunks.apart, hinv.chunks.ok⟩
            (hinv.live (p, size) hlive)
        · cases hstart
      | create sliceCount hpos commit =>
        cases hstart
        exact Arena.create_ends hinv.chunks
    · intro o s s' r s'' hinv _ hpost
      have hkept : ∀ {s'' : MetaMem}, s.chunks ⊆ s''.chunks → s''.live = s.live →
          ∀ r ∈ s''.live, s''.Allocation r.1 r.2 := by
        intro s'' hsub hlive r hr
        rw [hlive] at hr
        exact (hinv.live r hr).mono hsub
      cases o with
      | zalloc size =>
        have hpost : Meta.Zalloced true size s r s'' := hpost
        cases r with
        | none => exact ⟨hpost.chunks, hkept hpost.subset hpost.live⟩
        | some p =>
          refine ⟨⟨hpost.chunks.chain, hpost.chunks.apart, hpost.chunks.ok⟩, ?_⟩
          intro r hr
          rcases List.mem_cons.mp hr with rfl | hr
          · exact hpost.allocated p rfl
          · exact hkept hpost.subset hpost.live r hr
      | free p size =>
        obtain ⟨hchunks, heq, hlive⟩ := hpost
        refine ⟨hchunks, fun r hr => ?_⟩
        have hr : r ∈ s''.live := hr
        rw [hlive] at hr
        have hsub : s.chunks ⊆ s''.chunks := fun c hc => heq ▸ hc
        exact (hinv.live r (List.mem_of_mem_erase hr)).mono hsub
      | create sliceCount hpos commit =>
        have hpost : Arena.CreateDone true sliceCount s r s'' := hpost
        cases r with
        | none => exact ⟨hpost.chunks, hkept hpost.subset hpost.live⟩
        | some a =>
          refine ⟨⟨hpost.chunks.chain, hpost.chunks.apart, hpost.chunks.ok⟩, ?_⟩
          intro r hr
          rcases List.mem_cons.mp hr with rfl | hr
          · exact hpost.desc a rfl
          · rcases List.mem_cons.mp hr with rfl | hr
            · exact hpost.hot a rfl
            · exact hkept hpost.subset hpost.live r hr
  exact hrun.idle (hq ())

/-- **What the metadata allocator can serve.** In every state that calls have led to, if the
operating system grants what it is asked for: a creation of an arena that respects the limit of one
chunkmap succeeds if and only if the arena has at most 126 chunks, and a request that passes the
guard of `meta_zalloc` is served if and only if it takes at most 508 blocks. -/
theorem metadata_limit {c : Config MetaAct Unit MetaOp MetaOp.Res MetaMem}
    (h : metaSystem.Reachable MetaMem.Init System.anyMove c) (hq : c.Quiescent) :
    (∀ sliceCount (hpos : 0 < sliceCount) commit, chunksFor sliceCount ≤ chunkBits →
      (MetaEnds false (Arena.create sliceCount hpos commit) c.mem (fun r _ => r.isSome = true) ↔
        chunksFor sliceCount ≤ 126)) ∧
    ∀ size, 0 < divCeil size metaBlockSize → divCeil size metaBlockSize ≤ metaBlocks →
      (MetaEnds false (Meta.metaZalloc size) c.mem (fun r _ => r.isSome = true) ↔
        divCeil size metaBlockSize ≤ 508) := by
  have hchunks := (metaSystem_inv h hq).chunks
  have hroom : metaBlocks = 512 ∧ Meta.headerBlocks = 4 := by decide
  constructor
  · intro sliceCount hpos commit _
    have hends : MetaEnds false (Arena.create sliceCount hpos commit) c.mem
        (Arena.CreateDone false sliceCount c.mem) := Arena.create_ends hchunks
    constructor
    · intro hserved
      obtain ⟨r, s', hdone, hr⟩ := (hends.and hserved).exists_result
      obtain ⟨a, rfl⟩ := Option.isSome_iff_exists.mp hr
      rw [← hdone.count a rfl]
      exact Arena.allocation_hot (hdone.hot a rfl)
    · intro hle
      exact hends.mono fun r s' hdone => hdone.served rfl (by omega)
  · intro size hpos _
    have hends : MetaEnds false (Meta.metaZalloc size) c.mem (Meta.Zalloced false size c.mem) :=
      Meta.metaZalloc_ends hchunks
    constructor
    · intro hserved
      obtain ⟨r, s', hdone, hr⟩ := (hends.and hserved).exists_result
      obtain ⟨p, rfl⟩ := Option.isSome_iff_exists.mp hr
      exact (hdone.allocated p rfl).blocks_le
    · intro hle
      exact hends.mono fun r s' hdone => hdone.served rfl hpos (by omega)

theorem MetaMem.empty_reachable :
    metaSystem.Reachable MetaMem.Init System.anyMove ⟨MetaMem.empty, fun _ => none⟩ :=
  .init ⟨rfl, rfl, rfl⟩

/-- An arena of 126 chunks can be created first of all, and a request of 508 blocks be served. -/
theorem metadata_limit_empty :
    MetaEnds false (Arena.create 64512 (by decide) true) MetaMem.empty
      (fun r _ => r.isSome = true) ∧
    MetaEnds false (Meta.metaZalloc 32512) MetaMem.empty fun r _ => r.isSome = true :=
  ⟨((metadata_limit MetaMem.empty_reachable fun _ => rfl).1 64512 (by decide) true
      (by decide)).mpr (by decide),
    ((metadata_limit MetaMem.empty_reachable fun _ => rfl).2 32512 (by decide)
      (by decide)).mpr (by decide)⟩

/-- An arena of 127 chunks is refused although the operating system grants everything, and so is a
request of 512 blocks, which passes the guard. -/
theorem create_fails_127 :
    chunksFor 65024 = 127 ∧ divCeil 32768 metaBlockSize = metaBlocks ∧
    ¬ MetaEnds false (Arena.create 65024 (by decide) true) MetaMem.empty
      (fun r _ => r.isSome = true) ∧
    ¬ MetaEnds false (Meta.metaZalloc 32768) MetaMem.empty fun r _ => r.isSome = true := by
  have hchunks : MetaMem.empty.Chunks := by
    have hinv := metaSystem_inv MetaMem.empty_reachable fun _ => rfl
    exact hinv.chunks
  refine ⟨by decide, by decide, fun hserved => ?_, fun hserved => ?_⟩
  · obtain ⟨r, s', hdone, hr⟩ := ((Arena.create_ends hchunks).and hserved).exists_result
    obtain ⟨a, rfl⟩ := Option.isSome_iff_exists.mp hr
    have hcount : a.arena.chunkCount = 127 := hdone.count a rfl
    have hlimit := Arena.allocation_hot (hdone.hot a rfl)
    omega
  · obtain ⟨r, s', hdone, hr⟩ := ((Meta.metaZalloc_ends hchunks).and hserved).exists_result
    obtain ⟨p, rfl⟩ := Option.isSome_iff_exists.mp hr
    have hlimit := (hdone.allocated p rfl).blocks_le
    have hblocks : divCeil 32768 metaBlockSize = 512 := by decide
    omega

end MimallocRs
