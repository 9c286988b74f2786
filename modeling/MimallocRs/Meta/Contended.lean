import MimallocRs.Foundations.Interleave.Handle
import MimallocRs.Meta.Held
import MimallocRs.Sync.SpinLock

/-!
# The metadata allocator under contention

Any number of threads call `meta_zalloc` and `meta_free`, whose sections exclude each other by the
lock of the allocator, and write to the blocks that they have been given. Here the bytes of the
blocks are modelled as well. What the owner of a block has written to it comes into view when the
block is given back; until then nobody else is to look at it.

In every configuration that is reached the blocks handed out do not overlap; each is zero, and a
block behind the header of a chunk is free if and only if it has not been handed out
(`metadata_contended`). The argument is about whole calls, by the refinement of the lock.
-/

namespace MimallocRs

open Interleave Prog

/-- The events of the sections. -/
inductive ZeroAct (β : Type) : Type
  /-- An event of the metadata allocator that leaves the bytes of the blocks alone, except that a
  new region is zero. -/
  | call (e : MetaAct β)
  /-- `write_bytes` of zeros. -/
  | writeZeros (p n : ℕ) (answer : Unit → β)
  /-- The owner of a block gives it back, with what it has written to it. -/
  | giveBack (p n : ℕ) (written : ℕ → UInt8) (answer : Unit → β)

/-- The metadata allocator and the bytes of its regions. -/
structure MetaBytes where
  metadata : MetaMem
  bytes : ℕ → UInt8

namespace MetaBytes

/-- The bytes after those of a range have been written. -/
def write (bytes : ℕ → UInt8) (p n : ℕ) (v : ℕ → UInt8) : ℕ → UInt8 :=
  fun a => if p ≤ a ∧ a < p + n then v a else bytes a

/-- What an event of the metadata allocator makes of the bytes: a new region is zero. -/
def bytesAfter {β : Type} (refuses : Bool) (e : MetaAct β) (s : MetaBytes) (choice : ℕ) :
    ℕ → UInt8 :=
  match e with
  | .osAlloc _ =>
    if refuses ∧ choice = 0 then s.bytes
    else write s.bytes (s.metadata.place choice) metaRegionSize fun _ => 0
  | _ => s.bytes

/-- The events of the sections. -/
def exec {β : Type} (refuses : Bool) (e : ZeroAct β) (s : MetaBytes) (choice : ℕ) :
    Option (β × MetaBytes) :=
  match e with
  | .call e => (s.metadata.exec refuses e choice).map fun r =>
      (r.1, ⟨r.2, s.bytesAfter refuses e choice⟩)
  | .writeZeros p n k => some (k (), { s with bytes := write s.bytes p n fun _ => 0 })
  | .giveBack p n written k => some (k (), { s with bytes := write s.bytes p n written })

/-- The guard of `meta_zalloc`, before it takes the lock. -/
def passesGuard (size : ℕ) : Bool :=
  0 < divCeil size metaBlockSize ∧ divCeil size metaBlockSize ≤ metaBlocks

/-- `meta_zalloc`, of a size that passes its guard, under the lock. -/
def metaZalloc (size : ℕ) : Prog ZeroAct (Option ℕ) :=
  let blocks := divCeil size metaBlockSize
  do
    let cur ← perform (.call (.head id))
    match ← (Meta.findInChunks blocks cur).hoist .call with
    | some p =>
      perform (.writeZeros p (blocks * metaBlockSize) id)
      return some p
    | none =>
      match ← Meta.pushNewChunk.hoist .call with
      | none => return none
      | some c =>
        match ← (Meta.onChunk c (Bitmap.tryFindAndClearN 1 blocks 0)).hoist .call with
        | none => return none
        | some idx => return some (Meta.blockPtr c idx)

/-- `meta_free`, of a block to which its owner has written. -/
def metaFree (p size : ℕ) (written : ℕ → UInt8) : Prog ZeroAct Unit := do
  perform (.giveBack p (divCeil size metaBlockSize * metaBlockSize) written id)
  (Meta.metaFree p size).hoist .call

/-- Before the first call. -/
def empty : MetaBytes := ⟨MetaMem.empty, fun _ => 0⟩

end MetaBytes

/-- The calls. -/
inductive ZeroOp
  | zalloc (size : ℕ) | free (p size : ℕ) (written : ℕ → UInt8)

/-- What they return. -/
abbrev ZeroOp.Res : ZeroOp → Type
  | .zalloc _ => Option ℕ
  | .free .. => Unit

/-- Clients that free what they have been given, under an operating system that may refuse. What a
client knows are the blocks that have been given out, with the sizes asked for. A request that does
not pass the guard of `meta_zalloc` fails without the lock. -/
def metaSections (Tid : Type) : Sections ZeroAct Tid ZeroOp ZeroOp.Res MetaBytes (List (ℕ × ℕ)) where
  machine := ⟨fun _ e s choice => s.exec true e choice⟩
  sect
    | .zalloc size => MetaBytes.metaZalloc size
    | .free p size written => MetaBytes.metaFree p size written
  start
    | _, .zalloc size, x => if MetaBytes.passesGuard size then some x else none
    | _, .free p size _, x => if (p, size) ∈ x then some (x.erase (p, size)) else none
  finish
    | _, .zalloc size, some p, x => (p, size) :: x
    | _, _, _, x => x

/-! ## What the calls leave behind -/

namespace MetaMem

variable {s s' : MetaMem} {c d p size idx : ℕ} {l : List (ℕ × ℕ)} {w : Words}

/-- An address lies in the blocks of a request. -/
def Spans (r : ℕ × ℕ) (a : ℕ) : Prop := r.1 ≤ a ∧ a < r.1 + blocksOf r * metaBlockSize

/-- The requests `l` are allocated, and what is not free belongs to one of them. -/
structure Exact (s : MetaMem) (l : List (ℕ × ℕ)) : Prop extends s.Holds l where
  taken : ∀ c ∈ s.chunks, ∀ j, Meta.headerBlocks ≤ j → j < metaBlocks →
    j ∉ bitsOf 1 (s.words c) → ∃ r ∈ l, Spans r (Meta.blockPtr c j)

theorem Exact.perm {l' : List (ℕ × ℕ)} (h : s.Exact l) (hl : l.Perm l') : s.Exact l' := by
  refine ⟨h.toHolds.perm hl, fun c hc j hj hlt hbit => ?_⟩
  obtain ⟨r, hr, hcov⟩ := h.taken c hc j hj hlt hbit
  exact ⟨r, hl.mem_iff.mp hr, hcov⟩

/-- Blocks of different chunks lie apart. -/
theorem Chunks.apart_of_ne (h : s.Chunks) (hc : c ∈ s.chunks) (hd : d ∈ s.chunks) (hne : c ≠ d) :
    Apart c d := by
  have hsymm : Std.Symm Apart := ⟨fun _ _ h => Or.symm h⟩
  exact h.apart.forall hc hd hne

/-- A block that lies in those of a request is one of them. -/
theorem Chunks.spans_iff (h : s.Chunks) (hc : c ∈ s.chunks) (hd : d ∈ s.chunks) {j : ℕ}
    (hle : idx + divCeil size metaBlockSize ≤ metaBlocks) (hj : j < metaBlocks) :
    Spans (Meta.blockPtr c idx, size) (Meta.blockPtr d j) ↔
      d = c ∧ j ∈ bitRange idx (divCeil size metaBlockSize) := by
  have hregion : metaRegionSize = metaBlocks * 64 := by decide
  have hblock : metaBlockSize = 64 := rfl
  rw [mem_bitRange]
  unfold Spans blocksOf Meta.blockPtr
  dsimp only
  by_cases hdc : d = c
  · subst hdc
    rw [hblock] at hle ⊢
    omega
  · have hapart := h.apart_of_ne hc hd (Ne.symm hdc)
    unfold Apart at hapart
    simp only [hdc, false_and, iff_false]
    rw [hblock] at hle ⊢
    omega

/-- Blocks are taken out of a chunk. -/
theorem Exact.take (h : s.Exact l) (hc : c ∈ s.chunks) (hw : ChunkOk w)
    (hpos : 0 < divCeil size metaBlockSize) (hle : idx + divCeil size metaBlockSize ≤ 512)
    (hset : bitRange idx (divCeil size metaBlockSize) ⊆ bitsOf 1 (s.words c))
    (hbits : bitsOf 1 w = bitsOf 1 (s.words c) \ bitRange idx (divCeil size metaBlockSize)) :
    (s.withWords c w).Exact ((Meta.blockPtr c idx, size) :: l) := by
  have hidx : Meta.headerBlocks ≤ idx := Meta.header_le (h.chunks.ok c hc) hpos hset
  have hshrinks := Meta.withWords_shrinks (s := s) hbits
  refine ⟨⟨h.chunks.withWords hw, List.forall_mem_cons.mpr ⟨?_, fun r hr => ?_⟩,
    List.pairwise_cons.mpr ⟨fun r hr => ?_, h.apart⟩⟩, fun d hd j hj hlt hbit => ?_⟩
  · refine ⟨c, hc, idx, rfl, hidx, hpos, hle, ?_⟩
    rw [withWords_words, hbits]
    exact Set.disjoint_sdiff_right
  · exact (h.held r hr).mono (fun _ h => h) hshrinks
  · obtain ⟨d, hd, j, hptr, -, hrpos, hrle, hdis⟩ := h.held r hr
    apply blocksApart_of_chunks (r := (Meta.blockPtr c idx, size)) rfl hptr hle hrle
    · exact fun hne => h.chunks.apart_of_ne hc hd hne
    · rintro rfl
      exact range_apart hpos hrpos (hdis.symm.mono_left hset)
  · by_cases hfree : j ∈ bitsOf 1 (s.words d)
    · refine ⟨_, List.mem_cons_self, (h.chunks.spans_iff hc hd hle hlt).mpr ?_⟩
      by_cases hdc : d = c
      · subst hdc
        rw [withWords_words, hbits] at hbit
        exact ⟨rfl, by_contra fun hno => hbit ⟨hfree, hno⟩⟩
      · have hwords : (s.withWords c w).words d = s.words d := Function.update_of_ne hdc ..
        rw [hwords] at hbit
        exact absurd hfree hbit
    · obtain ⟨r, hr, hcov⟩ := h.taken d hd j hj hlt hfree
      exact ⟨r, List.mem_cons_of_mem _ hr, hcov⟩

/-- A new chunk, all of whose blocks behind its header are free. -/
theorem Exact.push (h : s.Exact l) (hchunks : s'.Chunks) (hpush : s'.chunks = c :: s.chunks)
    (hfree : bitRange Meta.headerBlocks (metaBlocks - Meta.headerBlocks) ⊆ bitsOf 1 (s'.words c))
    (hsame : ∀ d ∈ s.chunks, s'.words d = s.words d) : s'.Exact l := by
  have hsub : s.chunks ⊆ s'.chunks := by
    rw [hpush]
    exact List.subset_cons_self _ _
  refine ⟨⟨hchunks, fun r hr => (h.held r hr).mono hsub fun d hd => ?_, h.apart⟩,
    fun d hd j hj hlt hbit => ?_⟩
  · rw [hsame d hd]
  · rw [hpush] at hd
    rcases List.mem_cons.mp hd with rfl | hd
    · refine absurd (hfree (mem_bitRange.mpr ⟨hj, ?_⟩)) hbit
      omega
    · rw [hsame d hd] at hbit
      exact h.taken d hd j hj hlt hbit

/-- Blocks are put back into their chunk. -/
theorem Exact.put (h : s.Exact ((Meta.blockPtr c idx, size) :: l)) (hc : c ∈ s.chunks)
    (hle : idx + divCeil size metaBlockSize ≤ metaBlocks) (hholds : (s.withWords c w).Holds l)
    (hbits : bitsOf 1 w = bitsOf 1 (s.words c) ∪ bitRange idx (divCeil size metaBlockSize)) :
    (s.withWords c w).Exact l := by
  refine ⟨hholds, fun d hd j hj hlt hbit => ?_⟩
  have hbit' : j ∉ bitsOf 1 (s.words d) := by
    intro hmem
    by_cases hdc : d = c
    · subst hdc
      rw [withWords_words, hbits] at hbit
      exact hbit (Or.inl hmem)
    · have hwords : (s.withWords c w).words d = s.words d := Function.update_of_ne hdc ..
      rw [hwords] at hbit
      exact hbit hmem
  obtain ⟨r, hr, hcov⟩ := h.taken d hd j hj hlt hbit'
  rcases List.mem_cons.mp hr with rfl | hr
  · obtain ⟨rfl, hmem⟩ := (h.chunks.spans_iff hc hd hle hlt).mp hcov
    rw [withWords_words, hbits] at hbit
    exact absurd (Or.inr hmem) hbit
  · exact ⟨r, hr, hcov⟩

end MetaMem

namespace MetaBytes

open MetaMem

variable {Tid α : Type} {t : Tid} {s : MetaBytes} {l : List (ℕ × ℕ)} {c p size blocks : ℕ}

/-- Every execution of a section comes to an end. -/
abbrev ZeroEnds (t : Tid) (p : Prog ZeroAct α) (s : MetaBytes) (Q : α → MetaBytes → Prop) : Prop :=
  Ends (metaSections Tid).machine t False p s Q

/-- Bytes that have been left alone or made zero. -/
def Cleared (b b' : ℕ → UInt8) : Prop := ∀ a, b' a = b a ∨ b' a = 0

theorem Cleared.refl (b : ℕ → UInt8) : Cleared b b := fun _ => Or.inl rfl

theorem Cleared.trans {b b' b'' : ℕ → UInt8} (h : Cleared b b') (h' : Cleared b' b'') :
    Cleared b b'' := by
  intro a
  rcases h' a with ha | ha
  · rw [ha]
    exact h a
  · exact Or.inr ha

theorem Cleared.zero {b b' : ℕ → UInt8} (h : Cleared b b') {a : ℕ} (ha : b a = 0) : b' a = 0 := by
  rcases h a with he | he
  · rw [he, ha]
  · exact he

theorem cleared_write (b : ℕ → UInt8) (p n : ℕ) : Cleared b (write b p n fun _ => 0) := by
  intro a
  unfold write
  split
  · exact Or.inr rfl
  · exact Or.inl rfl

/-- The blocks of a request are zero. -/
def Zero (b : ℕ → UInt8) (r : ℕ × ℕ) : Prop := ∀ a, Spans r a → b a = 0

theorem Zero.cleared {b b' : ℕ → UInt8} {r : ℕ × ℕ} (h : Zero b r) (hb : Cleared b b') :
    Zero b' r := fun a ha => hb.zero (h a ha)

theorem bytesAfter_cleared {β : Type} {refuses : Bool} (e : MetaAct β) (s : MetaBytes)
    (choice : ℕ) : Cleared s.bytes (s.bytesAfter refuses e choice) := by
  cases e with
  | osAlloc k =>
    unfold bytesAfter
    dsimp only
    split
    · exact .refl _
    · exact cleared_write _ _ _
  | _ => exact .refl _

/-- A call on the metadata allocator does to it what it does alone, and leaves the bytes alone or
makes them zero. -/
theorem call_ends {q : Prog MetaAct α} {R : α → MetaMem → Prop}
    (h : MetaEnds true q s.metadata R) :
    ZeroEnds t (q.hoist .call) s fun a s' => R a s'.metadata ∧ Cleared s.bytes s'.bytes := by
  have hpart : ZeroEnds t (q.hoist .call) s fun a s' => R a s'.metadata := by
    apply Ends.hoist_part (N := (metaSections Tid).machine) (fun e => ZeroAct.call e) metadata _ h
    intro β e s choice
    show Option.map _ (Option.map _ _) = _
    rw [Option.map_map]
    exact Option.map_id'
  have hevents : (q.hoist ZeroAct.call).Every fun {β} e => ∃ e' : MetaAct β, e = .call e' :=
    .hoist (fun e => ⟨e, rfl⟩) q
  apply hpart.keeps (J := fun s' => Cleared s.bytes s'.bytes) _ hevents (.refl _)
  rintro β _ ⟨e, rfl⟩ s' choice b s'' hs' he
  obtain ⟨⟨b', m⟩, -, he⟩ := Option.map_eq_some_iff.mp he
  cases he
  exact hs'.trans (bytesAfter_cleared e s' choice)

/-- The region of a new chunk is zero. -/
theorem pushNewChunk_zero :
    ZeroEnds t (Meta.pushNewChunk.hoist .call) s fun r s' =>
      ∀ c, r = some c → ∀ a, c ≤ a → a < c + metaRegionSize → s'.bytes a = 0 := by
  have hin : Meta.headerBlocks + (metaBlocks - Meta.headerBlocks) ≤ 1 * 512 := by decide
  -- what follows the allocation of the region returns it
  have hrest : ∀ (c : ℕ) (m : MetaMem), MetaEnds true
      (.act (.setNext c id) fun _ => (Meta.onChunk c (Bitmap.unsafeSetN Meta.headerBlocks
        (metaBlocks - Meta.headerBlocks))).bind fun _ => .act (.setHead c id) fun _ =>
          .ret (some c)) m fun r _ => r = some c := by
    intro c m
    apply MetaEnds.act (fun _ => rfl)
    apply Ends.bind
    apply (Meta.onChunk_ends (Bitmap.unsafeSetN_ends (by omega) hin)).mono
    rintro _ m' -
    apply MetaEnds.act (fun _ => rfl)
    exact Ends.ret rfl
  simp only [Meta.pushNewChunk, Prog.bind_eq, Prog.pure_eq, Prog.perform_bind, Prog.hoist]
  apply Ends.act
  · intro choice hnone
    have hnone : Option.map _ (if true = true ∧ choice = 0 then _ else _) = none := hnone
    split at hnone <;> cases hnone
  · intro choice r s₁ hsome
    have hsome : (if true = true ∧ choice = 0 then _ else _ : Option (Option ℕ × MetaMem)).map _ =
      some (r, s₁) := hsome
    obtain ⟨⟨r', m⟩, hm, he⟩ := Option.map_eq_some_iff.mp hsome
    cases he
    by_cases hchoice : true = true ∧ choice = 0
    · cases (if_pos hchoice).symm.trans hm
      apply Ends.ret
      rintro c ⟨⟩
    · cases (if_neg hchoice).symm.trans hm
      apply (call_ends (hrest _ _)).mono
      rintro r s' ⟨rfl, hcleared⟩ c hc a ha hlt
      cases hc
      apply hcleared.zero
      show (if true = true ∧ choice = 0 then _ else write s.bytes _ _ _) a = 0
      rw [if_neg hchoice]
      exact if_pos ⟨ha, hlt⟩

/-- What `meta_zalloc` leaves behind. -/
structure Zalloced (size : ℕ) (l : List (ℕ × ℕ)) (s : MetaBytes) (r : Option ℕ) (s' : MetaBytes) :
    Prop where
  cleared : Cleared s.bytes s'.bytes
  exact : s'.metadata.Exact ((r.map fun p => (p, size)).toList ++ l)
  zero : ∀ p, r = some p → Zero s'.bytes (p, size)

/-- **`meta_zalloc` returns zeroed blocks that nobody has.** -/
theorem metaZalloc_ends (h : s.metadata.Exact l) (hguard : passesGuard size = true) :
    ZeroEnds t (metaZalloc size) s (Zalloced size l s) := by
  have hguard : 0 < divCeil size metaBlockSize ∧ divCeil size metaBlockSize ≤ metaBlocks :=
    of_decide_eq_true hguard
  have hpos := hguard.1
  simp only [metaZalloc, Prog.bind_eq, Prog.pure_eq, Prog.perform_bind]
  apply Ends.act
  · rintro choice ⟨⟩
  · rintro choice _ _ ⟨⟩
    apply Ends.bind
    apply (call_ends (Meta.findInChunks_ends h.chunks.ok h.chunks.chain)).mono
    rintro r s₁ ⟨hr, hcleared⟩
    cases r with
    | some p =>
      obtain ⟨c, hc, w, idx, hs, hw, rfl, hidx, hset, hbits⟩ := hr
      apply Ends.act
      · rintro choice ⟨⟩
      · rintro choice _ _ ⟨⟩
        apply Ends.ret
        refine ⟨hcleared.trans (cleared_write _ _ _), ?_, ?_⟩
        · show s₁.metadata.Exact _
          rw [hs]
          exact h.take hc hw hpos hidx hset hbits
        · intro p hp a ha
          cases hp
          exact if_pos ha
    | none =>
      apply Ends.bind
      have hchunks : s₁.metadata.Chunks := by
        rw [hr]
        exact h.chunks
      apply ((call_ends (Meta.pushNewChunk_ends hchunks)).and pushNewChunk_zero).mono
      rintro r s₂ ⟨⟨hr₂, hcleared₂⟩, hzero⟩
      cases r with
      | none =>
        apply Ends.ret
        refine ⟨hcleared.trans hcleared₂, ?_, fun p hp => (by cases hp)⟩
        rw [hr₂.2, hr]
        exact h
      | some c =>
        obtain ⟨h₂, hpush, -, hfree, -, hsame⟩ := hr₂
        rw [hr] at hpush hsame
        have hexact := h.push h₂ hpush hfree hsame
        have hc : c ∈ s₂.metadata.chunks := by
          rw [hpush]
          exact List.mem_cons_self
        apply Ends.bind
        apply (call_ends (Meta.search_ends (h₂.ok c hc))).mono
        rintro r s₃ ⟨hr₃, hcleared₃⟩
        have hcleared := (hcleared.trans hcleared₂).trans hcleared₃
        cases r with
        | none =>
          apply Ends.ret
          refine ⟨hcleared, ?_, fun p hp => (by cases hp)⟩
          rw [hr₃.1]
          exact hexact
        | some idx =>
          obtain ⟨w, hs, hw, hidx, hset, hbits⟩ := hr₃
          apply Ends.ret
          refine ⟨hcleared, ?_, ?_⟩
          · rw [hs]
            exact hexact.take hc hw hpos hidx hset hbits
          · intro p hp a ha
            cases hp
            have hregion : metaRegionSize = 512 * 64 := by decide
            unfold Spans blocksOf Meta.blockPtr metaBlockSize at *
            dsimp only at ha
            apply hcleared₃.zero
            apply hzero c rfl
            · omega
            · omega

/-- **`meta_free` gives back the blocks of the request and no others.** -/
theorem metaFree_ends {written : ℕ → UInt8} (h : s.metadata.Exact ((p, size) :: l)) :
    ZeroEnds t (metaFree p size written) s fun _ s' => s'.metadata.Exact l ∧
      ∀ r ∈ l, Zero s.bytes r → Zero s'.bytes r := by
  obtain ⟨c, hc, idx, hptr, hidx, hpos, hle, -⟩ := h.held _ List.mem_cons_self
  have hptr : p = Meta.blockPtr c idx := hptr
  subst hptr
  simp only [metaFree, Prog.bind_eq, Prog.perform_bind]
  apply Ends.act
  · rintro choice ⟨⟩
  · rintro choice _ _ ⟨⟩
    have hfree : MetaEnds true (Meta.metaFree (Meta.blockPtr c idx) size) s.metadata
        fun _ m => m.Exact l := by
      have hwalk : MetaEnds true (Meta.metaFree (Meta.blockPtr c idx) size) s.metadata
          fun _ m => ∃ w, m = s.metadata.withWords c w ∧ bitsOf 1 w =
            bitsOf 1 (s.metadata.words c) ∪ bitRange idx (divCeil size metaBlockSize) := by
        apply MetaEnds.act (fun _ => rfl)
        apply (Meta.freeInChunks_ends h.chunks hc hidx hpos hle h.chunks.chain hc
          h.chunks.apart).mono
        rintro _ m ⟨-, -, -, hm⟩
        exact hm
      apply ((Meta.metaFree_holds h.toHolds).and hwalk).mono
      rintro _ m ⟨⟨hholds, -⟩, w, rfl, hbits⟩
      exact h.put hc hle hholds hbits
    apply (call_ends (s := { s with
      bytes := write s.bytes (Meta.blockPtr c idx) _ written }) hfree).mono
    rintro _ s' ⟨hexact, hcleared⟩
    refine ⟨hexact, fun r hr hzero => ?_⟩
    apply Zero.cleared _ hcleared
    intro a ha
    have hapart := (List.pairwise_cons.mp h.apart).1 r hr
    show (if _ then _ else s.bytes a) = 0
    rw [if_neg]
    · exact hzero a ha
    · unfold BlocksApart blocksOf at hapart
      unfold Spans blocksOf at ha
      dsimp only at hapart
      omega

end MetaBytes

/-! ## Whole calls -/

open MetaMem MetaBytes

variable {Tid : Type} [DecidableEq Tid] {x : List (ℕ × ℕ)} {d d₀ : MetaBytes}
  {φ : Tid → CallPhase ZeroOp ZeroOp.Res} {t : Tid}

/-- The block that a call has in its hands, and its client has not. -/
def carries : CallPhase ZeroOp ZeroOp.Res → Option (ℕ × ℕ)
  | .before (.free p size _) => some (p, size)
  | .after (.zalloc size) (some p) => some (p, size)
  | _ => none

/-- What holds between whole calls: what the clients and the calls have, with the threads of the
latter, is what has been handed out. -/
structure Contended (x : List (ℕ × ℕ)) (d : MetaBytes) (φ : Tid → CallPhase ZeroOp ZeroOp.Res)
    (l : List (Tid × (ℕ × ℕ))) : Prop where
  exact : d.metadata.Exact (l.map Prod.snd ++ x)
  nodup : l.Nodup
  carried : ∀ t r, (t, r) ∈ l ↔ carries (φ t) = some r
  zero : ∀ r ∈ x, Zero d.bytes r
  zeroed : ∀ t size p, φ t = .after (.zalloc size) (some p) → Zero d.bytes (p, size)
  guard : ∀ t size, φ t = .before (.zalloc size) → passesGuard size = true

namespace Contended

variable {l : List (Tid × (ℕ × ℕ))}

/-- A call moves on that has no block in its hands, neither before nor after. -/
theorem idle (h : Contended x d φ l) {f : CallPhase ZeroOp ZeroOp.Res}
    (ht : carries (φ t) = none) (hf : carries f = none)
    (hguard : ∀ size, f = .before (.zalloc size) → passesGuard size = true) :
    Contended x d (Function.update φ t f) l := by
  have hcarries : ∀ u, carries (Function.update φ t f u) = carries (φ u) := by
    intro u
    by_cases hu : u = t
    · rw [hu, Function.update_self, hf, ht]
    · rw [Function.update_of_ne hu]
  refine ⟨h.exact, h.nodup, fun u r => ?_, h.zero, fun u size p hu => ?_, fun u size hu => ?_⟩
  · rw [hcarries]
    exact h.carried u r
  · by_cases hut : u = t
    · rw [hut, Function.update_self] at hu
      rw [hu] at hf
      cases hf
    · rw [Function.update_of_ne hut] at hu
      exact h.zeroed u size p hu
  · by_cases hut : u = t
    · rw [hut, Function.update_self] at hu
      exact hguard size hu
    · rw [Function.update_of_ne hut] at hu
      exact h.guard u size hu

/-- A call comes to have a block in its hands. -/
theorem gain (h : Contended x d φ l) {f : CallPhase ZeroOp ZeroOp.Res} {r : ℕ × ℕ}
    {x' : List (ℕ × ℕ)} {d' : MetaBytes} (ht : carries (φ t) = none) (hf : carries f = some r)
    (hexact : d'.metadata.Exact (r :: (l.map Prod.snd ++ x')))
    (hzero : ∀ r ∈ x', Zero d'.bytes r)
    (hzeroed : ∀ u size p, φ u = .after (.zalloc size) (some p) → Zero d'.bytes (p, size))
    (hnew : ∀ size p, f = .after (.zalloc size) (some p) → Zero d'.bytes (p, size)) :
    Contended x' d' (Function.update φ t f) ((t, r) :: l) := by
  have hnot : ∀ r, (t, r) ∉ l := by
    intro r hr
    rw [h.carried, ht] at hr
    cases hr
  refine ⟨hexact, List.nodup_cons.mpr ⟨hnot r, h.nodup⟩, fun u r' => ?_, hzero,
    fun u size p hu => ?_, fun u size hu => ?_⟩
  · by_cases hu : u = t
    · subst hu
      rw [Function.update_self, hf, List.mem_cons]
      simp only [hnot r', or_false, Prod.mk.injEq, true_and, Option.some.injEq]
      exact eq_comm
    · rw [Function.update_of_ne hu, ← h.carried, List.mem_cons]
      simp [hu]
  · by_cases hut : u = t
    · rw [hut, Function.update_self] at hu
      exact hnew size p hu
    · rw [Function.update_of_ne hut] at hu
      exact hzeroed u size p hu
  · by_cases hut : u = t
    · rw [hut, Function.update_self] at hu
      rw [hu] at hf
      cases hf
    · rw [Function.update_of_ne hut] at hu
      exact h.guard u size hu

/-- A call passes on the block that it has had in its hands. -/
theorem lose (h : Contended x d φ l) {f : CallPhase ZeroOp ZeroOp.Res} {r : ℕ × ℕ}
    {x' : List (ℕ × ℕ)} {d' : MetaBytes} (ht : carries (φ t) = some r) (hf : carries f = none)
    (hguard : ∀ size, f ≠ .before (.zalloc size))
    (hexact : d'.metadata.Exact ((l.erase (t, r)).map Prod.snd ++ x'))
    (hzero : ∀ r ∈ x', Zero d'.bytes r)
    (hzeroed : ∀ u size p, u ≠ t → φ u = .after (.zalloc size) (some p) →
      Zero d'.bytes (p, size)) :
    Contended x' d' (Function.update φ t f) (l.erase (t, r)) := by
  refine ⟨hexact, h.nodup.erase _, fun u r' => ?_, hzero, fun u size p hu => ?_,
    fun u size hu => ?_⟩
  · rw [h.nodup.mem_erase_iff, h.carried]
    by_cases hu : u = t
    · subst hu
      rw [Function.update_self, hf, ht]
      simp only [Option.some.injEq, ne_eq, Prod.mk.injEq, true_and, reduceCtorEq, iff_false,
        not_and]
      exact fun hne he => hne he.symm
    · rw [Function.update_of_ne hu]
      simp [hu]
  · by_cases hut : u = t
    · rw [hut, Function.update_self] at hu
      rw [hu] at hf
      cases hf
    · rw [Function.update_of_ne hut] at hu
      exact hzeroed u size p hut hu
  · by_cases hut : u = t
    · rw [hut, Function.update_self] at hu
      exact absurd hu (hguard size)
    · rw [Function.update_of_ne hut] at hu
      exact h.guard u size hu

/-- The block in the hands of a call comes first. -/
theorem perm_erase (h : Contended x d φ l) {r : ℕ × ℕ} (ht : carries (φ t) = some r) :
    (l.map Prod.snd ++ x).Perm (r :: ((l.erase (t, r)).map Prod.snd ++ x)) := by
  have hperm := (List.perm_cons_erase ((h.carried t r).mpr ht)).map Prod.snd
  exact hperm.append_right x

/-- A block of another call, or of a client, is among what is left. -/
theorem mem_erase (h : Contended x d φ l) {r r' : ℕ × ℕ} {u : Tid} (hu : u ≠ t)
    (hr : carries (φ u) = some r') : r' ∈ (l.erase (t, r)).map Prod.snd := by
  apply List.mem_map.mpr
  refine ⟨(u, r'), (h.nodup.mem_erase_iff).mpr ⟨?_, (h.carried u r').mpr hr⟩, rfl⟩
  intro he
  exact hu (congrArg Prod.fst he)

end Contended

/-- **What whole calls keep.** -/
theorem contended (hd : d₀.metadata.Init) (h : Atomically (metaSections Tid) d₀ [] x d φ) :
    ∃ l, Contended x d φ l := by
  induction h with
  | init =>
    refine ⟨[], ⟨⟨⟨hd.sound, by simp, .nil⟩, ?_⟩, .nil, ?_, by simp, ?_, ?_⟩⟩
    · simp [hd.chunks]
    · simp [carries]
    · rintro t size p ⟨⟩
    · rintro t size ⟨⟩
  | @start x x' d φ t o _ ht hx ih =>
    obtain ⟨l, ih⟩ := ih
    have hnone : carries (φ t) = none := by rw [ht]; rfl
    cases o with
    | zalloc size =>
      obtain ⟨hguard, he⟩ := Option.ite_some_none_eq_some.mp hx
      cases he
      refine ⟨l, ih.idle hnone rfl fun size' hsize => ?_⟩
      cases hsize
      exact hguard
    | free p size written =>
      obtain ⟨hmem, he⟩ := Option.ite_some_none_eq_some.mp hx
      cases he
      refine ⟨_, ih.gain hnone (r := (p, size)) rfl (ih.exact.perm ?_) ?_ ih.zeroed ?_⟩
      · exact ((List.perm_cons_erase hmem).append_left _).trans List.perm_middle
      · exact fun r hr => ih.zero r (List.mem_of_mem_erase hr)
      · rintro size p ⟨⟩
  | @sect x d d' φ t o a _ ht hr ih =>
    obtain ⟨l, ih⟩ := ih
    cases o with
    | zalloc size =>
      have hnone : carries (φ t) = none := by rw [ht]; rfl
      have hz := (MetaBytes.metaZalloc_ends (t := t) ih.exact (ih.guard t size ht)).result hr
      cases a with
      | none =>
        have hidle := ih.idle (f := .after (.zalloc size) none) hnone rfl (by rintro size ⟨⟩)
        refine ⟨l, ⟨hz.exact, hidle.nodup, hidle.carried, ?_, ?_, hidle.guard⟩⟩
        · exact fun r hr => (ih.zero r hr).cleared hz.cleared
        · exact fun u size p hu => (hidle.zeroed u size p hu).cleared hz.cleared
      | some p =>
        refine ⟨_, ih.gain hnone (r := (p, size)) rfl hz.exact ?_ ?_ ?_⟩
        · exact fun r hr => (ih.zero r hr).cleared hz.cleared
        · exact fun u size p hu => (ih.zeroed u size p hu).cleared hz.cleared
        · rintro size' p' he
          cases he
          exact hz.zero p rfl
    | free p size written =>
      have hsome : carries (φ t) = some (p, size) := by rw [ht]; rfl
      obtain ⟨hexact, hzero⟩ :=
        (MetaBytes.metaFree_ends (t := t) (ih.exact.perm (ih.perm_erase hsome))).result hr
      refine ⟨_, ih.lose hsome rfl (by rintro size ⟨⟩) hexact ?_ ?_⟩
      · exact fun r hr => hzero r (List.mem_append_right _ hr) (ih.zero r hr)
      · intro u size' p' hu he
        apply hzero _ _ (ih.zeroed u size' p' he)
        exact List.mem_append_left _ (ih.mem_erase hu (by rw [he]; rfl))
  | @finish x d φ t o a _ ht ih =>
    obtain ⟨l, ih⟩ := ih
    have hidle : carries (φ t) = none → ∃ l, Contended x d (Function.update φ t .idle) l :=
      fun hnone => ⟨l, ih.idle hnone rfl (by rintro size ⟨⟩)⟩
    cases o with
    | zalloc size =>
      cases a with
      | none => exact hidle (by rw [ht]; rfl)
      | some p =>
        have hsome : carries (φ t) = some (p, size) := by rw [ht]; rfl
        refine ⟨_, ih.lose hsome rfl (by rintro size ⟨⟩) (ih.exact.perm ?_) ?_ ?_⟩
        · exact (ih.perm_erase hsome).trans List.perm_middle.symm
        · intro r hr
          rcases List.mem_cons.mp hr with rfl | hr
          · exact ih.zeroed t _ _ ht
          · exact ih.zero r hr
        · exact fun u size' p' _ he => ih.zeroed u size' p' he
    | free p size written => exact hidle (by rw [ht]; rfl)

/-- A block has been handed out: a client has it, or a call is about to return it. -/
def HandedBlock (c : Config (LockAct ZeroAct) Tid ZeroOp ZeroOp.Res
    (LockMem Tid MetaBytes (List (ℕ × ℕ)))) (r : ℕ × ℕ) : Prop :=
  r ∈ c.mem.client ∨ ∃ t, c.thread t = some ⟨.zalloc r.2, .ret (some r.1)⟩

/-- The blocks that any number of threads get from the metadata allocator do not overlap; each lies
in a chunk, behind its header, and is zero, its owner's writes apart. Between calls a block of a
chunk is free if and only if no client has it. -/
theorem metadata_contended {c : Config (LockAct ZeroAct) Tid ZeroOp ZeroOp.Res
    (LockMem Tid MetaBytes (List (ℕ × ℕ)))} (hd : d₀.metadata.Init)
    (h : (lockSystem (metaSections Tid)).Reachable (· = .init d₀ []) System.anyMove c) :
    c.mem.client.Pairwise BlocksApart ∧
    (∀ t size p, c.thread t = some ⟨.zalloc size, .ret (some p)⟩ →
      (∀ r ∈ c.mem.client, BlocksApart (p, size) r) ∧
      ∀ u size' p', u ≠ t → c.thread u = some ⟨.zalloc size', .ret (some p')⟩ →
        BlocksApart (p, size) (p', size')) ∧
    (c.mem.locked = false → ∀ r, HandedBlock c r →
      c.mem.data.metadata.Held r ∧ Zero c.mem.data.bytes r) ∧
    (c.Quiescent → ∀ k ∈ c.mem.data.metadata.chunks, ∀ j, Meta.headerBlocks ≤ j → j < metaBlocks →
      (j ∈ bitsOf 1 (c.mem.data.metadata.words k) ↔
        ∀ r ∈ c.mem.client, ¬ Spans r (Meta.blockPtr k j))) := by
  obtain ⟨d, φ, hspec, hphase, hdata⟩ := exists_atomically h
  obtain ⟨l, hl⟩ := contended hd hspec
  have hreturns : ∀ t size p, c.thread t = some ⟨.zalloc size, .ret (some p)⟩ →
      φ t = .after (.zalloc size) (some p) := by
    intro t size p ht
    have hp := hphase t
    rw [ht] at hp
    exact hp.after
  have hcarries : ∀ t size p, c.thread t = some ⟨.zalloc size, .ret (some p)⟩ →
      carries (φ t) = some (p, size) := by
    intro t size p ht
    rw [hreturns t size p ht]
    rfl
  refine ⟨?_, fun t size p ht => ?_, fun hlocked r hr => ?_, fun hq k hk j hj hlt => ?_⟩
  · exact (List.pairwise_append.mp hl.exact.apart).2.1
  · have hapart := (hl.exact.perm (hl.perm_erase (hcarries t size p ht))).apart
    have hfirst := (List.pairwise_cons.mp hapart).1
    refine ⟨fun r hr => hfirst r (List.mem_append_right _ hr), fun u size' p' hu hu' => ?_⟩
    exact hfirst _ (List.mem_append_left _ (hl.mem_erase hu (hcarries u size' p' hu')))
  · rw [hdata hlocked]
    rcases hr with hr | ⟨t, ht⟩
    · exact ⟨hl.exact.held r (List.mem_append_right _ hr), hl.zero r hr⟩
    · refine ⟨hl.exact.held r (List.mem_append_left _ ?_), hl.zeroed t _ _ (hreturns t _ _ ht)⟩
      exact List.mem_map.mpr ⟨(t, r), (hl.carried t r).mpr (hcarries t _ _ ht), rfl⟩
  · have hnil : l = [] := by
      rw [List.eq_nil_iff_forall_not_mem]
      rintro ⟨t, r⟩ hr
      have hp := hphase t
      rw [hq t] at hp
      rw [hl.carried, hp.idle] at hr
      cases hr
    have hexact := hl.exact
    rw [hnil] at hexact
    rw [hdata (unlocked_of_quiescent h hq)] at hk ⊢
    constructor
    · intro hfree r hr hcov
      obtain ⟨k', hk', idx, hptr, -, -, hle, hdis⟩ := hexact.held r hr
      obtain ⟨p, size⟩ := r
      have hptr : p = Meta.blockPtr k' idx := hptr
      subst hptr
      obtain ⟨rfl, hmem⟩ := (hexact.chunks.spans_iff hk' hk hle hlt).mp hcov
      exact Set.disjoint_left.mp hdis hmem hfree
    · intro hnone
      by_contra hfree
      obtain ⟨r, hr, hcov⟩ := hexact.taken k hk j hj hlt hfree
      exact hnone r hr hcov

/-- The first call of a thread, which gets a new chunk. -/
def firstZalloc : List (Move ℕ ZeroOp) :=
  .start 0 (.zalloc 1) :: .step 0 0 :: .step 0 0 :: List.replicate 49 (.step 0 1)

/-- A block has been handed out. -/
theorem metadata_contended_first :
    ∃ c : Config (LockAct ZeroAct) ℕ ZeroOp ZeroOp.Res (LockMem ℕ MetaBytes (List (ℕ × ℕ))),
      c.mem.client = [(4352, 1)] ∧ c.mem.client.Pairwise BlocksApart := by
  have hrun : ((lockSystem (metaSections ℕ)).run (firstZalloc ++ [.finish 0])
      ⟨.init .empty [], fun _ => none⟩).any (fun c => c.mem.client == [(4352, 1)]) = true := by
    decide +kernel
  obtain ⟨c, hc, htest⟩ := System.exists_run hrun
  have hreach : (lockSystem (metaSections ℕ)).Reachable (· = .init .empty [])
      System.anyMove c := System.reachable_of_run (by rfl) hc
  exact ⟨c, by simpa using htest, (metadata_contended ⟨rfl, rfl, rfl⟩ hreach).1⟩

/-- While a call waits for the lock the sections are as in the specification. -/
theorem lock_refines_atomic_first :
    ∃ c : Config (LockAct ZeroAct) ℕ ZeroOp ZeroOp.Res (LockMem ℕ MetaBytes (List (ℕ × ℕ))),
      c.thread 0 ≠ none ∧ ∃ d φ, Atomically (metaSections ℕ) .empty [] c.mem.client d φ ∧
        (∀ t, AtPhase (c.thread t) (φ t)) ∧ (c.mem.locked = false → c.mem.data = d) := by
  have hinit : (lockSystem (metaSections ℕ)).Reachable (· = .init .empty []) System.anyMove
      ⟨.init .empty [], fun _ => none⟩ := .init rfl
  have hstart := hinit.next (m := .start 0 (.zalloc 1)) trivial rfl
  exact ⟨_, by simp, (lock_refines_atomic hstart).2.1⟩

/-- Calls on the metadata allocator come to their end wherever they are made. -/
theorem metaSections_end (hd : d₀.metadata.Init) : (metaSections Tid).End d₀ [] := by
  intro t o x d φ hspec ht
  obtain ⟨l, hl⟩ := contended hd hspec
  cases o with
  | zalloc size => exact (MetaBytes.metaZalloc_ends hl.exact (hl.guard t size ht)).mono fun _ _ _ => trivial
  | free p size written =>
    have hsome : carries (φ t) = some (p, size) := by rw [ht]; rfl
    exact (MetaBytes.metaFree_ends (hl.exact.perm (hl.perm_erase hsome))).mono fun _ _ _ => trivial

/-- A first call on the metadata allocator can return. -/
theorem sections_not_deadlocked_first :
    ∃ (c : Config (LockAct ZeroAct) ℕ ZeroOp ZeroOp.Res (LockMem ℕ MetaBytes (List (ℕ × ℕ))))
      (u : ℕ) (ms : List (Move ℕ ZeroOp)) (c' : Config (LockAct ZeroAct) ℕ ZeroOp ZeroOp.Res
        (LockMem ℕ MetaBytes (List (ℕ × ℕ)))),
      c.thread u ≠ none ∧ (∀ m ∈ ms, Move.thread m = u) ∧
        (lockSystem (metaSections ℕ)).run ms c = some c' ∧ c'.thread u = none := by
  have hinit : (lockSystem (metaSections ℕ)).Reachable (· = .init .empty []) System.anyMove
      ⟨.init .empty [], fun _ => none⟩ := .init rfl
  have hstart := hinit.next (m := .start 0 (.zalloc 1)) trivial rfl
  have hrunning := sections_not_deadlocked (metaSections_end ⟨rfl, rfl, rfl⟩) hstart
    (t := 0) (by simp)
  exact ⟨_, hrunning⟩

end MimallocRs
