import MimallocRs.Arena.Slices
import MimallocRs.Foundations.Interleave.Serial

/-!
# The metadata allocator

`arena_meta.rs`, which hands out blocks of 64 bytes for the allocator's own bookkeeping, and
`Arena::create`, which takes the bitmaps and the descriptor of a new arena from it. A metadata chunk
is a region of 512 blocks, of which the first four hold its header. A chunk is named by the address
of its region. All calls hold the lock of the allocator, so that they run one after the other, and
`metaSystem` is the system of whole calls. The contents of the blocks are not modelled, except for
the bitmaps of the arena that is being created.
-/

namespace MimallocRs

open Interleave Prog

/-- `META_BLOCK_SIZE`. -/
def metaBlockSize : ℕ := 64

/-- `META_BLOCKS`. -/
def metaBlocks : ℕ := chunkBits

/-- `META_REGION_SIZE`. -/
def metaRegionSize : ℕ := metaBlockSize * metaBlocks

/-- `size_of::<MetaChunk>()`. -/
def metaChunkSize : ℕ := 256

/-- `size_of::<BChunk>()`. -/
def bchunkSize : ℕ := 64

/-- `size_of::<Arena>()`. -/
def arenaSize : ℕ := 160

/-- `div_ceil`. -/
def divCeil (n d : ℕ) : ℕ := (n + d - 1) / d

/-- The events on the metadata allocator. -/
inductive MetaAct (β : Type) : Type
  /-- Read `META.head`. -/
  | head (answer : Option ℕ → β)
  /-- Read the link of a chunk. -/
  | next (c : ℕ) (answer : Option ℕ → β)
  /-- An event on the bitmap of a chunk. -/
  | bit (c : ℕ) (e : BitAct β)
  /-- `os::alloc` of the region of a chunk, zeroed: its address. -/
  | osAlloc (answer : Option ℕ → β)
  /-- Link a chunk in front of the head. -/
  | setNext (c : ℕ) (answer : Unit → β)
  /-- Make a chunk the head. -/
  | setHead (c : ℕ) (answer : Unit → β)
  /-- `os::alloc_aligned`: the address, whether it is pinned and whether it is zero. -/
  | osAllocAligned (size : ℕ) (answer : Option (ℕ × Bool × Bool) → β)
  /-- `os::free`. -/
  | osFree (answer : Unit → β)
  /-- Write the descriptor of an arena, whose bitmaps are zero. -/
  | writeArena (answer : Unit → β)
  /-- An event on the bitmaps of the new arena. -/
  | arena (a : Arena) (e : ArenaAct β)

namespace Meta

/-- A call on the bitmap of a chunk. -/
def onChunk {α : Type} (c : ℕ) (p : Prog BitAct α) : Prog MetaAct α := p.hoist (.bit c)

/-- `MetaChunk::block_ptr`. -/
def blockPtr (c idx : ℕ) : ℕ := c + idx * metaBlockSize

/-- `MetaChunk::owns`. -/
def owns (c a : ℕ) : Bool := c ≤ a ∧ a < c + metaRegionSize

/-- The number of blocks of the header of a chunk. -/
def headerBlocks : ℕ := divCeil metaChunkSize metaBlockSize

/-- `push_new_chunk`. -/
def pushNewChunk : Prog MetaAct (Option ℕ) := do
  match ← perform (.osAlloc id) with
  | none => return none
  | some c =>
    perform (.setNext c id)
    onChunk c (Bitmap.unsafeSetN headerBlocks (metaBlocks - headerBlocks))
    perform (.setHead c id)
    return some c

/-- The walk of `meta_zalloc` over the chunks, from `cur` on. -/
def findInChunks (blocks : ℕ) (cur : Option ℕ) : Prog MetaAct (Option ℕ) :=
  iterate (fun cur =>
    match cur with
    | none => return .inr none
    | some c => do
      match ← onChunk c (Bitmap.tryFindAndClearN 1 blocks 0) with
      | some idx => return .inr (some (blockPtr c idx))
      | none =>
        let next ← perform (.next c id)
        return .inl next) cur

/-- `meta_zalloc`. -/
def metaZalloc (size : ℕ) : Prog MetaAct (Option ℕ) :=
  let blocks := divCeil size metaBlockSize
  if blocks = 0 ∨ metaBlocks < blocks then return none
  else do
    let cur ← perform (.head id)
    match ← findInChunks blocks cur with
    | some p => return some p
    | none =>
      match ← pushNewChunk with
      | none => return none
      | some c =>
        match ← onChunk c (Bitmap.tryFindAndClearN 1 blocks 0) with
        | none => return none
        | some idx => return some (blockPtr c idx)

/-- The walk of `meta_free` over the chunks, from `cur` on. -/
def freeInChunks (p size : ℕ) (cur : Option ℕ) : Prog MetaAct Unit :=
  iterate (fun cur =>
    match cur with
    | none => return .inr ()
    | some c =>
      if owns c p then do
        let _ ← onChunk c
          (Bitmap.setN ((p - c) / metaBlockSize) (divCeil size metaBlockSize))
        return .inr ()
      else do
        let next ← perform (.next c id)
        return .inl next) cur

/-- `meta_free`. -/
def metaFree (p size : ℕ) : Prog MetaAct Unit := do
  let cur ← perform (.head id)
  freeInChunks p size cur

end Meta

namespace Arena

/-- The region of an arena starts at a slice, in user space. -/
def Region (a : Arena) : Prop := a.start % miArenaSliceSize = 0 ∧ a.start < 2 ^ miMaxVabits

/-- `Arena::hot_bitmap_bytes`. -/
def hotBitmapBytes (chunkCount : ℕ) : ℕ := 4 * (chunkCount + 1) * bchunkSize

/-- An arena that `Arena::create` has made, with the addresses of its descriptor and its bitmaps. -/
structure Created where
  arena : Arena
  desc : ℕ
  hot : ℕ

/-- The metadata of an arena, with its sizes. -/
def Created.blocks (r : Created) : List (ℕ × ℕ) :=
  [(r.desc, arenaSize), (r.hot, hotBitmapBytes r.arena.chunkCount)]

/-- `Arena::create`. -/
def create (sliceCount : ℕ) (hpos : 0 < sliceCount) (commit : Bool) :
    Prog MetaAct (Option Created) :=
  if h : chunkBits < chunksFor sliceCount then return none
  else do
    match ← perform (.osAllocAligned (sliceCount * miArenaSliceSize) id) with
    | none => return none
    | some (start, isPinned, initiallyZero) =>
      match ← Meta.metaZalloc (hotBitmapBytes (chunksFor sliceCount)) with
      | none =>
        perform (.osFree id)
        return none
      | some hot =>
        match ← Meta.metaZalloc arenaSize with
        | none =>
          perform (.osFree id)
          Meta.metaFree hot (hotBitmapBytes (chunksFor sliceCount))
          return none
        | some desc =>
          let a : Arena := ⟨start, sliceCount, chunksFor sliceCount, isPinned, initiallyZero, hpos,
            rfl, Nat.le_of_not_lt h⟩
          perform (.writeArena id)
          (a.initBitmaps commit).hoist (.arena a)
          return some ⟨a, desc, hot⟩

/-- `Arena::destroy` of an arena whose abandoned registry has not been mapped. -/
def destroy (r : Created) : Prog MetaAct Unit := do
  perform (.osFree id)
  Meta.metaFree r.hot (hotBitmapBytes r.arena.chunkCount)
  Meta.metaFree r.desc arenaSize

end Arena

/-! ## The state -/

/-- The metadata allocator, and the bitmaps of the arena that was created last. -/
structure MetaMem where
  head : Option ℕ
  next : ℕ → Option ℕ
  words : ℕ → Words
  new : ArenaMem
  /-- History: the chunks on the list. -/
  chunks : List ℕ
  /-- History: the pointers handed out and not freed, with the sizes asked for. -/
  live : List (ℕ × ℕ)

namespace MetaMem

/-- Two regions do not overlap. -/
def Apart (c d : ℕ) : Prop := c + metaRegionSize ≤ d ∨ d + metaRegionSize ≤ c

instance (c d : ℕ) : Decidable (Apart c d) := inferInstanceAs (Decidable (_ ∨ _))

/-- Where the operating system puts a region: at the page it chooses, if that is free. -/
def place (s : MetaMem) (choice : ℕ) : ℕ :=
  if ∀ c ∈ s.chunks, Apart (choice * 4096) c then choice * 4096
  else s.chunks.foldr (fun c top => max (c + metaRegionSize) top) 0

/-- The events on the metadata allocator. An operating system that may refuse refuses at choice
0. What it gives out are user addresses. -/
def exec {β : Type} (refuses : Bool) (e : MetaAct β) (s : MetaMem) (choice : ℕ) :
    Option (β × MetaMem) :=
  match e with
  | .head k => some (k s.head, s)
  | .next c k => some (k (s.next c), s)
  | .bit c e => (wordExec 1 e (s.words c)).map fun r =>
      (r.1, { s with words := Function.update s.words c r.2 })
  | .osAlloc k =>
    if refuses ∧ choice = 0 then some (k none, s)
    else some (k (some (s.place choice)),
      { s with words := Function.update s.words (s.place choice) fun _ => 0#64 })
  | .setNext c k => some (k (), { s with next := Function.update s.next c s.head })
  | .setHead c k => some (k (), { s with head := some c, chunks := c :: s.chunks })
  | .osAllocAligned _ k =>
    if refuses ∧ choice = 0 then some (k none, s)
    else some (k (some (choice / 4 * miArenaSliceSize % 2 ^ miMaxVabits, choice.testBit 0,
      choice.testBit 1)), s)
  | .osFree k => some (k (), s)
  | .writeArena k => some (k (), { s with new := ⟨fun _ _ => 0#64, 0, s.new.opts, s.new.now⟩ })
  | .arena a e => (s.new.exec a.chunkCount e choice).map fun r => (r.1, { s with new := r.2 })

/-- Before the first call there is no chunk. -/
structure Init (s : MetaMem) : Prop where
  head : s.head = none
  chunks : s.chunks = []
  live : s.live = []

/-- A new metadata allocator. -/
def empty : MetaMem where
  head := none
  next := fun _ => none
  words := fun _ _ => 0#64
  new := ⟨fun _ _ => 0#64, 0, Opt.defaultValue, 0⟩
  chunks := []
  live := []

end MetaMem

/-- The events on the metadata allocator. -/
def metaMachine (refuses : Bool) : Machine MetaAct Unit MetaMem where
  exec _ e s choice := s.exec refuses e choice

/-- The calls on the metadata allocator. -/
inductive MetaOp
  | zalloc (size : ℕ) | free (p size : ℕ)
  | create (sliceCount : ℕ) (hpos : 0 < sliceCount) (commit : Bool)

/-- What the calls return. -/
abbrev MetaOp.Res : MetaOp → Type
  | .zalloc _ => Option ℕ
  | .free .. => Unit
  | .create .. => Option Arena.Created

/-- Calls on the metadata allocator, one after the other, under an operating system that may refuse.
What is freed has been handed out. -/
def metaSystem : System MetaAct Unit MetaOp MetaOp.Res MetaMem where
  toMachine := metaMachine true
  prog
    | _, .zalloc size => Meta.metaZalloc size
    | _, .free p size => Meta.metaFree p size
    | _, .create sliceCount hpos commit => Arena.create sliceCount hpos commit
  start
    | _, .free p size, s =>
      if (p, size) ∈ s.live then some { s with live := s.live.erase (p, size) } else none
    | _, _, s => some s
  finish
    | _, .zalloc size, some p, s => { s with live := (p, size) :: s.live }
    | _, .create .., some r, s =>
      { s with live := (r.desc, arenaSize) ::
          (r.hot, Arena.hotBitmapBytes r.arena.chunkCount) :: s.live }
    | _, _, _, s => s

end MimallocRs
