import MimallocRs.Bits
import MimallocRs.Foundations.Chain

/-!
# Pages

The header of a page and the code of `page.rs` that only the owner of the page runs. A block is
named by its index in the block area, block `i` being at `page_start + i * block_size`, and
`next` holds the link word of every block. The three free lists are kept as in the source: two
head pointers `free` and `localFree`, and the head word `xthreadFree`, which carries the
ownership bit of the page next to the pointer. The functions here are the stretches of code
between two accesses to an atomic field; `Page/Prog.lean` puts them together with those accesses.
-/

namespace MimallocRs

open Interleave

/-- A block, by its index in the page. -/
abbrev Blk := ℕ

/-- A head word of the cross-thread list: a block pointer and the ownership bit (`tf_create`,
`tf_block`, `tf_is_owned`). -/
structure Tf where
  block : Option Blk
  owned : Bool
  deriving DecidableEq

/-- A page header, and the link words of its blocks. -/
structure Page where
  /-- Owner thread id and page flags. -/
  xthreadId : ℕ
  free : Option Blk
  localFree : Option Blk
  xthreadFree : Tf
  /-- Blocks handed out, the ones on `xthreadFree` included. -/
  used : ℕ
  /-- Blocks threaded onto the free lists so far. -/
  capacity : ℕ
  /-- Blocks the page can ever hold. -/
  reserved : ℕ
  blockSize : ℕ
  freeIsZero : Bool
  next : Blk → Option Blk

namespace Page

/-- `size_of::<Page>()`. -/
def sizeOf : ℕ := 136

/-- The offset of the block area from the start of the first slice. -/
def startOff : ℕ := alignUp (alignUp sizeOf miMaxAlignSize) miMaxAlignSize

/-- `Page::init`: a page over `sliceCount` slices, no block threaded yet. The owner id is stored
by `set_owner_fresh` before the page is published. -/
def init (sliceCount blockSize tid : ℕ) (isZero : Bool) : Page where
  xthreadId := tid
  free := none
  localFree := none
  xthreadFree := ⟨none, true⟩
  used := 0
  capacity := 0
  reserved := (sliceCount * miArenaSliceSize - startOff) / blockSize % 2 ^ 32
  blockSize := blockSize
  freeIsZero := isZero
  next := fun _ => none

/-- `Page::init_huge`: one block, which is never threaded onto a free list. -/
def initHuge (blockSize tid : ℕ) (isZero : Bool) : Page where
  xthreadId := tid
  free := none
  localFree := none
  xthreadFree := ⟨none, true⟩
  used := 0
  capacity := 1
  reserved := 1
  blockSize := blockSize
  freeIsZero := isZero
  next := fun _ => none

/-- `Page::serve_huge`: the single block of a fresh huge page is handed out. -/
def serveHuge (p : Page) : Page := { p with used := 1 }

/-- The inner loop of `extend_free`: thread the blocks `[cap, cap + n)` in front of `head`,
highest index first. -/
def threadBlocks (cap : ℕ) : ℕ → (Blk → Option Blk) → Option Blk → (Blk → Option Blk) × Option Blk
  | 0, next, head => (next, head)
  | n + 1, next, head =>
    threadBlocks cap n (Function.update next (cap + n) head) (some (cap + n))

/-- How many blocks `extend_free` adds: at most 4096 bytes' worth, at least one. -/
def extendCount (p : Page) : ℕ := min (p.reserved - p.capacity) (max (4096 / p.blockSize) 1)

/-- `Page::extend_free`. -/
def extendFree (p : Page) : Page :=
  if p.reserved ≤ p.capacity then p else
    let r := threadBlocks p.capacity p.extendCount p.next p.free
    { p with next := r.1, free := r.2, capacity := p.capacity + p.extendCount }

/-- One round of the first loop of `Page::collect`: move the captured block `tf` to `free`. The
result is the block captured behind it. -/
def splice (p : Page) (tf : Blk) : Option Blk × Page :=
  (p.next tf, { p with next := Function.update p.next tf p.free, free := some tf,
                       used := p.used - 1 })

/-- The second part of `Page::collect`: put `local_free` in front of `free`. -/
def adoptLocal (p : Page) : Page :=
  match p.localFree with
  | none => p
  | some lf =>
    match p.free with
    | none => { p with freeIsZero := false, free := some lf, localFree := none }
    | some _ =>
      { p with
        freeIsZero := false
        next := Function.update p.next (lastOf p.next p.capacity lf) p.free
        free := some lf
        localFree := none }

/-- `Page::pop` of the head `b` of `free`. -/
def pop (p : Page) (b : Blk) : Page := { p with free := p.next b, used := p.used + 1 }

/-- `Page::free_local`. -/
def freeLocal (p : Page) (b : Blk) : Page :=
  { p with next := Function.update p.next b p.localFree, localFree := some b, used := p.used - 1 }

/-- The first part of `Page::collect_partly`, up to its test of `used`: move what is queued behind
`head` to `local_free`, and that to `free` if `free` is empty. -/
def collectBehind (p : Page) (head : Blk) : Page :=
  match p.next head with
  | none => p
  | some b =>
    let next := Function.update p.next head none
    let q := { p with
      next := Function.update next (lastOf next p.capacity b) p.localFree
      localFree := some b
      used := p.used - walkLength next p.capacity b }
    match q.free with
    | none => { q with free := q.localFree, localFree := none }
    | some _ => q

/-- The test of `Page::is_full` that follows its collect. -/
def atCapacity (p : Page) : Bool := p.reserved ≤ p.capacity

end Page

end MimallocRs
