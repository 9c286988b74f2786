import MimallocRs.Process.State
import MimallocRs.Bitmap.Search

/-!
# The allocator as programs on a process

The functions of `subproc.rs`, `arena.rs` and `heap.rs` that put arenas, pages and theaps together.
They call the programs of the modules below: the slices of an arena (`Arena/Prog.lean`), its creation
and the metadata allocator (`Meta/Prog.lean`), the search of a registry (`Bitmap/Prog.lean`) and the
functions of a page (`Page/Prog.lean`), whose events `register`, `unregister` and `release` are
carried out by programs here. The callback of deferred frees is not registered.
-/

namespace MimallocRs

open Interleave Prog

/-! ## The sub-process -/

namespace Subproc

/-- `MAX_ARENAS`. -/
def maxArenas : ℕ := 160

/-- `DEFAULT_ARENA_SLICES`. -/
def defaultArenaSlices : ℕ := 4096

/-- `Subproc::add_arena`: where the arena has been registered. -/
def addArena (r : Arena.Created) : Prog ProcAct (Option ℕ) := do
  let idx ← fetch (·.arenaCount)
  if maxArenas ≤ idx then return none
  else
    store fun w => { w with
      arenas := Function.update w.arenas idx (some r.arena)
      arenaMem := Function.update w.arenaMem idx w.metadata.new }
    store fun w => { w with arenaCount := idx + 1 }
    return some idx

/-- `Subproc::reserve_arena`. -/
def reserveArena (minSlices : ℕ) (commit : Bool) : Prog ProcAct (Option ℕ) := do
  match ← onMetadata (Arena.create (max minSlices defaultArenaSlices)
      (Nat.lt_of_lt_of_le (by decide) (Nat.le_max_right ..)) commit) with
  | none => return none
  | some r =>
    store (·.hold r.blocks)
    match ← addArena r with
    | some i => return some i
    | none =>
      store (·.unhold r.blocks)
      onMetadata (Arena.destroy r)
      return none

/-- `Subproc::alloc_slices`: the arena, the first slice, and whether the slices are zero. -/
def allocSlices (n : ℕ) (commit : Bool) (tseq : ℕ) : Prog ProcAct (Option (ℕ × ℕ × Bool)) := do
  let count ← fetch (·.arenaCount)
  let cursor ← fetch (·.allocCursor)
  let found ← firstSome (fun k => do
    let i := (cursor % count + k) % count
    match ← fetch (·.arenas i) with
    | none => return none
    | some a =>
      match ← (a.allocSlices n tseq).hoist (.arena i) with
      | none => return none
      | some (idx, _, isZero) =>
        if k ≠ 0 then store fun w => { w with allocCursor := i } else pure ()
        return some (i, idx, isZero)) (List.range count)
  match found with
  | some r => return some r
  | none =>
    match ← reserveArena n commit with
    | none => return none
    | some i =>
      match ← onArena i fun a => a.allocSlices n tseq with
      | none => return none
      | some (idx, _, isZero) =>
        store fun w => { w with allocCursor := w.arenaCount - 1 }
        return some (i, idx, isZero)

/-- `Subproc::try_purge`. -/
def tryPurge (force : Bool) : Prog ProcAct Unit := do
  let count ← fetch (·.arenaCount)
  forEach (fun i => do
    match ← fetch (·.arenas i) with
    | none => return ()
    | some a =>
      let _ ← (a.maybePurge force).hoist (.arena i)
      return ()) (List.range count)

end Subproc

/-! ## The abandoned registry -/

namespace Arena

/-- `Arena::ensure_abandoned`: whether the registry of arena `i` is mapped. -/
def ensureAbandoned (i : ℕ) : Prog ProcAct Bool := do
  if ← fetch (·.abandonedBase i) then return true else perform (.mapRegistry i id)

/-- `Arena::page_abandon`. -/
def pageAbandon (i sliceIndex bin : ℕ) : Prog ProcAct Unit := do
  if ← ensureAbandoned i then
    let _ ← (Bitmap.setN sliceIndex 1).hoist (.registry i bin)
    return ()
  else return ()

/-- `Arena::reclaim_abandoned`. -/
def reclaimAbandoned (i bin tseq : ℕ) : Prog ProcAct (Option ℕ) := do
  if ← fetch (·.abandonedBase i) then
    match ← fetch (·.arenas i) with
    | none => fault
    | some a =>
      Bitmap.tryFindAndClaim (fun e => ProcAct.registry i bin e)
        (fun idx => onPage (.slice i idx) Page.claimOwnership) a.chunkCount tseq
  else return none

/-- `Arena::page_unabandon`. -/
def pageUnabandon (i sliceIndex bin : ℕ) : Prog ProcAct Unit := do
  if ← fetch (·.abandonedBase i) then
    let _ ← (Bitmap.clearN sliceIndex 1).hoist (.registry i bin)
    return ()
  else return ()

end Arena

namespace Subproc

/-- `Subproc::abandon_page`. -/
def abandonPage (p : PagePtr) (bin : ℕ) : Prog ProcAct Unit := do
  let d ← fetch (·.desc p)
  Arena.pageAbandon d.arena d.sliceIndex bin

/-- `Subproc::reclaim_page`. -/
def reclaimPage (bin tseq : ℕ) : Prog ProcAct (Option PagePtr) := do
  let count ← fetch (·.arenaCount)
  firstSome (fun i => do
    match ← fetch (·.arenas i) with
    | none => return none
    | some _ =>
      match ← Arena.reclaimAbandoned i bin tseq with
      | none => return none
      | some idx =>
        store fun w => { w with log := .reclaimed (.slice i idx) :: w.log }
        return some (.slice i idx)) (List.range count)

end Subproc

/-! ## Releasing pages -/

/-- `release_page_slices`. -/
def releasePageSlices (p : PagePtr) : Prog ProcAct Unit := do
  let d ← fetch (·.desc p)
  -- `page_map::unregister`
  store fun w => { w.mapSlices d.arena d.sliceIndex d.sliceCount none with pages := w.pages.erase p }
  onArena d.arena fun a => a.freeSlices d.sliceIndex d.sliceCount
  if d.bin = miBinHuge then
    match p with
    | .header h => metaFree h Page.sizeOf
    | .slice .. => fault
  else return ()

/-- How an event on a page is carried out. `bin` is the bin under which the page is registered. -/
def handlePage (p : PagePtr) (bin : ℕ) {β : Type} : PageAct β → Prog ProcAct β
  | .register => Subproc.abandonPage p bin
  | .unregister => do
    let d ← fetch (·.desc p)
    Arena.pageUnabandon d.arena d.sliceIndex d.bin
  | .release => releasePageSlices p
  | e => perform (.page p e)

/-- `abandon_owned_page`. -/
def abandonOwnedPage (p : PagePtr) (bin : ℕ) : Prog ProcAct Unit :=
  Page.abandonOwnedPage.interp (handlePage p bin)

/-! ## Queues -/

namespace Process

/-- `PageQueue::push_front`. -/
def pushFront (th : TheapPtr) (b : ℕ) (p : PagePtr) (w : Process) : Process :=
  let oldFirst := w.first th b
  { w with
    prev := oldFirst.elim (Function.update w.prev p none) fun f =>
      Function.update (Function.update w.prev p none) f (some p)
    next := Function.update w.next p oldFirst
    last := match oldFirst with
      | none => Function.update w.last th (Function.update (w.last th) b (some p))
      | some _ => w.last
    first := Function.update w.first th (Function.update (w.first th) b (some p))
    count := Function.update w.count th (Function.update (w.count th) b (w.count th b + 1)) }

/-- `PageQueue::remove`. -/
def remove (th : TheapPtr) (b : ℕ) (p : PagePtr) (w : Process) : Process :=
  let prev := w.prev p
  let next := w.next p
  { w with
    next := Function.update (prev.elim w.next fun f => Function.update w.next f next) p none
    prev := Function.update (next.elim w.prev fun n => Function.update w.prev n prev) p none
    first := match prev with
      | none => Function.update w.first th (Function.update (w.first th) b next)
      | some _ => w.first
    last := match next with
      | none => Function.update w.last th (Function.update (w.last th) b prev)
      | some _ => w.last
    count := Function.update w.count th (Function.update (w.count th) b (w.count th b - 1)) }

/-- The loop that clears the entries of `pages_free_direct` that point at a page. -/
def clearDirect (th : TheapPtr) (p : PagePtr) (w : Process) : Process :=
  { w with pagesFreeDirect := Function.update w.pagesFreeDirect th fun i =>
      if w.pagesFreeDirect th i = some p then none else w.pagesFreeDirect th i }

/-- An entry of `pages_free_direct` is set. -/
def setDirect (th : TheapPtr) (wsize : ℕ) (p : PagePtr) (w : Process) : Process :=
  { w with pagesFreeDirect :=
      Function.update w.pagesFreeDirect th (Function.update (w.pagesFreeDirect th) wsize (some p)) }

/-- `Page::set_has_interior`. -/
def setHasInterior (p : PagePtr) (w : Process) : Process :=
  { w with page := Function.update w.page p ⟨{ (w.page p).page with
      xthreadId := (w.page p).page.xthreadId ||| miPageHasInteriorPointers }, (w.page p).live⟩ }

/-- `Page::set_retire_expire`. -/
def setRetireExpire (p : PagePtr) (cycles : ℕ) (w : Process) : Process :=
  { w with retireExpire := Function.update w.retireExpire p cycles }

/-- The header of a new page is written (`Page::init`, `Page::init_huge`, `set_owner_fresh`,
`set_provenance`). -/
def initPage (p : PagePtr) (d : PageDesc) (page : Page) (th : TheapPtr) (w : Process) : Process :=
  { w with
    page := Function.update w.page p ⟨page, ∅⟩
    desc := Function.update w.desc p d
    theap := Function.update w.theap p th
    next := Function.update w.next p none
    prev := Function.update w.prev p none
    retireExpire := Function.update w.retireExpire p 0 }

/-- A page is published: it is linked in front of its queue and counted. -/
def publish (th : TheapPtr) (b : ℕ) (p : PagePtr) (w : Process) : Process :=
  { w.pushFront th b p with pages := insert p w.pages, pagesCreated := w.pagesCreated + 1 }

/-- The address of a block of a page. -/
def blockPtr (p : PagePtr) (b : Blk) (w : Process) : Ptr :=
  ⟨(w.desc p).arena, (w.desc p).pageStart + b * (w.page p).page.blockSize⟩

end Process

/-- The id of the thread of a theap. -/
def TheapPtr.tid (th : TheapPtr) : ℕ := currentTid th.thread

/-- `page_slices_for`. -/
def pageSlicesFor (blockSize : ℕ) : ℕ :=
  if blockSize ≤ miSmallMaxObjSize then 1
  else if blockSize ≤ miMediumMaxObjSize then 8
  else 64

/-- `good_size`. -/
def goodSize (size : ℕ) : ℕ :=
  let size := max size miIntptrSize
  let b := bin size
  if miBinHuge ≤ b then alignUp size miArenaSliceSize else binBlockSize b

namespace ThreadHeap

variable (th : TheapPtr)

/-! ## Allocating -/

/-- `ThreadHeap::next_tseq`. -/
def nextTseq : Prog ProcAct ℕ := do
  let t ← fetch (·.tseq th)
  store fun w => { w with tseq := Function.update w.tseq th ((t + 1) % usizeRange) }
  return t

/-- `ThreadHeap::new_page`. -/
def newPage (b bs slices : ℕ) : Prog ProcAct (Option PagePtr) := do
  let tseq ← nextTseq th
  let eager ← fetch (·.eagerCommit)
  match ← Subproc.allocSlices slices eager tseq with
  | none => return none
  | some (i, idx, isZero) =>
    let p := PagePtr.slice i idx
    store (·.initPage p ⟨i, idx, slices, b, idx * miArenaSliceSize + Page.startOff⟩
      (Page.init slices bs th.tid isZero) th)
    if ← perform (.register i idx slices p id) then
      store (·.publish th b p)
      return some p
    else
      onArena i fun a => a.freeSlices idx slices
      return none

/-- `ThreadHeap::alloc_huge`. -/
def allocHuge (size : ℕ) : Prog ProcAct (Option Ptr) := do
  let bs := alignUp size miMaxAlignSize
  let slices := alignUp bs miArenaSliceSize / miArenaSliceSize
  let tseq ← nextTseq th
  let eager ← fetch (·.eagerCommit)
  match ← Subproc.allocSlices slices eager tseq with
  | none => return none
  | some (i, idx, isZero) =>
    match ← metaZalloc Page.sizeOf with
    | none =>
      onArena i fun a => a.freeSlices idx slices
      return none
    | some h =>
      let p := PagePtr.header h
      store (·.initPage p ⟨i, idx, slices, miBinHuge, idx * miArenaSliceSize⟩
        (Page.initHuge bs th.tid isZero) th)
      if ← perform (.register i idx slices p id) then
        store (·.publish th miBinHuge p)
        -- `Page::serve_huge`
        store fun w => { w with page := Function.update w.page p ⟨(w.page p).page.serveHuge, {0}⟩ }
        return some (← fetch (·.blockPtr p 0))
      else
        onArena i fun a => a.freeSlices idx slices
        metaFree h Page.sizeOf
        return none

/-- `ThreadHeap::collect_retired`. -/
def collectRetired (force : Bool) : Prog ProcAct Unit := do
  let lo ← fetch (·.pageRetiredMin th)
  let hi ← fetch (·.pageRetiredMax th)
  let (min, max) ← iterate (fun (b, min, max) => do
    if hi < b then return .inr (min, max)
    else
      match ← fetch (·.first th b) with
      | none => return .inl (b + 1, min, max)
      | some p =>
        let expire ← fetch (·.retireExpire p)
        if expire = 0 then return .inl (b + 1, min, max)
        else if !(← perform (.page p .isAllFree)) then
          store (·.setRetireExpire p 0)
          return .inl (b + 1, min, max)
        else
          store (·.setRetireExpire p (expire - 1))
          if expire - 1 = 0 ∨ force then
            store (·.clearDirect th p)
            store (·.remove th b p)
            releasePageSlices p
            return .inl (b + 1, min, max)
          else return .inl (b + 1, Nat.min min b, Nat.max max b)) (lo, miBinFull, 0)
  store fun w => { w with
    pageRetiredMin := Function.update w.pageRetiredMin th min
    pageRetiredMax := Function.update w.pageRetiredMax th max }
  Subproc.tryPurge false

/-- `ThreadHeap::try_reclaim`. -/
def tryReclaim (b : ℕ) : Prog ProcAct (Option PagePtr) := do
  let tseq ← nextTseq th
  match ← Subproc.reclaimPage b tseq with
  | none => return none
  | some p =>
    onPage p (Page.setOwner th.tid)
    -- `Page::mark_reused`
    perform (.page p .clearZero)
    -- `Page::set_provenance`
    store fun w => { w with
      theap := Function.update w.theap p th
      desc := Function.update w.desc p { w.desc p with bin := b } }
    onPage p Page.collect
    store (·.pushFront th b p)
    return some p

/-- The first page of a queue that is not full, from the page `cur` on. -/
def findInQueue (cur : Option PagePtr) : Prog ProcAct (Option PagePtr) :=
  iterate (fun cur =>
    match cur with
    | none => return .inr none
    | some p => do
      if ← onPage p Page.isFull then
        let next ← fetch (·.next p)
        return .inl next
      else
        if (← fetch (·.retireExpire p)) ≠ 0 then store (·.setRetireExpire p 0) else pure ()
        return .inr (some p)) cur

/-- `ThreadHeap::find_free_page`. -/
def findFreePage (b : ℕ) : Prog ProcAct (Option PagePtr) := do
  match ← findInQueue (← fetch (·.first th b)) with
  | some p => return some p
  | none => tryReclaim th b

/-- The end of `alloc_generic`: the page that has served the block goes into the direct table. -/
def serve (wsize : ℕ) (p : PagePtr) (blk : Blk) : Prog ProcAct (Option Ptr) := do
  if wsize ≤ miSmallWsizeMax then
    store (·.setDirect th wsize p)
  else pure ()
  return some (← fetch (·.blockPtr p blk))

/-- `ThreadHeap::alloc_generic`. -/
def allocGeneric (size wsize : ℕ) : Prog ProcAct (Option Ptr) :=
  let b := bin size
  if miBinHuge ≤ b then allocHuge th size
  else do
    let bs := binBlockSize b
    let pg ← findFreePage th b
    let pg ← match pg with
      | some p => pure (some p)
      | none => do
        collectRetired th false
        newPage th b bs (pageSlicesFor bs)
    match pg with
    | none => return none
    | some pg =>
      match ← onPage pg Page.alloc with
      | some blk => serve th wsize pg blk
      | none =>
        match ← newPage th b bs (pageSlicesFor bs) with
        | none => return none
        | some pg =>
          match ← onPage pg Page.alloc with
          | some blk => serve th wsize pg blk
          | none => return none

/-- `ThreadHeap::alloc`. -/
def alloc (size : ℕ) : Prog ProcAct (Option Ptr) := do
  let size := max size miIntptrSize
  let wsize := wsizeFromSize size
  if wsize ≤ miSmallWsizeMax then
    match ← fetch (·.pagesFreeDirect th wsize) with
    | some p =>
      match ← onPage p Page.alloc with
      | some b => return some (← fetch (·.blockPtr p b))
      | none => allocGeneric th size wsize
    | none => allocGeneric th size wsize
  else allocGeneric th size wsize

/-- `ThreadHeap::alloc_aligned`. -/
def allocAligned (size align : ℕ) : Prog ProcAct (Option Ptr) :=
  if align ≤ miIntptrSize then alloc th size
  else if usizeRange ≤ size + (align - 1) then return none
  else do
    match ← alloc th (size + (align - 1)) with
    | none => return none
    | some a =>
      match ← fetch (·.arenas a.arena) with
      | none => fault
      | some arena =>
        let aligned := alignUp (arena.start + a.off) align
        if aligned ≠ arena.start + a.off then
          match ← fetch (·.lookup a) with
          | none => fault
          | some p =>
            -- `Page::set_has_interior`
            store (·.setHasInterior p)
            return some ⟨a.arena, aligned - arena.start⟩
        else return some a

/-- `ThreadHeap::alloc_zeroed`. -/
def allocZeroed (size : ℕ) : Prog ProcAct (Option Ptr) := do
  match ← alloc th size with
  | none => return none
  | some a =>
    if zeroViaPageMin < size then
      match ← fetch (·.lookup a) with
      | none => fault
      | some _ => return some a
    else return some a

end ThreadHeap

/-! ## Freeing -/

/-- `retire_page`. -/
def retirePage (p : PagePtr) : Prog ProcAct Unit := do
  let th ← fetch (·.theap p)
  let b ← fetch fun w => (w.desc p).bin
  if (← fetch (·.retireExpire p)) ≠ 0 then return ()
  else
    let len ← fetch (·.count th b)
    if b ≠ miBinHuge ∧ len ≤ 1 then
      let bs ← fetch fun w => (w.page p).page.blockSize
      store (·.setRetireExpire p (if bs ≤ miSmallMaxObjSize then miRetireCycles else miRetireCycles / 4))
      store fun w => { w with
        pageRetiredMin := Function.update w.pageRetiredMin th (Nat.min (w.pageRetiredMin th) b)
        pageRetiredMax := Function.update w.pageRetiredMax th (Nat.max (w.pageRetiredMax th) b) }
      return ()
    else
      store (·.clearDirect th p)
      store (·.remove th b p)
      releasePageSlices p

/-- Use an address as a block of a page. -/
def blockAt (p : PagePtr) (a : Ptr) : Prog ProcAct Blk := do
  let d ← fetch (·.desc p)
  let bs ← fetch fun w => (w.page p).page.blockSize
  if (a.off - d.pageStart) % bs = 0 then return (a.off - d.pageStart) / bs else fault

/-- `recover_block_start`. -/
def recoverBlockStart (p : PagePtr) (a : Ptr) : Prog ProcAct Blk := do
  let d ← fetch (·.desc p)
  let bs ← fetch fun w => (w.page p).page.blockSize
  return (a.off - d.pageStart) / bs

/-- The owner's arm of `free`. -/
def freeOwned (p : PagePtr) (b : Blk) : Prog ProcAct Unit := do
  perform (.page p (.freeLocal b))
  if ← perform (.page p .isAllFree) then retirePage p

/-- `free_cold`. -/
def freeCold (a : Ptr) (p : PagePtr) (xtid : ℕ) : Prog ProcAct Unit := do
  if xtid - xtid % (miPageFlagMask + 1) = 0 then
    let b ← recoverBlockStart p a
    freeOwned p b
  else
    let b ← if xtid % (miPageFlagMask + 1) = 0 then blockAt p a else recoverBlockStart p a
    let bs ← fetch fun w => (w.page p).page.blockSize
    let bin ← fetch fun w => (w.desc p).bin
    (Page.freeMt (bs ≤ miSmallSizeMax) b).interp (handlePage p bin)

/-- `free`, by the thread `t`. -/
def free (t : ℕ) (a : Ptr) : Prog ProcAct Unit := do
  match ← fetch (·.lookup a) with
  | none => return ()
  | some p =>
    let raw ← perform (.page p .loadId)
    let xtid := currentTid t ^^^ raw
    if xtid = 0 then
      let b ← blockAt p a
      freeOwned p b
    else freeCold a p xtid

/-- `usable_size`. -/
def usableSize (a : Ptr) : Prog ProcAct ℕ := do
  match ← fetch (·.lookup a) with
  | none => return 0
  | some p =>
    let bs ← fetch fun w => (w.page p).page.blockSize
    let start ← fetch fun w => (w.desc p).pageStart
    return bs - (a.off - start) % bs

/-! ## Collecting -/

namespace ThreadHeap

variable (th : TheapPtr)

/-- What `ThreadHeap::collect` does with the queue of bin `b`, from the page `cur` on. -/
def collectQueue (force : Bool) (b : ℕ) (cur : Option PagePtr) : Prog ProcAct Unit :=
  iterate (fun cur =>
    match cur with
    | none => return .inr ()
    | some p => do
      let next ← fetch (·.next p)
      onPage p Page.collect
      if ← perform (.page p .isAllFree) then
        if force then
          store (·.clearDirect th p)
          store (·.remove th b p)
          releasePageSlices p
          return .inl next
        else
          retirePage p
          return .inl next
      else return .inl next) cur

/-- `ThreadHeap::collect`. -/
def collect (force : Bool) : Prog ProcAct Unit := do
  forEach (fun b => do collectQueue th force b (← fetch (·.first th b))) (List.range miBinCount)
  if force then
    store fun w => { w with
      pageRetiredMin := Function.update w.pageRetiredMin th miBinFull
      pageRetiredMax := Function.update w.pageRetiredMax th 0 }
  else pure ()
  Subproc.tryPurge force

/-! ## Theaps and heaps -/

/-- What `ThreadHeap::drop` does with the queue of bin `b`, from the page `cur` on. -/
def dropQueue (b : ℕ) (cur : Option PagePtr) : Prog ProcAct Unit :=
  iterate (fun cur =>
    match cur with
    | none => return .inr ()
    | some p => do
      let next ← fetch (·.next p)
      store (·.remove th b p)
      abandonOwnedPage p b
      store fun w => if p ∈ w.pages then { w with log := .abandoned p :: w.log } else w
      return .inl next) cur

/-- `ThreadHeap::drop`. -/
def drop : Prog ProcAct Unit :=
  forEach (fun b => do dropQueue th b (← fetch (·.first th b))) (List.range miBinCount)

/-- What `teardown_theap_bulk` does with the queue of bin `b`, from the page `cur` on. -/
def bulkQueue (b : ℕ) (cur : Option PagePtr) : Prog ProcAct Unit :=
  iterate (fun cur =>
    match cur with
    | none => return .inr ()
    | some p => do
      let next ← fetch (·.next p)
      store (·.remove th b p)
      releasePageSlices p
      return .inl next) cur

/-- `teardown_theap_bulk`. -/
def teardownBulk : Prog ProcAct Unit :=
  forEach (fun b => do bulkQueue th b (← fetch (·.first th b))) (List.range miBinCount)

end ThreadHeap

/-- `ThreadHeap::new`. -/
def Process.newTheap (th : TheapPtr) (w : Process) : Process :=
  { w with
    tseq := Function.update w.tseq th 0
    first := Function.update w.first th fun _ => none
    last := Function.update w.last th fun _ => none
    count := Function.update w.count th fun _ => 0
    pagesFreeDirect := Function.update w.pagesFreeDirect th fun _ => none
    pageRetiredMin := Function.update w.pageRetiredMin th miBinFull
    pageRetiredMax := Function.update w.pageRetiredMax th 0
    theaps := Function.update w.theaps th.thread (th.heap :: w.theaps th.thread) }

/-- `Heap::current_theap` of the heap `h`, on thread `t`: the theap of the default heap is there, any
other is made on first use. -/
def currentTheap (t h : ℕ) : Prog ProcAct (Option TheapPtr) :=
  if h = 0 then return some ⟨t, h⟩
  else do
    if h ∈ (← fetch (·.theaps t)) then return some ⟨t, h⟩
    else if ← perform (.zalloc id) then
      store (·.newTheap ⟨t, h⟩)
      return some ⟨t, h⟩
    else return none

/-- A thread's theap for a heap is torn down in the way `f`, if it has one (`take_theap_for`). -/
def withTakenTheap (t h : ℕ) (f : TheapPtr → Prog ProcAct Unit) : Prog ProcAct Unit := do
  if h ∈ (← fetch (·.theaps t)) then
    store fun w => { w with theaps := Function.update w.theaps t ((w.theaps t).erase h) }
    f ⟨t, h⟩
  else return ()

/-- `Heap::delete`, on thread `t`. -/
def deleteHeap (t h : ℕ) : Prog ProcAct Unit := withTakenTheap t h ThreadHeap.drop

/-- `Heap::destroy`, on thread `t`. -/
def destroyHeap (t h : ℕ) : Prog ProcAct Unit := withTakenTheap t h ThreadHeap.teardownBulk

/-- `Registry::drop`. -/
def dropRegistry (t : ℕ) : Prog ProcAct Unit := do
  let hs ← fetch (·.theaps t)
  store fun w => { w with theaps := Function.update w.theaps t [] }
  forEach (fun h => ThreadHeap.drop ⟨t, h⟩) hs

/-- A thread exits: its two thread-locals are dropped, in an order that the platform chooses. -/
def exitThread (t : ℕ) (registryFirst : Bool) : Prog ProcAct Unit :=
  if registryFirst then do
    dropRegistry t
    ThreadHeap.drop ⟨t, 0⟩
  else do
    ThreadHeap.drop ⟨t, 0⟩
    dropRegistry t

/-! ## Reallocating -/

/-- `realloc`, on thread `t`. -/
def realloc (t : ℕ) (a : Ptr) (newSize : ℕ) : Prog ProcAct (Option Ptr) := do
  let old ← usableSize a
  if newSize ≤ old then return some a
  else
    match ← ThreadHeap.alloc ⟨t, 0⟩ newSize with
    | none => return none
    | some np =>
      free t a
      return some np

/-- `realloc_aligned`, on thread `t`. -/
def reallocAligned (t : ℕ) (a : Ptr) (newSize align : ℕ) : Prog ProcAct (Option Ptr) := do
  let _ ← usableSize a
  match ← ThreadHeap.allocAligned ⟨t, 0⟩ newSize align with
  | none => return none
  | some np =>
    free t a
    return some np

end MimallocRs
