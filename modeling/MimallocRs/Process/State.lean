import MimallocRs.Client.Prog
import MimallocRs.Meta.Prog
import MimallocRs.Page.Alone
import MimallocRs.Foundations.Interleave.Handle

/-!
# The state of a process

The sub-process with its arenas, the metadata allocator, the page map, the pages, and the theaps of
all threads. Whole operations run one after the other on it, so that a page is in the hands of one
call at a time (`Page/Alone.lean`). An arena is named by its place in the registry of the
sub-process, and an address by an arena and an offset into the region of that arena: the operating
system gives out regions that do not overlap. The header of a page is at its first slice, that of a
huge page in a metadata block.

The programs access the cells of theaps and the links of pages by `fetch` and `store`; all other
events are those of the modules below. What the allocator does for its statistics and with the
contents of blocks is left out, and so is the reference counting of heaps (`Heap/Prog.lean`).
-/

namespace MimallocRs

open Interleave Prog

/-- A thread-local heap, by its thread and its heap. Heap 0 is the default heap. -/
structure TheapPtr where
  thread : ℕ
  heap : ℕ
  deriving DecidableEq

/-- A page, by the place of its header: the first slice of the page, or a metadata block. -/
inductive PagePtr
  | slice (arena idx : ℕ)
  | header (p : ℕ)
  deriving DecidableEq

/-- An address in the region of an arena. -/
structure Ptr where
  arena : ℕ
  off : ℕ
  deriving DecidableEq

/-- The fields of a page header that say where the page lies and which bin it serves. -/
structure PageDesc where
  arena : ℕ
  sliceIndex : ℕ
  sliceCount : ℕ
  bin : ℕ
  /-- The offset of `page_start` in the region of the arena. -/
  pageStart : ℕ
  deriving DecidableEq

/-- What has happened to a page. -/
inductive PageEvent
  /-- Its theap has handed it off. -/
  | abandoned (p : PagePtr)
  /-- `reclaim_page` has returned it. -/
  | reclaimed (p : PagePtr)
  deriving DecidableEq

/-- The page that the event is about. -/
def PageEvent.page : PageEvent → PagePtr
  | .abandoned p | .reclaimed p => p

/-- The state of a process. -/
structure Process where
  metadata : MetaMem
  /-- `options::eager_commit`. -/
  eagerCommit : Bool
  /-- `Subproc::arenas`. -/
  arenas : ℕ → Option Arena
  arenaCount : ℕ
  allocCursor : ℕ
  /-- The bitmaps of each arena. -/
  arenaMem : ℕ → ArenaMem
  /-- `abandoned_base` is not null. -/
  abandonedBase : ℕ → Bool
  /-- The abandoned registry of each arena, by bin. -/
  pagesAbandoned : ℕ → ℕ → Words
  /-- The page map, by arena and slice. -/
  pageMap : ℕ → ℕ → Option PagePtr
  page : PagePtr → LivePage
  desc : PagePtr → PageDesc
  theap : PagePtr → TheapPtr
  next : PagePtr → Option PagePtr
  prev : PagePtr → Option PagePtr
  retireExpire : PagePtr → ℕ
  /-- The queue of each theap and bin: its first and last page and its length. -/
  first : TheapPtr → ℕ → Option PagePtr
  last : TheapPtr → ℕ → Option PagePtr
  count : TheapPtr → ℕ → ℕ
  pagesFreeDirect : TheapPtr → ℕ → Option PagePtr
  pageRetiredMin : TheapPtr → ℕ
  pageRetiredMax : TheapPtr → ℕ
  tseq : TheapPtr → ℕ
  /-- The heaps for which a thread has a theap in its registry. -/
  theaps : ℕ → List ℕ
  /-- The pages that are registered in the page map. -/
  pages : Finset PagePtr
  /-- `stats::on_page_created`: how many pages have been carved. -/
  pagesCreated : ℕ
  /-- History: an abandoned registry could not be mapped. -/
  registryRefused : Bool
  /-- History: what has happened to pages, last event first. -/
  log : List PageEvent
  /-- History: the pointers handed out and not freed, with the heaps they were allocated from. -/
  given : Ptr → Option ℕ
  /-- History: the first-class heaps that have been neither deleted nor destroyed. -/
  heaps : Finset ℕ
  /-- The next `heap_seq`. -/
  heapSeq : ℕ
  /-- History: the threads that have exited. -/
  exited : Finset ℕ

/-- The events of a process. -/
inductive ProcAct (β : Type) : Type
  /-- Read cells. -/
  | fetch (f : Process → β)
  /-- Write cells. -/
  | store (f : Process → Process) (answer : Unit → β)
  /-- An event on the metadata allocator. -/
  | metadata (e : MetaAct β)
  /-- An event on the bitmaps of an arena. -/
  | arena (i : ℕ) (e : ArenaAct β)
  /-- An event on the abandoned registry of an arena for one bin. -/
  | registry (i bin : ℕ) (e : BitAct β)
  /-- An event on a page. -/
  | page (p : PagePtr) (e : PageAct β)
  /-- `os::alloc` of the abandoned registry of an arena. -/
  | mapRegistry (i : ℕ) (answer : Bool → β)
  /-- `page_map::register` of `n` slices of an arena. -/
  | register (i idx n : ℕ) (p : PagePtr) (answer : Bool → β)
  /-- `meta_zalloc` of a heap or a theap: whether it succeeded. -/
  | zalloc (answer : Bool → β)
  /-- A null pointer or one into no block is used. -/
  | fault

namespace Process

/-- `n` slices of an arena are mapped. -/
def mapSlices (w : Process) (i idx n : ℕ) (p : Option PagePtr) : Process :=
  { w with pageMap := Function.update w.pageMap i fun j =>
      if idx ≤ j ∧ j < idx + n then p else w.pageMap i j }

/-- `page_map::lookup`. -/
def lookup (w : Process) (a : Ptr) : Option PagePtr := w.pageMap a.arena (a.off / miArenaSliceSize)

/-- The abandoned registry of an arena for one bin has been changed. -/
def withRegistry (w : Process) (i bin : ℕ) (words : Words) : Process :=
  { w with pagesAbandoned :=
      Function.update w.pagesAbandoned i (Function.update (w.pagesAbandoned i) bin words) }

/-- The events of a process. At choice 0 the operating system refuses, if it may. -/
def exec {β : Type} (refuses : Bool) (e : ProcAct β) (w : Process) (choice : ℕ) :
    Option (β × Process) :=
  match e with
  | .fetch f => some (f w, w)
  | .store f k => some (k (), f w)
  | .metadata e => (w.metadata.exec refuses e choice).map fun r => (r.1, { w with metadata := r.2 })
  | .arena i e =>
    (w.arenas i).bind fun a =>
      ((w.arenaMem i).exec a.chunkCount e (if refuses then choice else 0)).map fun r =>
        (r.1, { w with arenaMem := Function.update w.arenaMem i r.2 })
  | .registry i bin e =>
    (w.arenas i).bind fun a =>
      (wordExec a.chunkCount e (w.pagesAbandoned i bin)).map fun r =>
        (r.1, w.withRegistry i bin r.2)
  | .page p e => ((w.page p).exec e).map fun r => (r.1, { w with page := Function.update w.page p r.2 })
  | .mapRegistry i k =>
    if refuses ∧ choice = 0 then some (k false, { w with registryRefused := true })
    else some (k true, { w with
      abandonedBase := Function.update w.abandonedBase i true
      pagesAbandoned := Function.update w.pagesAbandoned i fun _ _ => 0#64 })
  | .register i idx n p k =>
    if refuses ∧ choice = 0 then some (k false, w) else some (k true, w.mapSlices i idx n (some p))
  | .zalloc k => if refuses ∧ choice = 0 then some (k false, w) else some (k true, w)
  | .fault => none

end Process

/-- The events of a process, under an operating system that may refuse or never does. -/
def processMachine (refuses : Bool) : Machine ProcAct Unit Process where
  exec _ e w choice := w.exec refuses e choice

/-! ## Accessing the state -/

/-- Read cells. -/
def fetch {β : Type} (f : Process → β) : Prog ProcAct β := perform (.fetch f)

/-- Write cells. -/
def store (f : Process → Process) : Prog ProcAct Unit := perform (.store f id)

/-- A null pointer or one into no block is used. -/
def fault {α : Type} : Prog ProcAct α := perform .fault

/-- A program on one page. -/
def onPage {α : Type} (p : PagePtr) (q : Prog PageAct α) : Prog ProcAct α := q.hoist (.page p)

/-- A program on one of the arenas. -/
def onArena {α : Type} (i : ℕ) (q : Arena → Prog ArenaAct α) : Prog ProcAct α := do
  match ← fetch (·.arenas i) with
  | some a => (q a).hoist (.arena i)
  | none => fault

/-- A program on the metadata allocator. -/
def onMetadata {α : Type} (q : Prog MetaAct α) : Prog ProcAct α := q.hoist .metadata

namespace Process

/-- Requests are noted as served by metadata blocks. -/
def hold (w : Process) (l : List (ℕ × ℕ)) : Process :=
  { w with metadata := { w.metadata with live := l ++ w.metadata.live } }

/-- Requests are noted as given back. -/
def unhold (w : Process) (l : List (ℕ × ℕ)) : Process :=
  { w with metadata := { w.metadata with live := w.metadata.live.diff l } }

end Process

/-- `meta_zalloc`. -/
def metaZalloc (size : ℕ) : Prog ProcAct (Option ℕ) := do
  match ← onMetadata (Meta.metaZalloc size) with
  | none => return none
  | some p =>
    store (·.hold [(p, size)])
    return some p

/-- `meta_free`. -/
def metaFree (p size : ℕ) : Prog ProcAct Unit := do
  store (·.unhold [(p, size)])
  onMetadata (Meta.metaFree p size)

end MimallocRs
