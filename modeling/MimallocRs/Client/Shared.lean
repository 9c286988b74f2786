import MimallocRs.Client.Prog
import MimallocRs.Page.Shared

/-!
# A page and the memory of its blocks, used by any number of threads

`ClientMem` is the shared page of `Page/Shared.lean` together with the bytes of the address space
and a history of the pointers that have been handed out. The events of the page write the link words
of the blocks they link (`PageAct.links`) into the bytes. Threads are numbered in the order in which
they ask for their ids.

`clientSystem` runs the allocator's operations on the page. Its owner allocates, for requests of the
page's size class, and sweeps; any thread frees a pointer that has been handed out, writes into its
block, or tries to reclaim the page. A huge page is created with its block handed out, by the one
request that created it.
-/

namespace MimallocRs

open Interleave

/-- The blocks whose link an event writes. -/
def PageAct.links {β : Type} (e : PageAct β) (p : Page) (b : Blk) : Bool :=
  match e with
  | .setNext c _ => b = c
  | .splice tf => b = tf
  | .freeLocal c => b = c
  | .adoptLocal =>
    match p.localFree, p.free with
    | some lf, some _ => b = lastOf p.next p.capacity lf
    | _, _ => false
  | .extendFree => p.capacity ≤ b ∧ b < p.extendFree.capacity
  | .collectBehind head =>
    match p.next head with
    | some c => b = head ∨ b = lastOf (Function.update p.next head none) p.capacity c
    | none => false
  | _ => false

/-- The bytes after links have been written to the blocks `links`. -/
def Area.writeLinks (ar : Area) (links : Blk → Bool) (next : Blk → Option Blk)
    (bytes : ℕ → BitVec 8) : ℕ → BitVec 8 := fun a =>
  let b := ar.blockOf a
  if ar.blockStart b ≤ a ∧ a < ar.blockStart b + miIntptrSize ∧ links b then
    byteOf (ar.linkWord (next b)) (a - ar.blockStart b)
  else bytes a

/-- A page, the bytes of the address space, and the history of its pointers. -/
structure ClientMem where
  shared : Shared ℕ
  bytes : ℕ → BitVec 8
  /-- History: an address off the grid of blocks has been used as a block. -/
  fault : Bool
  /-- History: the pointer that a call has returned for a block, until it is passed to `free`. -/
  ptr : Blk → Option ℕ
  /-- The block of this huge page has been served, and not yet returned by the call. -/
  unserved : Bool

namespace ClientMem

variable (ar : Area)

/-- The owner id of the page, without flags. -/
def ownerId (m : ClientMem) : ℕ :=
  m.shared.page.xthreadId - m.shared.page.xthreadId % (miPageFlagMask + 1)

/-- The flag of interior pointers is set. -/
def HasInterior (m : ClientMem) : Prop := m.shared.page.xthreadId.testBit 1 = true

/-- The events on a page and its blocks. -/
def exec {β : Type} (t : ℕ) (e : ClientAct β) (m : ClientMem) (choice : ℕ) :
    Option (β × ClientMem) :=
  match e with
  | .page e => (m.shared.exec t e choice).map fun r =>
      (r.1, { m with
        shared := r.2
        bytes := ar.writeLinks (e.links m.shared.page) r.2.page.next m.bytes })
  | .lookup a k => some (k (!m.shared.released && ar.Mapped a), m)
  | .setHasInterior k =>
    some (k (), { m with shared := { m.shared with page := { m.shared.page with
      xthreadId := m.shared.page.xthreadId ||| miPageHasInteriorPointers } } })
  | .freeIsZero k => some (k m.shared.page.freeIsZero, m)
  | .writeZero a n k =>
    some (k (), { m with bytes := fun x => if a ≤ x ∧ x < a + n then 0 else m.bytes x })
  | .keeps k => some (k (choice = 0), m)
  | .offGrid k => some (k (), { m with fault := true })

/-- Thread `t` asks the page for `size` bytes. -/
def request (m : ClientMem) (t size : ℕ) : Option ClientMem :=
  if size < usizeRange ∧ ar.Serves (max size miIntptrSize) ∧
      (ar.huge = true → m.unserved = true) then
    (m.shared.asOwner t).map fun s => { m with shared := s, unserved := false }
  else none

/-- The pointer `p` has been handed out. -/
def handOut (m : ClientMem) (p : ℕ) : ClientMem :=
  { m with ptr := Function.update m.ptr (ar.blockOf p) (some p) }

/-- Thread `t` passes the pointer `p` to `free`. -/
def take (m : ClientMem) (t p : ℕ) : Option ClientMem :=
  if m.ptr (ar.blockOf p) = some p then
    (m.shared.take t (ar.blockOf p)).map fun s =>
      { m with shared := s, ptr := Function.update m.ptr (ar.blockOf p) none }
  else none

/-- A user writes into the block of a pointer. -/
def userWrite (m : ClientMem) (b : Blk) (content : ℕ → BitVec 8) : Option ClientMem :=
  if m.ptr b ≠ none then
    some { m with bytes := fun a =>
      if ar.blockStart b ≤ a ∧ a < ar.blockStart b + ar.blockSize then content a else m.bytes a }
  else none

/-- A fresh page of thread `o`. Its memory is zero if the arena says so. -/
inductive Init : ClientMem → Prop
  | small (o : ℕ) (isZero : Bool) (bytes : ℕ → BitVec 8) (hhuge : ar.huge = false)
    (hzero : isZero = true → ∀ a, ar.Mapped a → bytes a = 0) :
    Init ⟨.fresh o (Page.init ar.sliceCount ar.blockSize (currentTid o) isZero) [], bytes, false,
      fun _ => none, false⟩
  | huge (o : ℕ) (isZero : Bool) (bytes : ℕ → BitVec 8) (hhuge : ar.huge = true)
    (hzero : isZero = true → ∀ a, ar.Mapped a → bytes a = 0) :
    Init ⟨.fresh o (Page.initHuge ar.blockSize (currentTid o) isZero).serveHuge [0], bytes, false,
      fun _ => none, true⟩

end ClientMem

/-- The operations on a page. -/
inductive ClientOp
  | alloc (size : ℕ) | allocAligned (size align : ℕ)
  | allocZeroed (size : ℕ) | allocZeroedAligned (size align : ℕ)
  | free (p : ℕ) | write (b : Blk) (content : ℕ → BitVec 8)
  | isFull | collect | collectRetired | exit | reclaim

/-- What the operations return. -/
abbrev ClientOp.Res : ClientOp → Type
  | .alloc _ | .allocAligned .. | .allocZeroed _ | .allocZeroedAligned .. => Option ℕ
  | .free _ | .write .. | .collect | .collectRetired | .exit => Unit
  | .isFull | .reclaim => Bool

variable (ar : Area)

/-- The events on a page and its blocks. -/
def clientMachine : Machine ClientAct ℕ ClientMem where
  exec t e m choice := m.exec ar t e choice

/-- What the return of an operation hands out. -/
def ClientOp.finish (t : ℕ) : (o : ClientOp) → o.Res → ClientMem → ClientMem
  | .alloc _, some p, m | .allocAligned .., some p, m | .allocZeroed _, some p, m
  | .allocZeroedAligned .., some p, m => m.handOut ar p
  | .reclaim, true, m => { m with shared := m.shared.report t }
  | _, _, m => m

/-- The operations of any number of threads on a page. -/
def clientSystem : System ClientAct ℕ ClientOp ClientOp.Res ClientMem where
  toMachine := clientMachine ar
  prog
    | _, .alloc _ => Client.alloc ar
    | _, .allocAligned size align => Client.allocAligned ar size align
    | _, .allocZeroed size => Client.allocZeroed ar size
    | _, .allocZeroedAligned size align => Client.allocZeroedAligned ar size align
    | t, .free p => Client.free ar (currentTid t) p
    | _, .write _ _ => return ()
    | _, .isFull => Client.onPage Page.isFull
    | _, .collect => Client.collect
    | _, .collectRetired => Client.collectRetired
    | _, .exit => Client.onPage Page.abandonOwnedPage
    | t, .reclaim => Client.onPage (Page.reclaim (currentTid t))
  start
    | t, .alloc size, m | t, .allocZeroed size, m => m.request ar t size
    | t, .allocAligned size align, m | t, .allocZeroedAligned size align, m =>
      if align.isPowerOfTwo then m.request ar t (Client.requestOf size align) else none
    | t, .free p, m => m.take ar t p
    | _, .write b content, m => m.userWrite ar b content
    | t, .isFull, m | t, .collect, m | t, .collectRetired, m | t, .exit, m =>
      (m.shared.asOwner t).map fun s => { m with shared := s }
    | _, .reclaim, m => if m.shared.released then none else some m
  finish t o r m := o.finish ar t r m

end MimallocRs
