import MimallocRs.Heap.Prog
import MimallocRs.Foundations.Interleave.System
import Mathlib.Data.Prod.Basic

/-!
# Heaps and theaps shared by any number of threads

`HeapMem` is the metadata memory with the heaps and theaps in it, the registries of the threads,
and a history that no program reads: which handles may still be used and by whom they are being
used, which heaps have been given up and freed, and which theaps have been torn down. A heap is
identified by its sequence number, a theap by a serial number, whatever their addresses.

In `heapSystem` any number of threads create heaps, allocate through their handles, and exit; a
handle is given to one `delete` or `destroy`, which starts when it is not in use, and it is not used
afterwards. The metadata allocator returns any address that is not in use, or fails.
-/

namespace MimallocRs

open Interleave

/-- A `Heap`. -/
structure HeapRec where
  heapSeq : ℕ
  theaps : Option Addr
  refcount : ℕ
  deriving DecidableEq

/-- A `ThreadHeap`: what is written once. -/
structure TheapRec where
  /-- The owning thread. -/
  tid : ℕ
  /-- The owning heap. -/
  heap : Addr
  /-- History: the sequence number of that heap. -/
  seq : ℕ
  /-- History: the serial number of the theap. -/
  serial : ℕ
  deriving DecidableEq

/-- The metadata memory, the registries, and their history. -/
structure HeapMem where
  heap : Addr → Option HeapRec
  theap : Addr → Option TheapRec
  hnext : Addr → Option Addr
  hprev : Addr → Option Addr
  linked : Addr → Bool
  tnext : Addr → Option Addr
  /-- The head of a thread's registry. -/
  registry : ℕ → Option Addr
  /-- The thread's registry has been dropped, or is being dropped. -/
  exited : ℕ → Bool
  /-- `next_heap_seq`. -/
  nextSeq : ℕ
  /-- History: a block has been used that is not allocated as what it is used. -/
  fault : Bool
  /-- History: the handles that may be used. -/
  handles : List Addr
  /-- History: the handles in use, and by which threads. -/
  busy : List (ℕ × Addr)
  /-- History: the heaps that have been passed to `delete` or `destroy`. -/
  deleted : List ℕ
  /-- History: the heaps that have been freed. -/
  freed : List ℕ
  /-- History: the theaps created so far. -/
  serials : ℕ
  /-- History: the thread and the heap of a theap. -/
  maker : ℕ → ℕ × ℕ
  /-- History: the theaps that have been torn down. -/
  torn : List ℕ

namespace HeapMem

/-- No block is allocated. -/
def init : HeapMem where
  heap _ := none
  theap _ := none
  hnext _ := none
  hprev _ := none
  linked _ := false
  tnext _ := none
  registry _ := none
  exited _ := false
  nextSeq := 1
  fault := false
  handles := []
  busy := []
  deleted := []
  freed := []
  serials := 0
  maker _ := (0, 0)
  torn := []

/-- The address is not in use. -/
def Vacant (m : HeapMem) (a : Addr) : Prop := m.heap a = none ∧ m.theap a = none

instance (m : HeapMem) (a : Addr) : Decidable (m.Vacant a) := inferInstanceAs (Decidable (_ ∧ _))

/-- The block that `meta_zalloc` returns under a choice. -/
def metaZalloc (m : HeapMem) : ℕ → Option Addr
  | 0 => none
  | a + 1 => if m.Vacant a then some a else none

/-- A block is used that is not allocated as what it is used. -/
def bad (m : HeapMem) : HeapMem := { m with fault := true }

/-- The new heap at `a`. -/
def addHeap (m : HeapMem) (a : Addr) : HeapMem :=
  { m with
    heap := Function.update m.heap a (some ⟨m.nextSeq, none, 1⟩)
    nextSeq := m.nextSeq + 1 }

/-- The new theap of the thread `t` at `a`, of the heap at `hp`. -/
def addTheap (m : HeapMem) (t : ℕ) (hp a : Addr) (r : HeapRec) : HeapMem :=
  { m with
    theap := Function.update m.theap a (some ⟨t, hp, r.heapSeq, m.serials⟩)
    hnext := Function.update m.hnext a none
    hprev := Function.update m.hprev a none
    linked := Function.update m.linked a false
    tnext := Function.update m.tnext a none
    serials := m.serials + 1
    maker := Function.update m.maker m.serials (t, r.heapSeq) }

/-- The theap `tp` is put at the head of the list of its heap. -/
def pushTheap (m : HeapMem) (hp tp : Addr) (r : HeapRec) : HeapMem :=
  { m with
    heap := Function.update m.heap hp (some { r with theaps := some tp })
    hnext := Function.update m.hnext tp r.theaps
    hprev := r.theaps.elim (Function.update m.hprev tp none) fun head =>
      Function.update (Function.update m.hprev tp none) head (some tp)
    linked := Function.update m.linked tp true }

/-- The theap `tp` is taken off the list of its heap. -/
def unlinkTheap (m : HeapMem) (hp tp : Addr) (r : HeapRec) : HeapMem :=
  { m with
    heap := Function.update m.heap hp
      (some { r with theaps := (m.hprev tp).elim (m.hnext tp) fun _ => r.theaps })
    hnext := Function.update ((m.hprev tp).elim m.hnext fun prev =>
      Function.update m.hnext prev (m.hnext tp)) tp none
    hprev := Function.update ((m.hnext tp).elim m.hprev fun next =>
      Function.update m.hprev next (m.hprev tp)) tp none
    linked := Function.update m.linked tp false }

/-- The reference count of a heap is set. -/
def setCount (m : HeapMem) (hp : Addr) (r : HeapRec) (n : ℕ) : HeapMem :=
  { m with heap := Function.update m.heap hp (some { r with refcount := n }) }

/-- The events on heaps, theaps and the registry of the thread `t`. -/
def exec {β : Type} (t : ℕ) (e : HeapAct β) (m : HeapMem) (choice : ℕ) : Option (β × HeapMem) :=
  match e with
  | .newHeap k =>
    match m.metaZalloc choice with
    | none => some (k none, m)
    | some a => some (k (some a), m.addHeap a)
  | .newTheap hp k =>
    match m.metaZalloc choice, m.heap hp with
    | none, _ => some (k none, m)
    | some a, some r => some (k (some a), m.addTheap t hp a r)
    | some _, none => some (k none, m.bad)
  | .fetchAdd hp k =>
    match m.heap hp with
    | some r => some (k (), m.setCount hp r (r.refcount + 1))
    | none => some (k (), m.bad)
  | .fetchSub hp k =>
    match m.heap hp with
    | some r => some (k r.refcount, m.setCount hp r (r.refcount - 1))
    | none => some (k 0, m.bad)
  | .registerTheap hp tp k =>
    match m.heap hp, m.theap tp with
    | some r, some _ => some (k (), m.pushTheap hp tp r)
    | _, _ => some (k (), m.bad)
  | .unregisterTheap hp tp k =>
    match m.heap hp, m.theap tp with
    | some r, some _ => some (k (), if m.linked tp then m.unlinkTheap hp tp r else m)
    | _, _ => some (k (), m.bad)
  | .linked tp k =>
    match m.theap tp with
    | some _ => some (k (m.linked tp), m)
    | none => some (k false, m.bad)
  | .owningHeap tp k =>
    match m.theap tp with
    | some r => some (k r.heap, m)
    | none => some (k 0, m.bad)
  | .tnext tp k =>
    match m.theap tp with
    | some _ => some (k (m.tnext tp), m)
    | none => some (k none, m.bad)
  | .setTnext tp next k =>
    match m.theap tp with
    | some _ => some (k (), { m with tnext := Function.update m.tnext tp next })
    | none => some (k (), m.bad)
  | .freeHeap hp k =>
    match m.heap hp with
    | some r =>
      some (k (), { m with heap := Function.update m.heap hp none, freed := r.heapSeq :: m.freed })
    | none => some (k (), m.bad)
  | .freeTheap tp k =>
    match m.theap tp with
    | some r =>
      some (k (), { m with theap := Function.update m.theap tp none, torn := r.serial :: m.torn })
    | none => some (k (), m.bad)
  | .tryWith k => some (k (!m.exited t), m)
  | .registry k => some (k (m.registry t), m)
  | .setRegistry head k =>
    some (k (), { m with registry := Function.update m.registry t head })

/-- Thread `t` uses the handle of the heap at `hp`. -/
def use (m : HeapMem) (t : ℕ) (hp : Addr) : Option HeapMem :=
  if hp ∈ m.handles then some { m with busy := (t, hp) :: m.busy } else none

/-- The handle of the heap at `hp` is given to `delete` or `destroy`. -/
def giveUp (m : HeapMem) (hp : Addr) : Option HeapMem :=
  match m.heap hp with
  | some r =>
    if hp ∈ m.handles ∧ ∀ x ∈ m.busy, x.2 ≠ hp then
      some { m with handles := m.handles.erase hp, deleted := r.heapSeq :: m.deleted }
    else none
  | none => none

end HeapMem

/-- The operations on heaps. -/
inductive HeapOp
  | newBoxed | alloc (hp : Addr) | delete (hp : Addr) | destroy (hp : Addr) | exit
  deriving DecidableEq

/-- What the operations return; an allocation, the theap that serves it. -/
abbrev HeapOp.Res : HeapOp → Type
  | .newBoxed | .alloc _ => Option Addr
  | .delete _ | .destroy _ | .exit => Unit

/-- What the return of an operation records. -/
def HeapOp.finish (t : ℕ) : (o : HeapOp) → o.Res → HeapMem → HeapMem
  | .newBoxed, some hp, m => { m with handles := hp :: m.handles }
  | .alloc hp, _, m => { m with busy := m.busy.erase (t, hp) }
  | _, _, m => m

/-- The operations on heaps, by any number of threads. -/
def heapSystem : System HeapAct ℕ HeapOp HeapOp.Res HeapMem where
  exec t e m choice := m.exec t e choice
  prog
    | _, .newBoxed => Heap.newBoxed
    | _, .alloc hp => Heap.theapFor hp
    | _, .delete hp => Heap.delete hp
    | _, .destroy hp => Heap.destroy hp
    | _, .exit => Heap.dropRegistry
  start
    | _, .newBoxed, m => some m
    | t, .alloc hp, m => m.use t hp
    | _, .delete hp, m | _, .destroy hp, m => m.giveUp hp
    | t, .exit, m =>
      if m.exited t then none else some { m with exited := Function.update m.exited t true }
  finish t o r m := o.finish t r m

end MimallocRs
