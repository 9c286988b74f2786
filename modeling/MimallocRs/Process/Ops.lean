import MimallocRs.Process.Prog

/-!
# Whole operations

The operations of an allocator that its clients call, on any number of threads: each is completed
before the next one starts. A pointer is freed or reallocated by a client that has been given it, a
first-class heap is used until it is deleted or destroyed, and a thread until it exits. The blocks of
a destroyed heap, and those of pages that have gone with it, are not used afterwards. Between
operations time passes.
-/

namespace MimallocRs

open Interleave Prog

/-- The operations. -/
inductive ProcOp
  | alloc (t h size : ℕ) | allocAligned (t h size align : ℕ) | allocZeroed (t h size : ℕ)
  | free (t : ℕ) (a : Ptr) | realloc (t : ℕ) (a : Ptr) (newSize : ℕ)
  | reallocAligned (t : ℕ) (a : Ptr) (newSize align : ℕ)
  | collect (t h : ℕ) (force : Bool) | collectRetired (t h : ℕ) (force : Bool)
  | reclaim (t h bin : ℕ)
  | newHeap | deleteHeap (t h : ℕ) | destroyHeap (t h : ℕ)
  | exit (t : ℕ) (registryFirst : Bool)
  | pass (msecs : ℕ)
  deriving DecidableEq

/-- What the operations return. -/
abbrev ProcOp.Res : ProcOp → Type
  | .alloc .. | .allocAligned .. | .allocZeroed .. | .realloc .. | .reallocAligned .. => Option Ptr
  | .reclaim .. => Option PagePtr
  | .newHeap => Option ℕ
  | .free .. | .collect .. | .collectRetired .. | .deleteHeap .. | .destroyHeap .. | .exit ..
  | .pass _ => Unit

/-- A function of the calling thread's theap for a heap. -/
def withTheap {α : Type} (t h : ℕ) (f : TheapPtr → Prog ProcAct (Option α)) :
    Prog ProcAct (Option α) := do
  match ← currentTheap t h with
  | none => return none
  | some th => f th

/-- `Heap::new_boxed`. -/
def newHeap : Prog ProcAct (Option ℕ) := do
  if ← perform (.zalloc id) then
    let seq ← fetch (·.heapSeq)
    store fun w => { w with heapSeq := seq + 1, heaps := insert seq w.heaps }
    return some seq
  else return none

namespace Process

/-- Time passes. -/
def pass (msecs : ℕ) (w : Process) : Process :=
  { w with
    arenaMem := fun i => { w.arenaMem i with now := (w.arenaMem i).now + msecs }
    metadata := { w.metadata with new :=
      { w.metadata.new with now := w.metadata.new.now + msecs } } }

/-- A thread runs and may use a heap. -/
def Usable (w : Process) (t h : ℕ) : Prop := t ∉ w.exited ∧ (h = 0 ∨ h ∈ w.heaps)

/-- A thread runs and has a theap for a heap. -/
def HasTheap (w : Process) (t h : ℕ) : Prop := t ∉ w.exited ∧ (h = 0 ∨ h ∈ w.theaps t)

instance (w : Process) (t h : ℕ) : Decidable (w.Usable t h) := inferInstanceAs (Decidable (_ ∧ _))

instance (w : Process) (t h : ℕ) : Decidable (w.HasTheap t h) := inferInstanceAs (Decidable (_ ∧ _))

/-- An alignment. -/
def PowerOfTwo (align : ℕ) : Prop := align = 2 ^ Nat.log2 align

instance (align : ℕ) : Decidable (PowerOfTwo align) := inferInstanceAs (Decidable (_ = _))

/-- The state after an operation has been started, if it may be. -/
def start (w : Process) : ProcOp → Option Process
  | .alloc t h size | .allocZeroed t h size =>
    if w.Usable t h ∧ size < usizeRange then some w else none
  | .allocAligned t h size align =>
    if w.Usable t h ∧ size < usizeRange ∧ PowerOfTwo align ∧ align < usizeRange then some w else none
  | .free t a =>
    if t ∉ w.exited ∧ (w.given a).isSome then some { w with given := Function.update w.given a none }
    else none
  | .realloc t a newSize =>
    if t ∉ w.exited ∧ (w.given a).isSome ∧ newSize < usizeRange then some w else none
  | .reallocAligned t a newSize align =>
    if t ∉ w.exited ∧ (w.given a).isSome ∧ newSize < usizeRange ∧ PowerOfTwo align ∧
      align < usizeRange then some w else none
  | .collect t h _ => if w.Usable t h then some w else none
  | .collectRetired t h _ | .reclaim t h _ => if w.HasTheap t h then some w else none
  | .newHeap => some w
  | .deleteHeap t h | .destroyHeap t h =>
    if t ∉ w.exited ∧ h ∈ w.heaps then some { w with heaps := w.heaps.erase h } else none
  | .exit t _ => if t ∉ w.exited then some { w with exited := insert t w.exited } else none
  | .pass msecs => some (w.pass msecs)

/-- The state after an operation has returned. -/
def finish (w : Process) : (o : ProcOp) → o.Res → Process
  | .alloc _ h _, some a | .allocAligned _ h _ _, some a | .allocZeroed _ h _, some a =>
    { w with given := Function.update w.given a (some h) }
  | .realloc _ a _, some q | .reallocAligned _ a _ _, some q =>
    if q = a then w
    else { w with given := Function.update (Function.update w.given a none) q (some 0) }
  | .destroyHeap _ h, _ => { w with
      given := fun a => if w.given a = some h ∨ w.lookup a = none then none else w.given a }
  | _, _ => w

/-- A process before its first call. -/
structure Init (w : Process) : Prop where
  metadata : w.metadata.Init
  arenas : w.arenas = fun _ => none
  arenaCount : w.arenaCount = 0
  abandonedBase : w.abandonedBase = fun _ => false
  pagesAbandoned : w.pagesAbandoned = fun _ _ _ => 0#64
  pageMap : w.pageMap = fun _ _ => none
  first : w.first = fun _ _ => none
  last : w.last = fun _ _ => none
  count : w.count = fun _ _ => 0
  pagesFreeDirect : w.pagesFreeDirect = fun _ _ => none
  pageRetiredMin : w.pageRetiredMin = fun _ => miBinFull
  pageRetiredMax : w.pageRetiredMax = fun _ => 0
  theaps : w.theaps = fun _ => []
  pages : w.pages = ∅
  registryRefused : w.registryRefused = false
  log : w.log = []
  given : w.given = fun _ => none
  heaps : w.heaps = ∅
  heapSeq : w.heapSeq = 1
  exited : w.exited = ∅

/-- A process of which nothing has been used. -/
def blank (eagerCommit : Bool) : Process where
  metadata := .empty
  eagerCommit := eagerCommit
  arenas := fun _ => none
  arenaCount := 0
  allocCursor := 0
  arenaMem := fun _ => MetaMem.empty.new
  abandonedBase := fun _ => false
  pagesAbandoned := fun _ _ _ => 0#64
  pageMap := fun _ _ => none
  page := fun _ => ⟨⟨0, none, none, ⟨none, true⟩, 0, 0, 0, miIntptrSize, false, fun _ => none⟩, ∅⟩
  desc := fun _ => ⟨0, 0, 0, 0, 0⟩
  theap := fun _ => ⟨0, 0⟩
  next := fun _ => none
  prev := fun _ => none
  retireExpire := fun _ => 0
  first := fun _ _ => none
  last := fun _ _ => none
  count := fun _ _ => 0
  pagesFreeDirect := fun _ _ => none
  pageRetiredMin := fun _ => miBinFull
  pageRetiredMax := fun _ => 0
  tseq := fun _ => 0
  theaps := fun _ => []
  pages := ∅
  pagesCreated := 0
  registryRefused := false
  log := []
  given := fun _ => none
  heaps := ∅
  heapSeq := 1
  exited := ∅

theorem blank_init (eagerCommit : Bool) : (blank eagerCommit).Init := by
  constructor
  · exact ⟨rfl, rfl, rfl⟩
  all_goals rfl

end Process

/-- What the operations run. -/
def ProcOp.prog : (o : ProcOp) → Prog ProcAct o.Res
  | .alloc t h size => withTheap t h fun th => ThreadHeap.alloc th size
  | .allocAligned t h size align => withTheap t h fun th => ThreadHeap.allocAligned th size align
  | .allocZeroed t h size => withTheap t h fun th => ThreadHeap.allocZeroed th size
  | .free t a => MimallocRs.free t a
  | .realloc t a newSize => MimallocRs.realloc t a newSize
  | .reallocAligned t a newSize align => MimallocRs.reallocAligned t a newSize align
  | .collect t h force => do
    match ← currentTheap t h with
    | none => return ()
    | some th => ThreadHeap.collect th force
  | .collectRetired t h force => ThreadHeap.collectRetired ⟨t, h⟩ force
  | .reclaim t h bin => ThreadHeap.tryReclaim ⟨t, h⟩ bin
  | .newHeap => MimallocRs.newHeap
  | .deleteHeap t h => MimallocRs.deleteHeap t h
  | .destroyHeap t h => MimallocRs.destroyHeap t h
  | .exit t registryFirst => exitThread t registryFirst
  | .pass _ => .ret ()

/-- A process and the operations on it, one after the other. -/
def processSystem : System ProcAct Unit ProcOp ProcOp.Res Process where
  toMachine := processMachine true
  prog _ o := o.prog
  start _ o w := w.start o
  finish _ o r w := w.finish o r

end MimallocRs
