import MimallocRs.Heap.Shared
import MimallocRs.Foundations.Chain
import MimallocRs.Foundations.DList
import MimallocRs.Foundations.Interleave.Outline
import Mathlib.Data.Set.Card

/-!
# The invariant of heaps and theaps

What a thread knows is its ghost: the theaps in its registry with the addresses of their heaps, the
theap it is creating or tearing down, and the references to heaps that it has to release. The
invariant has five parts. `Registers` ties the registries to the theaps of their threads; `Counted`
says that the reference count of a heap is the number of references to it, which are the handle, its
theaps, and what running operations hold; `Handles` is about the use of the handles; `Listed` says
that a heap's list holds its theaps; and `HeapsRecorded` and `TheapsRecorded` are the history.

No address is used twice at a time: a theap keeps its heap alive (`Counted.live`), so that the
address of its heap is not handed out again, and a theap that is found by that address belongs to
the same heap.
-/

namespace MimallocRs

open Interleave

/-- How far a theap is that its thread is creating or tearing down. -/
inductive Stage
  /-- It is not counted as a reference to its heap. -/
  | created
  | counted
  /-- It is in the list of its heap. -/
  | listed
  /-- It is also linked to the registry. -/
  | ready
  deriving DecidableEq

/-- The theap is in the list of its heap. -/
def Stage.isListed : Stage → Bool
  | .created | .counted => false
  | .listed | .ready => true

/-- What a thread knows of heaps and theaps. -/
structure HeapGhost where
  /-- The theaps in its registry, and the addresses of their heaps. -/
  regs : List (Addr × Addr)
  /-- The registry points at them. -/
  registered : Bool
  /-- The thread's exit is under way. -/
  exiting : Bool
  /-- The thread has found that it has not exited. -/
  alive : Bool
  /-- The theap it is creating or tearing down, and its heap. -/
  mine : Option (Addr × Addr)
  stage : Stage
  /-- The heap of the theap that it has torn down, whose reference it has to release. -/
  owes : Option Addr
  /-- The heap that it has created. -/
  fresh : Option Addr
  /-- The heap that it has been given to delete. -/
  holds : Option Addr
  /-- The heap that it is to free. -/
  frees : Option Addr
  /-- The handle that it is using. -/
  uses : Option Addr

/-- The first theap of the registry. -/
def HeapGhost.head (g : HeapGhost) : Option Addr := (g.regs.map Prod.fst).head?

/-- What a thread holds a reference to a heap for. -/
inductive Holding
  | theap (tp : Addr) | torn | fresh | held

/-- The references to a heap. -/
inductive Ref
  | handle
  | of (t : ℕ) (x : Holding)

/-- The thread holds a reference to the heap at `hp`. -/
def HeapGhost.Holds (g : HeapGhost) (hp : Addr) : Holding → Prop
  | .theap tp => (tp, hp) ∈ g.regs ∨ (g.mine = some (tp, hp) ∧ g.stage ≠ .created)
  | .torn => g.owes = some hp
  | .fresh => g.fresh = some hp
  | .held => g.holds = some hp

/-- There are `n` elements in the set. -/
def Counts {α : Type} (s : Set α) (n : ℕ) : Prop := s.Finite ∧ s.ncard = n

namespace Counts

variable {α : Type} {s s' : Set α} {n : ℕ} {x y : α}

theorem empty (h : ∀ x, x ∉ s) : Counts s 0 := by
  obtain rfl : s = ∅ := Set.eq_empty_of_forall_notMem h
  exact ⟨Set.finite_empty, Set.ncard_empty α⟩

theorem insert (h : Counts s n) (hx : x ∉ s) (hs : ∀ y, y ∈ s' ↔ y = x ∨ y ∈ s) :
    Counts s' (n + 1) := by
  obtain rfl : s' = Insert.insert x s := Set.ext hs
  exact ⟨h.1.insert x, by rw [Set.ncard_insert_of_notMem hx h.1, h.2]⟩

theorem erase (h : Counts s n) (hx : x ∈ s) (hs : ∀ y, y ∈ s' ↔ y ∈ s ∧ y ≠ x) :
    Counts s' (n - 1) := by
  obtain rfl : s' = s \ {x} := Set.ext hs
  exact ⟨h.1.sdiff, by rw [Set.ncard_sdiff_singleton_of_mem hx, h.2]⟩

theorem replace (h : Counts s n) (hx : x ∈ s) (hy : y ∉ s)
    (hs : ∀ z, z ∈ s' ↔ z = y ∨ z ∈ s ∧ z ≠ x) : Counts s' n := by
  have hpos : 0 < n := by
    rw [← h.2]
    exact (Set.ncard_pos h.1).mpr ⟨x, hx⟩
  have herase : Counts (s \ {x}) (n - 1) := h.erase hx fun _ => Iff.rfl
  have hinsert : Counts s' (n - 1 + 1) := herase.insert (fun hc => hy hc.1) hs
  rwa [Nat.sub_add_cancel hpos] at hinsert

theorem eq_empty (h : Counts s 0) (x : α) : x ∉ s := by
  rw [(Set.ncard_eq_zero h.1).mp h.2]
  exact Set.notMem_empty x

theorem nonempty (h : Counts s n) (hn : n ≠ 0) : s.Nonempty := by
  rw [← h.2] at hn
  exact Set.nonempty_of_ncard_ne_zero hn

end Counts

/-- The references to the heap at `hp`. -/
def Refs (m : HeapMem) (γ : ℕ → HeapGhost) (hp : Addr) : Set Ref := fun x =>
  match x with
  | .handle => hp ∈ m.handles
  | .of t x => (γ t).Holds hp x

/-- What thread `t` knows of its theaps is true. -/
structure RegView (m : HeapMem) (t : ℕ) (g : HeapGhost) : Prop where
  chain : Chain m.tnext g.head (g.regs.map Prod.fst)
  registry : m.registry t = if g.registered then g.head else none
  regs : ∀ x ∈ g.regs, m.linked x.1 = true ∧
    ∃ r, m.theap x.1 = some r ∧ r.tid = t ∧ r.heap = x.2
  mine : ∀ x, g.mine = some x → m.linked x.1 = g.stage.isListed ∧ x.2 ∉ g.regs.map Prod.snd ∧
    ∃ r, m.theap x.1 = some r ∧ r.tid = t ∧ r.heap = x.2
  ready : ∀ x, g.mine = some x → g.stage = .ready → m.tnext x.1 = g.head
  nodup : (g.regs.map Prod.snd).Nodup
  exited : m.exited t = true → g.exiting = false → g.regs = []
  alive : g.alive = true → m.exited t = false

/-- The theaps are those in the registries of their threads, and those that threads are creating or
tearing down. -/
structure Registers (m : HeapMem) (γ : ℕ → HeapGhost) : Prop where
  view : ∀ t, RegView m t (γ t)
  owner : ∀ tp r, m.theap tp = some r →
    (tp, r.heap) ∈ (γ r.tid).regs ∨ (γ r.tid).mine = some (tp, r.heap)

/-- The references to the heap at `hp` are counted, and keep it alive. -/
structure Counted (m : HeapMem) (γ : ℕ → HeapGhost) (hp : Addr) : Prop where
  count : ∀ r, m.heap hp = some r → Counts (Refs m γ hp) r.refcount
  live : ∀ x, x ∈ Refs m γ hp → ∃ r, m.heap hp = some r
  zero : ∀ r, m.heap hp = some r → r.refcount = 0 → ∃ t, (γ t).frees = some hp
  frees : ∀ t, (γ t).frees = some hp → ∃ r, m.heap hp = some r ∧ r.refcount = 0
  frees_inj : ∀ t u, (γ t).frees = some hp → (γ u).frees = some hp → t = u

/-- A handle is used while it may be used. -/
structure Handles (m : HeapMem) (γ : ℕ → HeapGhost) : Prop where
  nodup : m.handles.Nodup
  busy : ∀ t hp, (t, hp) ∈ m.busy ↔ (γ t).uses = some hp
  busy_nodup : m.busy.Nodup
  uses : ∀ t hp, (γ t).uses = some hp → hp ∈ m.handles
  uncounted : ∀ t x, (γ t).mine = some x → (γ t).stage = .created → (γ t).uses = some x.2
  fresh : ∀ t hp, (γ t).fresh = some hp → hp ∉ m.handles
  fresh_inj : ∀ t u hp, (γ t).fresh = some hp → (γ u).fresh = some hp → t = u

/-- The cells `l` are the listed theaps of the heap at `hp`. -/
def ListOf (m : HeapMem) (hp : Addr) (l : List Addr) : Prop :=
  ∀ tp, tp ∈ l ↔ m.linked tp = true ∧ ∃ r, m.theap tp = some r ∧ r.heap = hp

/-- The list of a heap holds its theaps. -/
def Listed (m : HeapMem) : Prop :=
  ∀ hp r, m.heap hp = some r → ∃ l, DList m.hnext m.hprev r.theaps l ∧ ListOf m hp l

/-- The history of the heaps. -/
structure HeapsRecorded (m : HeapMem) (γ : ℕ → HeapGhost) : Prop where
  lt : ∀ hp r, m.heap hp = some r → r.heapSeq < m.nextSeq
  inj : ∀ hp hp' r r', m.heap hp = some r → m.heap hp' = some r' → r.heapSeq = r'.heapSeq →
    hp = hp'
  not_freed : ∀ hp r, m.heap hp = some r → r.heapSeq ∉ m.freed
  freed_lt : ∀ seq ∈ m.freed, seq < m.nextSeq
  freed_nodup : m.freed.Nodup
  freed_deleted : ∀ seq ∈ m.freed, seq ∈ m.deleted
  all : ∀ seq, 0 < seq → seq < m.nextSeq → seq ∈ m.freed ∨ ∃ hp r, m.heap hp = some r ∧
    r.heapSeq = seq
  deleted : ∀ hp r, m.heap hp = some r → r.heapSeq ∈ m.deleted ∨ hp ∈ m.handles ∨
    ∃ t, (γ t).fresh = some hp
  not_deleted : ∀ hp r, m.heap hp = some r → hp ∈ m.handles ∨ (∃ t, (γ t).fresh = some hp) →
    r.heapSeq ∉ m.deleted
  deleted_lt : ∀ seq ∈ m.deleted, seq < m.nextSeq

/-- The history of the theaps. -/
structure TheapsRecorded (m : HeapMem) : Prop where
  apart : ∀ a, m.heap a = none ∨ m.theap a = none
  heap_of : ∀ tp r, m.theap tp = some r → ∃ h, m.heap r.heap = some h ∧ h.heapSeq = r.seq
  lt : ∀ tp r, m.theap tp = some r → r.serial < m.serials
  inj : ∀ tp tp' r r', m.theap tp = some r → m.theap tp' = some r' → r.serial = r'.serial →
    tp = tp'
  maker : ∀ tp r, m.theap tp = some r → m.maker r.serial = (r.tid, r.seq)
  maker_lt : ∀ i < m.serials, (m.maker i).2 < m.nextSeq
  not_torn : ∀ tp r, m.theap tp = some r → r.serial ∉ m.torn
  torn_lt : ∀ i ∈ m.torn, i < m.serials
  torn_nodup : m.torn.Nodup
  all : ∀ i < m.serials, i ∈ m.torn ∨ ∃ tp r, m.theap tp = some r ∧ r.serial = i
  freed : ∀ i < m.serials, (m.maker i).2 ∈ m.freed → i ∈ m.torn

/-- The invariant of heaps and theaps. -/
structure HeapInv (m : HeapMem) (γ : ℕ → HeapGhost) : Prop where
  registers : Registers m γ
  counted : ∀ hp, Counted m γ hp
  handles : Handles m γ
  listed : Listed m
  heaps : HeapsRecorded m γ
  theaps : TheapsRecorded m
  fault : m.fault = false

/-- The outline of heaps and theaps. -/
def heapOutline : Outline HeapAct ℕ HeapMem HeapGhost where
  inv := HeapInv

end MimallocRs
