import MimallocRs.Foundations.Interleave.Prog
import Mathlib.Data.Nat.Notation

/-!
# First-class heaps and their theaps

The functions of `heap.rs` and `init.rs` that create and release first-class heaps and their
thread-local heaps: a heap counts its references, one for its handle and one for each of its theaps;
a theap is listed in its heap and in the registry of its thread, where it is found by the address of
its heap. Heaps and theaps are blocks of the metadata allocator, which may hand an address out again
once it has been freed; a fresh block is private, so that allocating and writing it is one event, and
an operation on the list of a heap is one event as well, since it holds the lock of that list. What
a torn down theap does with its pages is not of interest here.
-/

namespace MimallocRs

open Interleave Prog

/-- Addresses of blocks of the metadata allocator. -/
abbrev Addr := ℕ

/-- The events on heaps, theaps and the registry of a thread. -/
inductive HeapAct (β : Type) : Type
  /-- `meta_zalloc` of a `Heap`, and the write of the new heap. -/
  | newHeap (answer : Option Addr → β)
  /-- `meta_zalloc` of a `ThreadHeap`, and the write of the new theap of the heap `hp`. -/
  | newTheap (hp : Addr) (answer : Option Addr → β)
  /-- `refcount.fetch_add(1)`. -/
  | fetchAdd (hp : Addr) (answer : Unit → β)
  /-- `refcount.fetch_sub(1)`: the value before. -/
  | fetchSub (hp : Addr) (answer : ℕ → β)
  /-- `Heap::register_theap`. -/
  | registerTheap (hp tp : Addr) (answer : Unit → β)
  /-- `Heap::unregister_theap`. -/
  | unregisterTheap (hp tp : Addr) (answer : Unit → β)
  | linked (tp : Addr) (answer : Bool → β)
  | owningHeap (tp : Addr) (answer : Addr → β)
  | tnext (tp : Addr) (answer : Option Addr → β)
  | setTnext (tp : Addr) (next : Option Addr) (answer : Unit → β)
  /-- `meta_free` of a heap. -/
  | freeHeap (hp : Addr) (answer : Unit → β)
  /-- `meta_free` of a theap. -/
  | freeTheap (tp : Addr) (answer : Unit → β)
  /-- `THEAPS.try_with` finds the registry. -/
  | tryWith (answer : Bool → β)
  | registry (answer : Option Addr → β)
  | setRegistry (head : Option Addr) (answer : Unit → β)

namespace Heap

open HeapAct

/-- `Heap::new_boxed`. -/
def newBoxed : Prog HeapAct (Option Addr) := perform (.newHeap id)

/-- `Heap::new_theap_for`. -/
def newTheapFor (hp : Addr) : Prog HeapAct (Option Addr) := do
  match ← perform (.newTheap hp id) with
  | none => return none
  | some tp =>
    perform (.fetchAdd hp id)
    perform (.registerTheap hp tp id)
    return some tp

/-- `Heap::release_ref`. -/
def releaseRef (hp : Addr) : Prog HeapAct Unit := do
  let n ← perform (.fetchSub hp id)
  if n = 1 then perform (.freeHeap hp id)

/-- The search of `theap_for`, from the theap `cur` of the registry on. -/
def findTheap (hp : Addr) (cur : Option Addr) : Prog HeapAct (Option Addr) :=
  iterate (fun cur =>
    match cur with
    | none => return .inr none
    | some tp => do
      let owner ← perform (.owningHeap tp id)
      if owner = hp then return .inr (some tp)
      let next ← perform (.tnext tp id)
      return .inl next) cur

/-- `theap_for`. -/
def theapFor (hp : Addr) : Prog HeapAct (Option Addr) := do
  if ← perform (.tryWith id) then
    match ← findTheap hp (← perform (.registry id)) with
    | some tp => return some tp
    | none =>
      match ← newTheapFor hp with
      | none => return none
      | some tp =>
        perform (.setTnext tp (← perform (.registry id)) id)
        perform (.setRegistry (some tp) id)
        return some tp
  else return none

/-- `take_theap_for`. -/
def takeTheapFor (hp : Addr) : Prog HeapAct (Option Addr) := do
  if ← perform (.tryWith id) then
    iterate (fun (prev, cur) =>
      match cur with
      | none => return .inr none
      | some tp => do
        let next ← perform (.tnext tp id)
        let owner ← perform (.owningHeap tp id)
        if owner = hp then
          match prev with
          | none => perform (.setRegistry next id)
          | some p => perform (.setTnext p next id)
          perform (.setTnext tp none id)
          return .inr (some tp)
        return .inl (some tp, next)) (none, ← perform (.registry id))
  else return none

/-- `teardown_theap`. -/
def teardownTheap (tp : Addr) : Prog HeapAct Unit := do
  let hp ← perform (.owningHeap tp id)
  if ← perform (.linked tp id) then perform (.unregisterTheap hp tp id)
  perform (.freeTheap tp id)
  releaseRef hp

/-- `teardown_theap_bulk`. -/
def teardownTheapBulk (tp : Addr) : Prog HeapAct Unit := do
  let hp ← perform (.owningHeap tp id)
  perform (.unregisterTheap hp tp id)
  perform (.freeTheap tp id)
  releaseRef hp

/-- `Heap::delete`. -/
def delete (hp : Addr) : Prog HeapAct Unit := do
  match ← takeTheapFor hp with
  | some tp => teardownTheap tp
  | none => pure ()
  releaseRef hp

/-- `Heap::destroy`. -/
def destroy (hp : Addr) : Prog HeapAct Unit := do
  match ← takeTheapFor hp with
  | some tp => teardownTheapBulk tp
  | none => pure ()
  releaseRef hp

/-- `Registry::drop`, when a thread exits. -/
def dropRegistry : Prog HeapAct Unit := do
  let cur ← perform (.registry id)
  perform (.setRegistry none id)
  iterate (fun cur =>
    match cur with
    | none => return .inr ()
    | some tp => do
      let next ← perform (.tnext tp id)
      teardownTheap tp
      return .inl next) cur

end Heap

end MimallocRs
