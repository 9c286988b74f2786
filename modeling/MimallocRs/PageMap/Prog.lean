import MimallocRs.Bits
import MimallocRs.Foundations.Interleave.Prog

/-!
# The page map

The functions of `page_map.rs`. A top table of `topCount` entries (`TOP_COUNT`, `2^18` on a 64-bit
target with 47 address bits) points at submaps of `SUB_COUNT` page pointers. Both are allocated on
first use under one spin lock; until then an entry points at a shared submap of null pointers.
Each atomic load and store, each step of the lock and each allocation is an event. Tables and
submaps are named by numbers, submap 0 being the shared one; a pointer that may be null is an
option.
-/

namespace MimallocRs

open Interleave Prog

/-- Entries of a submap. -/
def subCount : ℕ := 2 ^ 13

/-- The events on the page map. -/
inductive MapAct : Type → Type
  /-- Load `TOP`. -/
  | loadTop : MapAct (Option ℕ)
  /-- Store `TOP`. -/
  | storeTop (t : ℕ) : MapAct Unit
  /-- The weak compare-exchange of `SpinLock::lock`: whether the lock was taken. -/
  | tryLock : MapAct Bool
  /-- Load the lock word. -/
  | loadLock : MapAct Bool
  /-- The guard is dropped. -/
  | unlock : MapAct Unit
  /-- `os::alloc` of a top table. -/
  | allocTop : MapAct (Option ℕ)
  /-- `os::alloc` of a submap. -/
  | allocSub : MapAct (Option ℕ)
  /-- Load an entry of a top table. -/
  | loadEntry (t i : ℕ) : MapAct (Option ℕ)
  /-- Store an entry of a top table. -/
  | storeEntry (t i p : ℕ) : MapAct Unit
  /-- Load an entry of the submap that a pointer points at. -/
  | loadSub (p : Option ℕ) (i : ℕ) : MapAct ℕ
  /-- Store an entry of the submap that a pointer points at. -/
  | storeSub (p : Option ℕ) (i page : ℕ) : MapAct Unit

namespace PageMap

/-- `slice_index`. -/
def sliceIndex (addr : ℕ) : ℕ := addr / miArenaSliceSize

/-- `SpinLock::lock`. -/
def lock : Prog MapAct Unit :=
  iterate (fun _ : Unit => do
    if ← perform .tryLock then return .inr ()
    else
      iterate (fun _ : Unit => do
        if ← perform .loadLock then return .inl () else return .inr ()) ()
      return .inl ()) ()

/-- `ensure_top`, on tables of `topCount` entries. -/
def ensureTop (topCount : ℕ) : Prog MapAct (Option ℕ) := do
  match ← perform .loadTop with
  | some t => return some t
  | none =>
    lock
    match ← perform .loadTop with
    | some t =>
      perform .unlock
      return some t
    | none =>
      match ← perform .allocTop with
      | some base =>
        forEach (fun i => perform (.storeEntry base i 0)) (List.range topCount)
        perform (.storeTop base)
        perform .unlock
        return some base
      | none =>
        perform .unlock
        return none

/-- `ensure_submap`: the shared submap if no other could be allocated. -/
def ensureSubmap (t i : ℕ) : Prog MapAct (Option ℕ) := do
  let s ← perform (.loadEntry t i)
  if s ≠ some 0 then return s
  else
    lock
    let s ← perform (.loadEntry t i)
    if s ≠ some 0 then
      perform .unlock
      return s
    else
      match ← perform .allocSub with
      | some p =>
        perform (.storeEntry t i p)
        perform .unlock
        return some p
      | none =>
        perform .unlock
        return some 0

/-- `unregister`. -/
def unregister (topCount addr sliceCount : ℕ) : Prog MapAct Unit := do
  match ← perform .loadTop with
  | none => return ()
  | some t =>
    iterate (fun s => do
      if s < sliceCount then
        let u := sliceIndex addr + s
        if topCount ≤ u / subCount then return .inr ()
        else
          let p ← perform (.loadEntry t (u / subCount))
          if p = some 0 then return .inl (s + 1)
          else
            perform (.storeSub p (u % subCount) 0)
            return .inl (s + 1)
      else return .inr ()) 0

/-- `register`: whether the slices have been mapped. -/
def register (topCount addr sliceCount page : ℕ) : Prog MapAct Bool := do
  match ← ensureTop topCount with
  | none => return false
  | some t =>
    iterate (fun s => do
      if s < sliceCount then
        let u := sliceIndex addr + s
        let p ← if u / subCount < topCount then ensureSubmap t (u / subCount) else pure (some 0)
        if p = some 0 then
          unregister topCount addr s
          return .inr false
        else
          perform (.storeSub p (u % subCount) page)
          return .inl (s + 1)
      else return .inr true) 0

/-- `lookup`. -/
def lookup (topCount addr : ℕ) : Prog MapAct ℕ := do
  match ← perform .loadTop with
  | none => return 0
  | some t =>
    let u := sliceIndex addr
    if topCount ≤ u / subCount then return 0
    else
      let p ← perform (.loadEntry t (u / subCount))
      perform (.loadSub p (u % subCount))

end PageMap

end MimallocRs
