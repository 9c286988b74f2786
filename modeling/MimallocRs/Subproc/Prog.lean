import MimallocRs.Process.Prog

/-!
# The arenas of the sub-process, for any number of threads

The functions of `subproc.rs` that search the arenas, purge them and add to them, with the creation
of an arena and the test whether an address lies in one, as programs whose every access to shared memory is an event. The registry is read
without a lock and added to under one. An arena is named by the region that the operating system
has given for it. A call of the metadata allocator is one event here (`Meta/Contended.lean`), and so
is a call of the operating system.
-/

namespace MimallocRs

open Interleave Prog

/-- The events on the sub-process. -/
inductive SubprocAct (β : Type) : Type
  /-- The weak compare-exchange of `SpinLock::lock`: whether the lock was taken. -/
  | tryLock (answer : Bool → β)
  /-- `locked.load`. -/
  | loadLocked (answer : Bool → β)
  /-- The guard is dropped. -/
  | unlock (answer : Unit → β)
  | loadCount (answer : ℕ → β)
  | storeCount (n : ℕ) (answer : Unit → β)
  /-- Load an entry of `arenas`. -/
  | loadArena (i : ℕ) (answer : Option ℕ → β)
  /-- Store an entry of `arenas`. -/
  | storeArena (i j : ℕ) (answer : Unit → β)
  | loadCursor (answer : ℕ → β)
  | storeCursor (i : ℕ) (answer : Unit → β)
  /-- `os::alloc_aligned` of so many slices: the region, its address, whether it is pinned and
  whether it is zero. -/
  | osAlloc (slices : ℕ) (answer : Option (ℕ × ℕ × Bool × Bool) → β)
  /-- `os::free`. -/
  | osFree (j : ℕ) (answer : Unit → β)
  /-- `meta_zalloc`: whether it succeeded. -/
  | zalloc (answer : Bool → β)
  /-- `meta_free`. -/
  | metaFree (answer : Unit → β)
  /-- Write the descriptor of an arena, whose bitmaps are zero. -/
  | write (j : ℕ) (a : Arena) (answer : Unit → β)
  /-- Read the descriptor of an arena. -/
  | deref (j : ℕ) (answer : Arena → β)
  /-- An event on the bitmaps of an arena. -/
  | arena (j : ℕ) (e : ArenaAct β)

namespace SharedSubproc

/-- `SpinLock::lock`. -/
def lock : Prog SubprocAct Unit :=
  iterate (fun _ : Unit => do
    if ← perform (.tryLock id) then return .inr ()
    else
      iterate (fun _ : Unit => do
        if ← perform (.loadLocked id) then return .inl () else return .inr ()) ()
      return .inl ()) ()

/-- `Arena::create`. -/
def create (sliceCount : ℕ) (commit : Bool) : Prog SubprocAct (Option ℕ) :=
  if h : 0 < sliceCount ∧ chunksFor sliceCount ≤ chunkBits then do
    match ← perform (.osAlloc sliceCount id) with
    | none => return none
    | some (j, start, isPinned, initiallyZero) =>
      -- the bitmaps, then the descriptor
      if ← perform (.zalloc id) then
        if ← perform (.zalloc id) then
          let a : Arena := ⟨start, sliceCount, chunksFor sliceCount, isPinned, initiallyZero, h.1,
            h.elim fun _ _ => rfl, h.2⟩
          perform (.write j a id)
          (a.initBitmaps commit).hoist (.arena j)
          return some j
        else
          perform (.osFree j id)
          perform (.metaFree id)
          return none
      else
        perform (.osFree j id)
        return none
  else return none

/-- `Arena::destroy` of an arena whose abandoned registry has not been mapped. -/
def destroy (j : ℕ) : Prog SubprocAct Unit := do
  perform (.osFree j id)
  perform (.metaFree id)
  perform (.metaFree id)

/-- `Subproc::add_arena`. -/
def addArena (j : ℕ) : Prog SubprocAct Bool := do
  lock
  let idx ← perform (.loadCount id)
  if Subproc.maxArenas ≤ idx then
    perform (.unlock id)
    return false
  else
    perform (.storeArena idx j id)
    perform (.storeCount (idx + 1) id)
    perform (.unlock id)
    return true

/-- `Subproc::reserve_arena`. -/
def reserveArena (minSlices : ℕ) (commit : Bool) : Prog SubprocAct (Option ℕ) := do
  match ← create (max minSlices Subproc.defaultArenaSlices) commit with
  | none => return none
  | some j =>
    if ← addArena j then return some j
    else
      destroy j
      return none

/-- The search of `Subproc::alloc_slices` in the arena at place `i`, the `k`-th that it tries. -/
def tryArena (n tseq i k : ℕ) : Prog SubprocAct (Option (ℕ × ℕ × ℕ × Bool)) := do
  match ← perform (.loadArena i id) with
  | none => return none
  | some j =>
    let a ← perform (.deref j id)
    match ← (a.allocSlices n tseq).hoist (.arena j) with
    | none => return none
    | some (idx, p, isZero) =>
      if k ≠ 0 then perform (.storeCursor i id) else pure ()
      return some (j, idx, p, isZero)

/-- `Subproc::alloc_slices` once the search has found nothing: reserve a fresh arena and retry on
it. -/
def allocFresh (n : ℕ) (commit : Bool) (tseq : ℕ) :
    Prog SubprocAct (Option (ℕ × ℕ × ℕ × Bool)) := do
  match ← reserveArena n commit with
  | none => return none
  | some j =>
    let a ← perform (.deref j id)
    match ← (a.allocSlices n tseq).hoist (.arena j) with
    | none => return none
    | some (idx, p, isZero) =>
      let count ← perform (.loadCount id)
      perform (.storeCursor (count - 1) id)
      return some (j, idx, p, isZero)

/-- `Subproc::alloc_slices`: the arena, the first slice, its address, and whether the slices are
zero. -/
def allocSlices (n : ℕ) (commit : Bool) (tseq : ℕ) :
    Prog SubprocAct (Option (ℕ × ℕ × ℕ × Bool)) := do
  let count ← perform (.loadCount id)
  if 0 < count then
    let cursor ← perform (.loadCursor id)
    let found ← firstSome (fun k => tryArena n tseq ((cursor % count + k) % count) k)
      (List.range count)
    match found with
    | some r => return some r
    | none => allocFresh n commit tseq
  else allocFresh n commit tseq

/-- `Subproc::try_purge`. -/
def tryPurge (force : Bool) : Prog SubprocAct Unit := do
  let count ← perform (.loadCount id)
  forEach (fun i => do
    match ← perform (.loadArena i id) with
    | none => return ()
    | some j =>
      let a ← perform (.deref j id)
      let _ ← (a.maybePurge force).hoist (.arena j)
      return ()) (List.range count)

/-- `Subproc::owns_address`. -/
def ownsAddress (ptr : ℕ) : Prog SubprocAct Bool := do
  let count ← perform (.loadCount id)
  let found ← firstSome (fun i => do
    match ← perform (.loadArena i id) with
    | none => return none
    | some j =>
      let a ← perform (.deref j id)
      if (a.sliceIndexOf ptr).isSome then return some () else return none) (List.range count)
  return found.isSome

/-- `Arena::free_slices`, called through a pointer to an arena. -/
def freeSlices (j idx n : ℕ) : Prog SubprocAct Unit := do
  let a ← perform (.deref j id)
  (a.freeSlices idx n).hoist (.arena j)

end SharedSubproc

end MimallocRs
