import MimallocRs.Arena.Shared
import MimallocRs.Subproc.Prog

/-!
# The state of the sub-process

`SubprocMem` is the registry of arenas with its lock, the regions that the operating system has
given out, and the arenas in them, each as in `Arena/Shared.lean`. Regions that are given out at the
same time do not overlap.

`subprocSystem` runs the functions of `Subproc/Prog.lean` on it, on any number of threads. A thread
frees only runs of slices that it holds, and writes only to slices that it holds.
-/

namespace MimallocRs

open Interleave

/-- The state of the sub-process. -/
structure SubprocMem (Tid : Type) where
  locked : Bool
  arenaCount : ℕ
  arenas : ℕ → Option ℕ
  allocCursor : ℕ
  opts : Opt → ℤ
  now : ℤ
  /-- The regions that the operating system has given out, by address and number of slices. -/
  region : ℕ → Option (ℕ × ℕ)
  nextRegion : ℕ
  /-- The descriptors of arenas, where there are any. -/
  descriptor : ℕ → Arena
  /-- There is an arena. -/
  made : ℕ → Bool
  /-- The bitmaps and the slices of each arena. -/
  mem : ℕ → ArenaShared Tid

namespace SubprocMem

variable {Tid : Type}

/-- The descriptor of the arena at `j`, if there is one. -/
def arena (s : SubprocMem Tid) (j : ℕ) : Option Arena :=
  if s.made j then some (s.descriptor j) else none

/-- The arena at `j`, with the options and the clock of the process. -/
def view (s : SubprocMem Tid) (j : ℕ) : ArenaShared Tid :=
  { s.mem j with opts := s.opts, now := s.now }

/-- The arena at `j` has been changed. -/
def withMem (s : SubprocMem Tid) (j : ℕ) (w : ArenaShared Tid) : SubprocMem Tid :=
  { s with mem := Function.update s.mem j w }

/-- The slices of the arena at `j` that a thread holds. -/
def held (s : SubprocMem Tid) (t : Tid) (j : ℕ) : Set ℕ := (s.mem j).held t

/-- A region of so many slices would overlap none that is given out. -/
def Vacant (s : SubprocMem Tid) (start slices : ℕ) : Prop :=
  ∀ j < s.nextRegion, ∀ r ∈ s.region j, start + slices * miArenaSliceSize ≤ r.1 ∨
    r.1 + r.2 * miArenaSliceSize ≤ start

instance (s : SubprocMem Tid) (start slices : ℕ) : Decidable (s.Vacant start slices) :=
  inferInstanceAs (Decidable (∀ _ < _, ∀ _ ∈ _, _ ∨ _))

/-- Before the first arena. What memory holds that is not in use yet is not determined. -/
def init (opts : Opt → ℤ) (now : ℤ) (descriptor : ℕ → Arena) (contents : ℕ → Region) :
    SubprocMem Tid where
  locked := false
  arenaCount := 0
  arenas _ := none
  allocCursor := 0
  opts := opts
  now := now
  region _ := none
  nextRegion := 0
  descriptor := descriptor
  made _ := false
  mem j := .init (fun _ _ => 0#64) opts now (contents j)

/-- An initial state. -/
def Init (s : SubprocMem Tid) : Prop :=
  ∃ opts now descriptor contents, s = init opts now descriptor contents

variable [DecidableEq Tid]

/-- A region of `slices` slices is given out, if none that overlaps it is. -/
def giveRegion (s : SubprocMem Tid) (start slices : ℕ) : Option (SubprocMem Tid) :=
  if s.Vacant start slices then some { s with
    region := Function.update s.region s.nextRegion (some (start, slices))
    nextRegion := s.nextRegion + 1 }
  else none

/-- The arena `a` is made in the region `j`: its bitmaps are zero, and its slices are in the hands
of the call that makes it. -/
def make (s : SubprocMem Tid) (t : Tid) (j : ℕ) (a : Arena) : SubprocMem Tid :=
  { s with
    descriptor := Function.update s.descriptor j a
    made := Function.update s.made j true
    mem := Function.update s.mem j
      { s.mem j with
        expire := 0
        bits := Function.update (fun _ => .init fun _ => 0#64) .free
          { BitShared.init (fun _ => 0#64) with
            taken := Function.update (fun _ => ∅) t {i | i < a.sliceCount} } } }

/-- The arena in the region `j` is gone, and so is the region. -/
def free (s : SubprocMem Tid) (j : ℕ) : SubprocMem Tid :=
  { s with
    region := Function.update s.region j none
    made := Function.update s.made j false }

/-- The events. The operating system and the metadata allocator may refuse, and a region may be at
any address and of any kind. -/
def exec {β : Type} (strips : Bool) (t : Tid) (e : SubprocAct β) (s : SubprocMem Tid)
    (choice : ℕ) : Option (β × SubprocMem Tid) :=
  match e with
  | .tryLock k =>
    if s.locked = false ∧ choice = 0 then some (k true, { s with locked := true })
    else some (k false, s)
  | .loadLocked k => some (k s.locked, s)
  | .unlock k => some (k (), { s with locked := false })
  | .loadCount k => some (k s.arenaCount, s)
  | .storeCount n k => some (k (), { s with arenaCount := n })
  | .loadArena i k => some (k (s.arenas i), s)
  | .storeArena i j k => some (k (), { s with arenas := Function.update s.arenas i (some j) })
  | .loadCursor k => some (k s.allocCursor, s)
  | .storeCursor i k => some (k (), { s with allocCursor := i })
  | .osAlloc slices k =>
    if choice = 0 then some (k none, s)
    else
      let start := choice / 4 * miArenaSliceSize
      (s.giveRegion start slices).map fun s' =>
        (k (some (s.nextRegion, start, choice.testBit 0, choice.testBit 1)), s')
  | .osFree j k => some (k (), s.free j)
  | .zalloc k => if choice = 0 then some (k false, s) else some (k true, s)
  | .metaFree k => some (k (), s)
  | .write j a k => some (k (), s.make t j a)
  | .deref j k => some (k (s.descriptor j), s)
  | .arena j e =>
    ((s.view j).exec (s.descriptor j).chunkCount strips t e choice).map fun r =>
      (r.1, s.withMem j r.2)

end SubprocMem

/-- The operations on the sub-process. -/
inductive SubprocOp
  | allocSlices (n : ℕ) (commit : Bool) (tseq : ℕ)
  | freeSlices (j idx n : ℕ)
  | tryPurge (force : Bool)
  | ownsAddress (ptr : ℕ)
  /-- The holder of a slice writes a byte. -/
  | write (j idx off : ℕ) (v : BitVec 8)
  | setOption (o : Opt) (v : ℤ)
  | tick (now : ℤ)

/-- What the operations return. -/
abbrev SubprocOp.Res : SubprocOp → Type
  | .allocSlices _ _ _ => Option (ℕ × ℕ × ℕ × Bool)
  | .ownsAddress _ => Bool
  | .freeSlices _ _ _ | .tryPurge _ | .write _ _ _ _ | .setOption _ _ | .tick _ => Unit

/-- The run of slices that an operation has claimed for its caller, with its arena. -/
def SubprocOp.claimed : (o : SubprocOp) → o.Res → Option (ℕ × ℕ × ℕ)
  | .allocSlices n _ _, r => r.map fun p => (p.1, p.2.1, n)
  | .freeSlices .., _ | .tryPurge _, _ | .ownsAddress _, _ | .write .., _ | .setOption .., _ | .tick _, _ => none

/-- The operations of any number of threads on the sub-process. -/
def subprocSystem (Tid : Type) [DecidableEq Tid] (strips : Bool) :
    System SubprocAct Tid SubprocOp SubprocOp.Res (SubprocMem Tid) where
  exec t e s choice := s.exec strips t e choice
  prog
    | _, .allocSlices n commit tseq => SharedSubproc.allocSlices n commit tseq
    | _, .freeSlices j idx n => SharedSubproc.freeSlices j idx n
    | _, .tryPurge force => SharedSubproc.tryPurge force
    | _, .ownsAddress ptr => SharedSubproc.ownsAddress ptr
    | _, .write _ _ _ _ | _, .setOption _ _ | _, .tick _ => .ret ()
  start
    | _, .allocSlices _ _ _, s | _, .tryPurge _, s | _, .ownsAddress _, s => some s
    | t, .freeSlices j idx n, s => (((s.mem j).bits .free).giveBack t idx n).map fun w =>
      s.withMem j ((s.mem j).withBits .free w)
    | t, .write j idx off v, s =>
      if ∃ r ∈ ((s.mem j).bits .free).held t, r.1 ≤ idx ∧ idx < r.1 + r.2 then
        some (s.withMem j { s.mem j with region := (s.mem j).region.write idx off v })
      else none
    | _, .setOption o v, s => some { s with opts := Function.update s.opts o v }
    | _, .tick now, s => some { s with now := now }
  finish t o r s :=
    match o.claimed r with
    | some (j, idx, n) =>
      s.withMem j ((s.mem j).withBits .free (((s.mem j).bits .free).keep t idx n))
    | none => s

end MimallocRs
