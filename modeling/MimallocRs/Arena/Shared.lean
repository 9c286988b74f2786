import MimallocRs.Arena.Memory
import MimallocRs.Bitmap.Shared

/-!
# An arena used by any number of threads

`ArenaShared` is an arena with the memory of its slices, for any number of threads. Each bitmap is
one of `Bitmap/Shared.lean`; the history that belongs to the bitmap of free slices says which
slices a thread holds, and which its running call has taken. What the operating system does to the
memory is as in `Arena/Memory.lean`.

`arenaSystem` runs the functions of an arena, in any interleaving of their accesses to the bitmaps
and to the deadline and of their calls of the operating system. A thread frees only a run of slices
that it holds, and writes only to slices that it holds.
-/

namespace MimallocRs

open Interleave

/-- The state of an arena, of the options and of the clock, and the memory of its slices. -/
structure ArenaShared (Tid : Type) where
  bits : BitmapId → BitShared Tid
  expire : ℤ
  opts : Opt → ℤ
  now : ℤ
  region : Region

namespace ArenaShared

variable {Tid : Type}

/-- A bitmap of the arena has been changed. -/
def withBits (s : ArenaShared Tid) (b : BitmapId) (w : BitShared Tid) : ArenaShared Tid :=
  { s with bits := Function.update s.bits b w }

@[simp] theorem withBits_bits (s : ArenaShared Tid) (b : BitmapId) (w : BitShared Tid) :
    (s.withBits b w).bits b = w := Function.update_self ..

@[simp] theorem withBits_of_ne (s : ArenaShared Tid) {b b' : BitmapId} (w : BitShared Tid)
    (h : b' ≠ b) : (s.withBits b w).bits b' = s.bits b' := Function.update_of_ne h ..

/-- The slices that a thread holds. -/
def held (s : ArenaShared Tid) (t : Tid) : Set ℕ := (s.bits .free).heldBits t

/-- The slices that the running call of a thread has taken. -/
def taken (s : ArenaShared Tid) (t : Tid) : Set ℕ := (s.bits .free).taken t

/-- The free slices of an arena whose bitmaps have `cc` chunks. -/
def free (cc : ℕ) (s : ArenaShared Tid) : Set ℕ := (s.bits .free).setBits cc

/-- An arena whose bitmaps have the given words, used by no thread yet. -/
def init (word : BitmapId → Words) (opts : Opt → ℤ) (now : ℤ) (region : Region) :
    ArenaShared Tid where
  bits b := .init (word b)
  expire := 0
  opts := opts
  now := now
  region := region

/-- An arena all of whose slices are free, used by no thread yet. -/
def Init (a : Arena) (s : ArenaShared Tid) : Prop :=
  ∃ word opts now region, s = init word opts now region ∧
    bitsOf a.chunkCount (word .free) = {i | i < a.sliceCount}

variable [DecidableEq Tid]

/-- The events on an arena whose bitmaps have `cc` chunks. The operating system may refuse. -/
def exec {β : Type} (cc : ℕ) (strips : Bool) (t : Tid) (e : ArenaAct β) (s : ArenaShared Tid)
    (choice : ℕ) : Option (β × ArenaShared Tid) :=
  match e with
  | .load b l => ((s.bits b).exec cc t (.load l) choice).map fun r => (r.1, s.withBits b r.2)
  | .cas b l old new =>
    ((s.bits b).exec cc t (.cas l old new) choice).map fun r => (r.1, s.withBits b r.2)
  | .osCommit idx n =>
    if choice = 0 then some (true, { s with region := s.region.protect idx n true })
    else some (false, s)
  | .osDecommit idx n => some ((), { s with region := s.region.decommit strips choice idx n })
  | .osReset idx n => some ((), { s with region := s.region.reset choice idx n })
  | .option o => some (s.opts o, s)
  | .clock => some (s.now, s)
  | .loadExpire => some (s.expire, s)
  | .storeExpire n => some ((), { s with expire := n })
  | .casExpire e n => if s.expire = e then some (true, { s with expire := n }) else some (false, s)

end ArenaShared

/-- The operations on an arena. -/
inductive ArenaOp
  | allocSlices (n tseq : ℕ)
  | freeSlices (idx n : ℕ)
  | maybePurge (force : Bool)
  /-- The holder of a slice writes a byte. -/
  | write (idx off : ℕ) (v : BitVec 8)
  | setOption (o : Opt) (v : ℤ)
  | tick (now : ℤ)

/-- What the operations return. -/
abbrev ArenaOp.Res : ArenaOp → Type
  | .allocSlices _ _ => Option (ℕ × ℕ × Bool)
  | .maybePurge _ => Bool
  | .freeSlices _ _ | .write _ _ _ | .setOption _ _ | .tick _ => Unit

/-- The run of slices that an operation has claimed for its caller. -/
def ArenaOp.claimed : (o : ArenaOp) → o.Res → Option (ℕ × ℕ)
  | .allocSlices n _, r => r.map fun p => (p.1, n)
  | .freeSlices .., _ | .maybePurge _, _ | .write .., _ | .setOption .., _ | .tick _, _ => none

/-- The operations of any number of threads on an arena. -/
def arenaSystem (Tid : Type) [DecidableEq Tid] (a : Arena) (strips : Bool) :
    System ArenaAct Tid ArenaOp ArenaOp.Res (ArenaShared Tid) where
  exec t e s choice := s.exec a.chunkCount strips t e choice
  prog
    | _, .allocSlices n tseq => a.allocSlices n tseq
    | _, .freeSlices idx n => a.freeSlices idx n
    | _, .maybePurge force => a.maybePurge force
    | _, .write _ _ _ | _, .setOption _ _ | _, .tick _ => .ret ()
  start
    | _, .allocSlices _ _, s | _, .maybePurge _, s => some s
    | t, .freeSlices idx n, s => ((s.bits .free).giveBack t idx n).map (s.withBits .free)
    | t, .write idx off v, s =>
      if ∃ r ∈ (s.bits .free).held t, r.1 ≤ idx ∧ idx < r.1 + r.2 then
        some { s with region := s.region.write idx off v }
      else none
    | _, .setOption o v, s => some { s with opts := Function.update s.opts o v }
    | _, .tick now, s => some { s with now := now }
  finish t o r s :=
    match o.claimed r with
    | some (idx, n) => s.withBits .free ((s.bits .free).keep t idx n)
    | none => s

end MimallocRs
