import MimallocRs.Bitmap.Prog
import Mathlib.Data.Int.Order.Basic

/-!
# The slices of an arena

The functions of `arena.rs` that hand out, take back and purge slices, as programs. An arena has
four bitmaps over its slices; an event on one of them is an event of its words. The operating
system, the options and the clock are asked by events of their own. What purging does to the
contents of memory is not modelled.
-/

namespace MimallocRs

open Interleave Prog

/-- `chunks_for`. -/
def chunksFor (sliceCount : ℕ) : ℕ := max ((sliceCount + chunkBits - 1) / chunkBits) 1

/-- The fields of an arena that do not change: `Arena::create` makes no arena of more chunks than a
chunkmap has bits. -/
structure Arena where
  start : ℕ
  sliceCount : ℕ
  chunkCount : ℕ
  isPinned : Bool
  initiallyZero : Bool
  sliceCount_pos : 0 < sliceCount
  chunkCount_eq : chunkCount = chunksFor sliceCount
  chunkCount_le : chunkCount ≤ chunkBits

/-- The bitmaps over the slices of an arena. -/
inductive BitmapId
  /-- Set: free. -/
  | free
  /-- Set: committed. -/
  | commit
  /-- Set: scheduled for purge. -/
  | purge
  /-- Set: has been handed out at least once. -/
  | dirty
  deriving DecidableEq

/-- The options that are read. -/
inductive Opt
  | purgeDecommits | purgeDelay | arenaPurgeMult
  deriving DecidableEq

/-- `Opt::default_value`. -/
def Opt.defaultValue : Opt → ℤ
  | .purgeDecommits => 1
  | .purgeDelay => 1000
  | .arenaPurgeMult => 1

/-- The events on an arena. -/
inductive ArenaAct : Type → Type
  /-- Load a word of a bitmap. -/
  | load (b : BitmapId) (l : Loc) : ArenaAct (BitVec 64)
  /-- Exchange a word of a bitmap: the word seen when that fails. -/
  | cas (b : BitmapId) (l : Loc) (old new : BitVec 64) : ArenaAct (Option (BitVec 64))
  /-- `os::commit`: whether it succeeded. -/
  | osCommit (idx n : ℕ) : ArenaAct Bool
  /-- `os::decommit`. -/
  | osDecommit (idx n : ℕ) : ArenaAct Unit
  /-- `os::reset`. -/
  | osReset (idx n : ℕ) : ArenaAct Unit
  /-- `options::get`. -/
  | option (o : Opt) : ArenaAct ℤ
  /-- `clock_now_msecs`. -/
  | clock : ArenaAct ℤ
  /-- Load `purge_expire`. -/
  | loadExpire : ArenaAct ℤ
  /-- Store `purge_expire`. -/
  | storeExpire (n : ℤ) : ArenaAct Unit
  /-- Exchange `purge_expire`: whether it succeeded. -/
  | casExpire (e n : ℤ) : ArenaAct Bool

/-- An event on one of the bitmaps. -/
def BitAct.of (b : BitmapId) : {β : Type} → BitAct β → ArenaAct β
  | _, .load l => .load b l
  | _, .cas l old new => .cas b l old new

/-- A function of a bitmap, called on one of the bitmaps. -/
def onBits {α : Type} (b : BitmapId) (p : Prog BitAct α) : Prog ArenaAct α := p.hoist (BitAct.of b)

/-- `i64::saturating_mul`. -/
def saturatingMul (x y : ℤ) : ℤ := max (-2 ^ 63) (min (2 ^ 63 - 1) (x * y))

/-- `i64::saturating_add`. -/
def saturatingAdd (x y : ℤ) : ℤ := max (-2 ^ 63) (min (2 ^ 63 - 1) (x + y))

/-- `options::arena_purge_delay`. -/
def arenaPurgeDelay : Prog ArenaAct ℤ := do
  let delay ← perform (.option .purgeDelay)
  let mult ← perform (.option .arenaPurgeMult)
  return saturatingMul delay (max mult 1)

/-- `os::purge_ex`: whether the slices need to be committed again before use. -/
def purgeEx (idx n : ℕ) (allowReset : Bool) : Prog ArenaAct Bool := do
  if (← perform (.option .purgeDelay)) < 0 then return false
  else if (← perform (.option .purgeDecommits)) ≠ 0 then
    perform (.osDecommit idx n)
    return true
  else if allowReset then
    perform (.osReset idx n)
    return false
  else return false

namespace Arena

/-- `Arena::slice_ptr`. -/
def slicePtr (a : Arena) (idx : ℕ) : ℕ := a.start + idx * miArenaSliceSize

/-- `Arena::slice_index_of`. -/
def sliceIndexOf (a : Arena) (ptr : ℕ) : Option ℕ :=
  if ptr < a.start ∨ a.start + a.sliceCount * miArenaSliceSize ≤ ptr then none
  else some ((ptr - a.start) / miArenaSliceSize)

/-- The first slice past the run of slices that are scheduled for purge, from slice `e` on and
within the field that ends at `fieldEnd`. -/
def purgeEnd (a : Arena) (fieldEnd e : ℕ) : Prog ArenaAct ℕ :=
  iterate (fun e => do
    if e < a.sliceCount ∧ e < fieldEnd then
      if ← onBits .purge (Bitmap.isSet e) then return .inl (e + 1) else return .inr e
    else return .inr e) e

/-- What `Arena::run_purge` does with the slices `[idx, idx + n)`, which are scheduled for purge:
whether it purged them. -/
def purgeRun (idx n : ℕ) : Prog ArenaAct Bool := do
  if ← onBits .free (Bitmap.clearN idx n) then
    let allCommitted ← onBits .commit (Bitmap.isSetN idx n)
    if ← purgeEx idx n allCommitted then
      let _ ← onBits .commit (Bitmap.clearN idx n)
      let _ ← onBits .dirty (Bitmap.clearN idx n)
      let _ ← onBits .free (Bitmap.setN idx n)
      return true
    else
      let _ ← onBits .free (Bitmap.setN idx n)
      return true
  else return false

/-- `Arena::run_purge`. -/
def runPurge (a : Arena) : Prog ArenaAct Bool :=
  iterate (fun (purged, idx) => do
    if idx < a.sliceCount then
      if ← onBits .purge (Bitmap.isSet idx) then
        let e ← a.purgeEnd ((idx / fieldBits + 1) * fieldBits) (idx + 1)
        let did ← purgeRun idx (e - idx)
        let _ ← onBits .purge (Bitmap.clearN idx (e - idx))
        return .inl (purged || did, e)
      else return .inl (purged, idx + 1)
    else return .inr purged) (false, 0)

/-- `Arena::schedule_purge`. -/
def schedulePurge (a : Arena) (idx n : ℕ) : Prog ArenaAct Unit := do
  let delay ← arenaPurgeDelay
  if delay < 0 ∨ a.isPinned then return ()
  else
    let _ ← onBits .purge (Bitmap.setN idx n)
    if delay = 0 then
      let _ ← a.runPurge
      return ()
    else
      let now ← perform .clock
      let _ ← perform (.casExpire 0 (saturatingAdd now delay))
      return ()

/-- `Arena::maybe_purge`. -/
def maybePurge (a : Arena) (force : Bool) : Prog ArenaAct Bool := do
  if a.isPinned then return false
  else if force then
    perform (.storeExpire 0)
    a.runPurge
  else
    let expire ← perform .loadExpire
    if expire = 0 then return false
    else if expire > (← perform .clock) then return false
    else if ← perform (.casExpire expire 0) then a.runPurge
    else return false

/-- `Arena::free_slices`. -/
def freeSlices (a : Arena) (idx n : ℕ) : Prog ArenaAct Unit := do
  let _ ← onBits .free (Bitmap.setN idx n)
  a.schedulePurge idx n

/-- `Arena::ensure_committed`. -/
def ensureCommitted (idx n : ℕ) : Prog ArenaAct Bool := do
  if ← onBits .commit (Bitmap.isSetN idx n) then return true
  else if ← perform (.osCommit idx n) then
    let _ ← onBits .commit (Bitmap.setN idx n)
    return true
  else return false

/-- `Arena::alloc_slices`: the first slice, its address, and whether the slices are zero. -/
def allocSlices (a : Arena) (n tseq : ℕ) : Prog ArenaAct (Option (ℕ × ℕ × Bool)) := do
  match ← onBits .free (Bitmap.tryFindAndClearN a.chunkCount n tseq) with
  | none => return none
  | some idx =>
    if ← ensureCommitted idx n then
      if a.initiallyZero then
        let wasClean ← onBits .dirty (Bitmap.isClearN idx n)
        let _ ← onBits .dirty (Bitmap.setN idx n)
        return some (idx, a.slicePtr idx, wasClean)
      else
        let _ ← onBits .dirty (Bitmap.setN idx n)
        return some (idx, a.slicePtr idx, false)
    else
      a.freeSlices idx n
      return none

/-- What `Arena::create` does with the bitmaps of a new arena. -/
def initBitmaps (a : Arena) (commit : Bool) : Prog ArenaAct Unit := do
  onBits .free (Bitmap.unsafeSetN 0 a.sliceCount)
  if commit then onBits .commit (Bitmap.unsafeSetN 0 a.sliceCount) else pure ()
  if a.initiallyZero then pure () else onBits .dirty (Bitmap.unsafeSetN 0 a.sliceCount)

end Arena

end MimallocRs
