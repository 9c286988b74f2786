import MimallocRs.Client.Area
import MimallocRs.Page.Prog

/-!
# Allocating from and freeing into a page

The functions of `heap.rs` as they run on one page: allocation with alignment and zeroing, the
dispatch of `free`, and the owner's sweeps. They call the page functions of `Page/Prog.lean`, whose
events they share; the events added here are the lookup of a pointer in the page map, the flag of
interior pointers, the reads and writes of memory, and the decision of a theap to keep an empty
page. An address that is to be used as a block but is not the start of one is the event `offGrid`.
-/

namespace MimallocRs

open Interleave Prog

/-- `current_tid` of the thread that has been the `n`-th to ask for its id. The counter starts at 2
and does not wrap. -/
def currentTid (n : ℕ) : ℕ := (n + 2) * 4

theorem currentTid_mod (t : ℕ) : currentTid t % 4 = 0 := Nat.mul_mod_left _ _

theorem currentTid_inj {t u : ℕ} (hu : currentTid t = currentTid u) : t = u := by
  unfold currentTid at hu
  omega

theorem xor_eq_zero {a b : ℕ} : a ^^^ b = 0 ↔ a = b := by
  constructor
  · intro h
    apply Nat.eq_of_testBit_eq
    intro i
    have hi := congrArg (·.testBit i) h
    simpa [Nat.testBit_xor] using hi
  · rintro rfl
    exact Nat.xor_self a

/-- The word on which `free` dispatches is below the flag mask if and only if the page carries the
id of the thread. -/
theorem xor_div {tid raw : ℕ} : (tid ^^^ raw) / 4 = 0 ↔ tid / 4 = raw / 4 := by
  have h := Nat.shiftRight_xor_distrib (a := tid) (b := raw) (i := 2)
  simp only [Nat.shiftRight_eq_div_pow] at h
  show (tid ^^^ raw) / 2 ^ 2 = 0 ↔ _
  rw [h, xor_eq_zero]

/-- The word on which `free` dispatches has the flags of the page. -/
theorem xor_mod {tid raw : ℕ} (ht : tid % 4 = 0) : (tid ^^^ raw) % 4 = raw % 4 := by
  have h := Nat.xor_mod_two_pow (a := tid) (b := raw) (n := 2)
  rw [show tid % 2 ^ 2 = 0 from ht, Nat.zero_xor] at h
  exact h

/-- Zeroed requests up to this size are zeroed without a look at the page. -/
def zeroViaPageMin : ℕ := 4096

/-- The events on one page and its blocks. -/
inductive ClientAct (β : Type) : Type
  | page (e : PageAct β)
  /-- `page_map::lookup`: whether the page was found. -/
  | lookup (a : ℕ) (answer : Bool → β)
  /-- `Page::set_has_interior`. -/
  | setHasInterior (answer : Unit → β)
  /-- `Page::zero_block` reads `free_is_zero`. -/
  | freeIsZero (answer : Bool → β)
  /-- `write_bytes(a, 0, n)`. -/
  | writeZero (a n : ℕ) (answer : Unit → β)
  /-- `retire_page` or `collect_retired` keeps the empty page. -/
  | keeps (answer : Bool → β)
  /-- An address that is not the start of a block is used as one. -/
  | offGrid (answer : Unit → β)

namespace ClientAct

/-- `page_map::lookup`. -/
abbrev find (a : ℕ) : ClientAct Bool := lookup a id

end ClientAct

namespace Client

open ClientAct

variable (ar : Area)

/-- A program of the page. -/
def onPage {α : Type} (p : Prog PageAct α) : Prog ClientAct α := p.hoist .page

/-- Use an address as a block. -/
def withBlock (a : ℕ) (f : Blk → Prog ClientAct Unit) : Prog ClientAct Unit :=
  match ar.blockAt a with
  | some b => f b
  | none => perform (.offGrid id)

/-- Look the page of a block up that has just been allocated. -/
def withPage (p : ℕ) (f : Prog ClientAct Unit) : Prog ClientAct Unit := do
  if ← perform (find p) then f else perform (.offGrid id)

/-! ## Allocating -/

/-- `ThreadHeap::alloc`, served by this page: `Page::alloc`, or the block that `alloc_huge` has
served from the fresh page. -/
def alloc : Prog ClientAct (Option ℕ) :=
  if ar.huge then return some (ar.blockStart 0)
  else do
    let b ← onPage Page.alloc
    return b.map ar.blockStart

/-- `ThreadHeap::alloc_aligned`. -/
def allocAligned (size align : ℕ) : Prog ClientAct (Option ℕ) :=
  if align ≤ miIntptrSize then alloc ar
  else if usizeRange ≤ size + (align - 1) then return none
  else do
    match ← alloc ar with
    | none => return none
    | some p =>
      let aligned := alignUp p align
      if aligned ≠ p then withPage p (perform (.setHasInterior id))
      return some aligned

/-- `Page::zero_block`. -/
def zeroBlock (p : ℕ) : Prog ClientAct Unit := do
  if ← perform (.freeIsZero id) then
    if ar.huge then return ()
    else perform (.writeZero p miIntptrSize id)
  else perform (.writeZero p ar.blockSize id)

/-- `ThreadHeap::alloc_zeroed`. -/
def allocZeroed (size : ℕ) : Prog ClientAct (Option ℕ) := do
  match ← alloc ar with
  | none => return none
  | some p =>
    if zeroViaPageMin < size then withPage p (zeroBlock ar p)
    else perform (.writeZero p size id)
    return some p

/-- `ThreadHeap::alloc_zeroed_aligned`. -/
def allocZeroedAligned (size align : ℕ) : Prog ClientAct (Option ℕ) :=
  if align ≤ miIntptrSize then allocZeroed ar size
  else do
    match ← allocAligned ar size align with
    | none => return none
    | some p =>
      perform (.writeZero p size id)
      return some p

/-- The request with which `alloc_aligned` calls `alloc`. -/
def requestOf (size align : ℕ) : ℕ :=
  if align ≤ miIntptrSize then size else size + (align - 1)

/-! ## Freeing -/

/-- `retire_page` of an empty page, and what `collect` and `collect_retired` do with one: keep it,
or release it. -/
def retirePage : Prog ClientAct Unit := do
  if ← perform (.keeps id) then return () else onPage (perform .release)

/-- The owner's arm of `free`: put the block on `local_free`, and retire the page if it is empty. -/
def freeOwned (a : ℕ) : Prog ClientAct Unit :=
  withBlock ar a fun b => do
    onPage (perform (.freeLocal b))
    if ← onPage (perform .isAllFree) then retirePage

/-- `free_cold`. -/
def freeCold (p xtid : ℕ) : Prog ClientAct Unit :=
  if xtid - xtid % (miPageFlagMask + 1) = 0 then freeOwned ar (ar.recoverBlockStart p)
  else
    withBlock ar (if xtid % (miPageFlagMask + 1) = 0 then p else ar.recoverBlockStart p) fun b =>
      onPage (Page.freeMt (ar.blockSize ≤ miSmallSizeMax) b)

/-- `free`, by a thread with the id `tid`. -/
def free (tid p : ℕ) : Prog ClientAct Unit := do
  if ← perform (find p) then
    let raw ← onPage (perform .loadId)
    let xtid := tid ^^^ raw
    if xtid = 0 then freeOwned ar p else freeCold ar p xtid

/-! ## Sweeping -/

/-- What `ThreadHeap::collect` does with a page. -/
def collect : Prog ClientAct Unit := do
  onPage Page.collect
  if ← onPage (perform .isAllFree) then retirePage

/-- What `collect_retired` does with a page whose countdown runs. -/
def collectRetired : Prog ClientAct Unit := do
  if ← onPage (perform .isAllFree) then retirePage

end Client

end MimallocRs
