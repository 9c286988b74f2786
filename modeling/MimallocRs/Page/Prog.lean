import MimallocRs.Page.Basic
import MimallocRs.Foundations.Interleave.Prog

/-!
# The page functions as programs

The functions of `page.rs` that touch an atomic field, and those that call them. Each access to
`xthread_free` or `xthread_id` is an event of its own, and so is each stretch of owner-only code
between two such accesses, under the name it has in `Page/Basic.lean`. A weak compare-exchange may
fail without reason.
-/

namespace MimallocRs

open Interleave

/-- The events on one page. -/
inductive PageAct : Type → Type
  /-- `xthread_free.load`. -/
  | load : PageAct Tf
  /-- `xthread_free.compare_exchange` or its weak form: whether the word was exchanged. -/
  | cas (weak : Bool) (expected new : Tf) : PageAct Bool
  /-- `set_next` by a thread that pushes its block `b`. -/
  | setNext (b : Blk) (n : Option Blk) : PageAct Unit
  /-- `xthread_id.load`. -/
  | loadId : PageAct ℕ
  /-- `xthread_id.compare_exchange_weak`: the value seen when it fails. -/
  | casId (expected new : ℕ) : PageAct (Option ℕ)
  /-- The owner reads the head of `free`. -/
  | free : PageAct (Option Blk)
  /-- `Page::is_all_free`. -/
  | isAllFree : PageAct Bool
  /-- The test `used == 1` of `Page::collect_partly`. -/
  | usedIsOne : PageAct Bool
  /-- The owner compares `capacity` with `reserved`. -/
  | atCapacity : PageAct Bool
  /-- The owner clears `free_is_zero`. -/
  | clearZero : PageAct Unit
  | splice (tf : Blk) : PageAct (Option Blk)
  | adoptLocal : PageAct Unit
  | extendFree : PageAct Unit
  | pop (b : Blk) : PageAct Unit
  | freeLocal (b : Blk) : PageAct Unit
  | collectBehind (head : Blk) : PageAct Unit
  /-- The page's bit in the abandoned registry of its arena is set. -/
  | register : PageAct Unit
  /-- The page's bit in the abandoned registry of its arena is cleared. -/
  | unregister : PageAct Unit
  /-- The page is unmapped and its slices are returned to the arena. -/
  | release : PageAct Unit

namespace Page

open Prog

/-- `Page::thread_free_push`: whether the push claimed the page. -/
def threadFreePush (b : Blk) : Prog PageAct Bool :=
  iterate (fun _ : Unit => do
    let cur ← perform .load
    perform (.setNext b cur.block)
    if ← perform (.cas true cur ⟨some b, true⟩) then return .inr (!cur.owned) else return .inl ()) ()

/-- The capturing loop of `Page::collect`: the captured chain, if anything was queued. -/
def capture : Prog PageAct (Option Blk) :=
  iterate (fun _ : Unit => do
    let tfree ← perform .load
    match tfree.block with
    | none => return .inr none
    | some tf =>
      if ← perform (.cas true tfree ⟨none, tfree.owned⟩) then return .inr (some tf)
      else return .inl ()) ()

/-- The loop of `Page::collect` that moves the captured chain to `free`. -/
def spliceAll (tf : Blk) : Prog PageAct Unit :=
  iterate (fun tf => do
    match ← perform (.splice tf) with
    | none => return .inr ()
    | some tf => return .inl tf) tf

/-- `Page::collect`. -/
def collect : Prog PageAct Unit := do
  match ← capture with
  | none => pure ()
  | some tf =>
    perform .clearZero
    spliceAll tf
  perform .adoptLocal

/-- `Page::alloc_slow`. -/
def allocSlow : Prog PageAct (Option Blk) := do
  collect
  match ← perform .free with
  | some b =>
    perform (.pop b)
    return some b
  | none =>
    perform .extendFree
    match ← perform .free with
    | none => return none
    | some b =>
      perform (.pop b)
      return some b

/-- `Page::alloc`. -/
def alloc : Prog PageAct (Option Blk) := do
  match ← perform .free with
  | none => allocSlow
  | some b =>
    perform (.pop b)
    return some b

/-- `Page::claim_ownership`. -/
def claimOwnership : Prog PageAct Bool :=
  iterate (fun _ : Unit => do
    let cur ← perform .load
    if cur.owned then return .inr false
    else if ← perform (.cas true cur ⟨cur.block, true⟩) then return .inr true
    else return .inl ()) ()

/-- `Page::try_unown`. -/
def tryUnown : Prog PageAct Bool := perform (.cas false ⟨none, true⟩ ⟨none, false⟩)

/-- `Page::set_unowned`. -/
def setUnowned : Prog PageAct Unit :=
  iterate (fun _ : Unit => do
    let cur ← perform .load
    if ← perform (.cas true cur ⟨cur.block, false⟩) then return .inr () else return .inl ()) ()

/-- `Page::set_owner`: restamp the owner id, keeping the flags. -/
def setOwner (tid : ℕ) : Prog PageAct Unit := do
  let old ← perform .loadId
  iterate (fun old => do
    match ← perform (.casId old (tid + old % (miPageFlagMask + 1))) with
    | none => return .inr ()
    | some seen => return .inl seen) old

/-- `Page::is_full`, which collects before it answers. -/
def isFull : Prog PageAct Bool := do
  match ← perform .free with
  | some _ => return false
  | none =>
    collect
    match ← perform .free with
    | some _ => return false
    | none => perform .atCapacity

/-- `Page::collect_partly`. -/
def collectPartly (head : Blk) : Prog PageAct Unit := do
  perform (.collectBehind head)
  if ← perform .usedIsOne then collect

/-- `Page::is_abandoned_mapped`. -/
def isAbandonedMapped : Prog PageAct Bool := do
  let id ← perform .loadId
  return id - id % (miPageFlagMask + 1) == miThreadidAbandonedMapped

/-! ## Handing a page off and taking it over -/

/-- `unabandon_if_mapped`. -/
def unabandonIfMapped : Prog PageAct Unit := do
  if ← isAbandonedMapped then perform .unregister

/-- How a round of `free_try_collect_mt` collects: partly in the first round of a small page. -/
def collectRound (partly : Bool) (mtFree : Blk) : Prog PageAct Unit :=
  if partly then collectPartly mtFree else collect

/-- The second step of `free_try_collect_mt`: register a page that has room. -/
def reabandonMapped : Prog PageAct Unit := do
  if !(← isFull) then
    if !(← isAbandonedMapped) then
      perform .register
      setOwner miThreadidAbandonedMapped

/-- `free_try_collect_mt`, run by a thread whose push of `mtFree` has claimed the page. -/
def freeTryCollectMt (small : Bool) (mtFree : Blk) : Prog PageAct Unit :=
  iterate (fun first => do
    collectRound (first && small) mtFree
    if ← perform .isAllFree then
      unabandonIfMapped
      perform .release
      return .inr ()
    else
      reabandonMapped
      if ← tryUnown then return .inr () else return .inl false) true

/-- The cross-thread arm of `free_cold`: push the block, and tidy the page up if that claimed
it. -/
def freeMt (small : Bool) (b : Blk) : Prog PageAct Unit := do
  if ← threadFreePush b then freeTryCollectMt small b

/-- `abandon_owned_page`. -/
def abandonOwnedPage : Prog PageAct Unit := do
  collect
  if ← perform .isAllFree then perform .release
  else if ← isFull then
    setOwner miThreadidAbandoned
    setUnowned
  else
    perform .register
    setOwner miThreadidAbandonedMapped
    setUnowned

/-- What a reclaimer does with a page whose registry bit it has seen: claim it, clear the bit, and
on success make the page its own (`try_find_and_claim`, `ThreadHeap::try_reclaim`). -/
def reclaim (tid : ℕ) : Prog PageAct Bool := do
  if ← claimOwnership then
    perform .unregister
    setOwner tid
    perform .clearZero
    collect
    return true
  else return false

end Page

end MimallocRs
