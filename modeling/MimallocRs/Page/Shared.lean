import MimallocRs.Page.Prog
import MimallocRs.Foundations.Interleave.System

/-!
# One page shared by any number of threads

`Shared` is a page together with a history that no program reads: the blocks handed out, those
being freed, the queue the cross-thread list stands for, the chain a collect has captured, who
holds the page, and how often each thread has made the word owned. `machine` executes the events
of `Page/Prog.lean` and keeps the history.

Two systems run on it. In `pageSystem` the threads call the functions of `page.rs` in any order
the callers' contracts allow: the functions marked owner-only are called by a thread that has been
told it owns the page, a block is freed by a thread that takes it from the live blocks. In
`abandonSystem` they run the allocator's operations on the page, thread exit and the claiming
free included.
-/

namespace MimallocRs

open Interleave

/-- A page and its history. -/
structure Shared (Tid : Type) where
  page : Page
  /-- The page is listed in the abandoned registry of its arena. -/
  registered : Bool
  /-- The slices of the page have been returned to the arena. -/
  released : Bool
  /-- History: the blocks handed out and not being freed. -/
  live : List Blk
  /-- History: the block a thread is freeing and has not yet put on a list. -/
  freeing : Tid → Option Blk
  /-- History: the blocks pushed and not captured, last one first. -/
  queue : List Blk
  /-- History: the captured blocks that the owner has not yet put on `free`. -/
  captured : List Blk
  /-- History: the thread that made the word owned, until the word is made unowned. -/
  holder : Option Tid
  /-- History: a thread has been told that it owns the page and has not given it up. -/
  told : Tid → Bool
  /-- History: how often a thread has made the word owned. -/
  gains : Tid → ℕ
  /-- History: how often a call has told a thread that it made the word owned. -/
  reports : Tid → ℕ
  /-- History: a thread that is giving the page up has found that not all blocks are free. -/
  tested : Tid → Bool

namespace Shared

variable {Tid : Type} [DecidableEq Tid]

/-- A block is outstanding while it is live or being freed. -/
def Outstanding (s : Shared Tid) (b : Blk) : Prop := b ∈ s.live ∨ ∃ t, s.freeing t = some b

/-- The head word is exchanged for `n`. -/
def setWord (s : Shared Tid) (n : Tf) : Shared Tid :=
  { s with page := { s.page with xthreadFree := n } }

/-- The block `b` that `t` is freeing is queued. -/
def publish (s : Shared Tid) (t : Tid) (b : Blk) : Shared Tid :=
  { s with queue := b :: s.queue, freeing := Function.update s.freeing t none }

/-- The queue is captured. -/
def capture (s : Shared Tid) : Shared Tid := { s with queue := [], captured := s.queue }

/-- Thread `t` makes the word owned. -/
def gain (s : Shared Tid) (t : Tid) : Shared Tid :=
  { s with holder := some t, gains := Function.update s.gains t (s.gains t + 1) }

/-- Thread `t` makes the word unowned. -/
def lose (s : Shared Tid) (t : Tid) : Shared Tid :=
  { s with holder := none
           told := Function.update s.told t false
           tested := Function.update s.tested t false }

/-- The block of the head word is exchanged: a new block is queued, the empty one captures. -/
def moveBlock (s : Shared Tid) (t : Tid) (e n : Option Blk) : Shared Tid :=
  if n = e then s else
    match n with
    | none => s.capture
    | some b => s.publish t b

/-- The ownership bit of the head word is exchanged. -/
def moveOwner (s : Shared Tid) (t : Tid) : Bool → Bool → Shared Tid
  | false, true => s.gain t
  | true, false => s.lose t
  | _, _ => s

/-- Thread `t` exchanges the word `e` of the cross-thread list for `n`. -/
def exchange (s : Shared Tid) (t : Tid) (e n : Tf) : Shared Tid :=
  ((s.setWord n).moveBlock t e.block n.block).moveOwner t e.owned n.owned

theorem moveOwner_kept (s : Shared Tid) (t : Tid) (o o' : Bool) : (s.moveOwner t o o').page = s.page ∧
    (s.moveOwner t o o').queue = s.queue ∧ (s.moveOwner t o o').captured = s.captured := by
  cases o <;> cases o' <;> exact ⟨rfl, rfl, rfl⟩

theorem moveBlock_kept (s : Shared Tid) (t : Tid) (h h' : Option Blk) : (s.moveBlock t h h').page = s.page ∧
    (s.moveBlock t h h').holder = s.holder ∧ (s.moveBlock t h h').gains = s.gains := by
  unfold moveBlock
  split
  · exact ⟨rfl, rfl, rfl⟩
  · split <;> exact ⟨rfl, rfl, rfl⟩

theorem exchange_reports (s : Shared Tid) (t : Tid) (e n : Tf) :
    (s.exchange t e n).reports = s.reports := by
  have howner : ∀ (s : Shared Tid) o o', (s.moveOwner t o o').reports = s.reports := fun s o o' => by
    cases o <;> cases o' <;> rfl
  rw [exchange, howner]
  unfold moveBlock
  split
  · rfl
  · split <;> rfl

section Exchange

variable {s : Shared Tid} {t : Tid} {e : Tf} {b : Blk}

theorem exchange_push_owned (hne : e.block ≠ some b) (ho : e.owned = true) :
    s.exchange t e ⟨some b, true⟩ = (s.setWord ⟨some b, true⟩).publish t b := by
  simp [exchange, moveBlock, moveOwner, hne.symm, ho]

theorem exchange_push_unowned (hne : e.block ≠ some b) (ho : e.owned = false) :
    s.exchange t e ⟨some b, true⟩ = ((s.setWord ⟨some b, true⟩).publish t b).gain t := by
  simp [exchange, moveBlock, moveOwner, hne.symm, ho]

theorem exchange_capture (hb : e.block = some b) :
    s.exchange t e ⟨none, e.owned⟩ = (s.setWord ⟨none, e.owned⟩).capture := by
  cases ho : e.owned <;> simp [exchange, moveBlock, moveOwner, hb, ho]

theorem exchange_claim (ho : e.owned = false) :
    s.exchange t e ⟨e.block, true⟩ = (s.setWord ⟨e.block, true⟩).gain t := by
  simp [exchange, moveBlock, moveOwner, ho]

theorem exchange_unown (ho : e.owned = true) :
    s.exchange t e ⟨e.block, false⟩ = (s.setWord ⟨e.block, false⟩).lose t := by
  simp [exchange, moveBlock, moveOwner, ho]

end Exchange

/-- The events on a page. -/
def exec {β : Type} (t : Tid) (e : PageAct β) (s : Shared Tid) (choice : ℕ) :
    Option (β × Shared Tid) :=
  match e with
  | .load => some (s.page.xthreadFree, s)
  | .cas weak e n =>
    if s.page.xthreadFree = e ∧ (weak = true → choice = 0) then some (true, s.exchange t e n)
    else if weak then some (false, s)
    else some (false, { s with tested := Function.update s.tested t false })
  | .setNext b n =>
    some ((), { s with page := { s.page with next := Function.update s.page.next b n } })
  | .loadId => some (s.page.xthreadId, s)
  | .casId e n =>
    if s.page.xthreadId = e ∧ choice = 0 then
      some (none, { s with page := { s.page with xthreadId := n } })
    else some (some s.page.xthreadId, s)
  | .free => some (s.page.free, s)
  | .isAllFree =>
    some (s.page.used == 0, { s with tested := Function.update s.tested t (s.page.used != 0) })
  | .usedIsOne => some (s.page.used == 1, s)
  | .atCapacity => some (s.page.atCapacity, s)
  | .clearZero => some ((), { s with page := { s.page with freeIsZero := false } })
  | .splice tf =>
    some ((s.page.splice tf).1,
      { s with page := (s.page.splice tf).2, captured := s.captured.tail })
  | .adoptLocal => some ((), { s with page := s.page.adoptLocal })
  | .extendFree => some ((), { s with page := s.page.extendFree })
  | .pop b => some ((), { s with page := s.page.pop b, live := b :: s.live })
  | .freeLocal b =>
    some ((), { s with page := s.page.freeLocal b
                       freeing := Function.update s.freeing t none
                       tested := Function.update s.tested t false })
  | .collectBehind head =>
    some ((), { s with page := s.page.collectBehind head
                       queue := s.queue.takeWhile (· ≠ head) ++ [head]
                       tested := Function.update s.tested t false })
  | .register => some ((), { s with registered := true })
  | .unregister => some ((), { s with registered := false })
  | .release => some ((), { s with released := true })

/-- A thread takes a live block to free it. -/
def take (s : Shared Tid) (t : Tid) (b : Blk) : Option (Shared Tid) :=
  if b ∈ s.live then
    some { s with live := s.live.erase b, freeing := Function.update s.freeing t (some b) }
  else none

/-- A call that needs ownership, by a thread that has been told it owns the page. -/
def asOwner (s : Shared Tid) (t : Tid) : Option (Shared Tid) :=
  if s.told t ∧ s.released = false then some s else none

/-- A call has told thread `t` that it made the word owned. -/
def report (s : Shared Tid) (t : Tid) : Shared Tid :=
  { s with told := Function.update s.told t true
           reports := Function.update s.reports t (s.reports t + 1) }

/-- A fresh page of the thread `o`. -/
def fresh (o : Tid) (p : Page) (live : List Blk) : Shared Tid where
  page := p
  registered := false
  released := false
  live := live
  freeing := fun _ => none
  queue := []
  captured := []
  holder := some o
  told := fun t => t = o
  gains := fun _ => 0
  reports := fun _ => 0
  tested := fun _ => false

/-- A page as it is when its owner first uses it: initialised over some slices with no block
threaded, or a huge page whose block has been handed out. -/
inductive Init : Shared Tid → Prop
  | small (o : Tid) (sliceCount blockSize tid : ℕ) (isZero : Bool) :
    Init (fresh o (Page.init sliceCount blockSize tid isZero) [])
  | huge (o : Tid) (blockSize tid : ℕ) (isZero : Bool) :
    Init (fresh o (Page.initHuge blockSize tid isZero).serveHuge [0])

end Shared

/-- The events of one page. -/
def machine (Tid : Type) [DecidableEq Tid] : Machine PageAct Tid (Shared Tid) where
  exec t e s choice := s.exec t e choice

variable (Tid : Type) [DecidableEq Tid]

/-! ## The functions of a page -/

/-- The calls on a page. -/
inductive PageOp
  | alloc | freeLocal (b : Blk) | collect | push (b : Blk) | claim | tryUnown | setUnowned
  deriving DecidableEq

/-- What the calls return. -/
abbrev PageOp.Res : PageOp → Type
  | .alloc => Option Blk
  | .freeLocal _ | .collect | .setUnowned => Unit
  | .push _ | .claim | .tryUnown => Bool

/-- The call has told its caller that it made the page's word owned. -/
def PageOp.claimed : (o : PageOp) → o.Res → Bool
  | .push _, r | .claim, r => r
  | .alloc, _ | .freeLocal _, _ | .collect, _ | .tryUnown, _ | .setUnowned, _ => false

/-- The functions of a page, called by any number of threads. -/
def pageSystem : System PageAct Tid PageOp PageOp.Res (Shared Tid) where
  toMachine := machine Tid
  prog
    | _, .alloc => Page.alloc
    | _, .freeLocal b => Prog.perform (.freeLocal b)
    | _, .collect => Page.collect
    | _, .push b => Page.threadFreePush b
    | _, .claim => Page.claimOwnership
    | _, .tryUnown => Page.tryUnown
    | _, .setUnowned => Page.setUnowned
  start
    | t, .alloc, s | t, .collect, s | t, .tryUnown, s | t, .setUnowned, s => s.asOwner t
    | t, .freeLocal b, s => (s.asOwner t).bind (·.take t b)
    | t, .push b, s => s.take t b
    | _, .claim, s => some s
  finish t o r s := if o.claimed r then s.report t else s

/-! ## The allocator's operations on a page -/

/-- The operations of threads on a page. -/
inductive AbandonOp
  | alloc | freeLocal (b : Blk) | collect | exit | free (b : Blk) | reclaim (tid : ℕ)
  deriving DecidableEq

/-- What the operations return. -/
abbrev AbandonOp.Res : AbandonOp → Type
  | .alloc => Option Blk
  | .freeLocal _ | .collect | .exit | .free _ => Unit
  | .reclaim _ => Bool

/-- The operation has made the page its caller's. -/
def AbandonOp.claimed : (o : AbandonOp) → o.Res → Bool
  | .reclaim _, r => r
  | .alloc, _ | .freeLocal _, _ | .collect, _ | .exit, _ | .free _, _ => false

/-- The operations on a page of blocks of `blockSize` bytes, by any number of threads: its owner
allocates, frees, collects and exits, any thread frees into it, a reclaimer may take it over. -/
def abandonSystem (blockSize : ℕ) :
    System PageAct Tid AbandonOp AbandonOp.Res (Shared Tid) where
  toMachine := machine Tid
  prog
    | _, .alloc => Page.alloc
    | _, .freeLocal b => Prog.perform (.freeLocal b)
    | _, .collect => Page.collect
    | _, .exit => Page.abandonOwnedPage
    | _, .free b => Page.freeMt (blockSize ≤ miSmallSizeMax) b
    | _, .reclaim tid => Page.reclaim tid
  start
    | t, .alloc, s | t, .collect, s | t, .exit, s => s.asOwner t
    | t, .freeLocal b, s => (s.asOwner t).bind (·.take t b)
    | t, .free b, s => s.take t b
    | _, .reclaim _, s => if s.released then none else some s
  finish t o r s := if o.claimed r then s.report t else s

end MimallocRs
