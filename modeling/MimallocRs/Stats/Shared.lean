import MimallocRs.Bits
import MimallocRs.Foundations.Interleave.System

/-!
# The statistics

The counters of `stats.rs`, with the feature on, updated by any number of threads: each atomic access
is an event. `CURRENT_BYTES` is decreased by a weak compare-exchange in a loop (`fetch_update`), and
the high-water mark is raised by another.

`statsSystem` records allocations and frees as `ThreadHeap::alloc` and `free` do: a free is recorded
for a block whose allocation has been recorded, with the same size. The blocks fit into the address
space.
-/

namespace MimallocRs

open Interleave Prog

/-- The counters. -/
inductive Counter
  | allocCount | freeCount | currentBytes | peakBytes | pagesCreated
  deriving DecidableEq

/-- The events on the counters. -/
inductive StatsAct : Type → Type
  /-- `fetch_add`: the value before. -/
  | fetchAdd (c : Counter) (n : ℕ) : StatsAct ℕ
  | load (c : Counter) : StatsAct ℕ
  /-- `compare_exchange_weak`: the value seen when that fails. -/
  | casWeak (c : Counter) (old new : ℕ) : StatsAct (Option ℕ)

/-- A snapshot of the counters. -/
structure Stats where
  allocations : ℕ
  frees : ℕ
  currentBytes : ℕ
  peakBytes : ℕ
  pagesCreated : ℕ

namespace Stats

/-- The loop of `on_alloc` that raises the high-water mark. -/
def raisePeak (cur peak : ℕ) : Prog StatsAct Unit :=
  iterate (fun peak => do
    if peak < cur then
      match ← perform (.casWeak .peakBytes peak cur) with
      | none => return .inr ()
      | some seen => return .inl seen
    else return .inr ()) peak

/-- `on_alloc`. -/
def onAlloc (size : ℕ) : Prog StatsAct Unit := do
  let _ ← perform (.fetchAdd .allocCount 1)
  let old ← perform (.fetchAdd .currentBytes size)
  let cur := min (old + size) (usizeRange - 1)
  let peak ← perform (.load .peakBytes)
  raisePeak cur peak

/-- `on_free`. -/
def onFree (size : ℕ) : Prog StatsAct Unit := do
  let _ ← perform (.fetchAdd .freeCount 1)
  let c ← perform (.load .currentBytes)
  iterate (fun c => do
    match ← perform (.casWeak .currentBytes c (c - size)) with
    | none => return .inr ()
    | some seen => return .inl seen) c

/-- `on_page_created`. -/
def onPageCreated : Prog StatsAct Unit := do
  let _ ← perform (.fetchAdd .pagesCreated 1)
  return ()

/-- `snapshot`. -/
def snapshot : Prog StatsAct Stats := do
  let allocations ← perform (.load .allocCount)
  let frees ← perform (.load .freeCount)
  let currentBytes ← perform (.load .currentBytes)
  let peakBytes ← perform (.load .peakBytes)
  let pagesCreated ← perform (.load .pagesCreated)
  return { allocations, frees, currentBytes, peakBytes, pagesCreated }

end Stats

/-- The counters, with a history that no program reads. -/
structure StatsMem where
  value : Counter → ℕ
  /-- History: the sizes of the blocks whose allocation has been recorded and of which no free is
  being recorded yet. -/
  returned : List ℕ
  /-- History: the bytes of these blocks and of those whose allocation or free is being recorded. -/
  bytes : ℕ
  /-- History: how many calls that count themselves in a counter have returned. -/
  done : Counter → ℕ
  /-- History: the highest value that `CURRENT_BYTES` has had. -/
  highest : ℕ

namespace StatsMem

/-- A counter is changed. -/
def set (s : StatsMem) (c : Counter) (v : ℕ) : StatsMem :=
  { s with
    value := Function.update s.value c v
    highest := if c = .currentBytes then max s.highest v else s.highest }

/-- The events. A weak compare-exchange may fail without cause. -/
def exec {β : Type} (e : StatsAct β) (s : StatsMem) (choice : ℕ) : Option (β × StatsMem) :=
  match e with
  | .fetchAdd c n => some (s.value c, s.set c ((s.value c + n) % usizeRange))
  | .load c => some (s.value c, s)
  | .casWeak c old new =>
    if s.value c = old ∧ choice = 0 then some (none, s.set c new) else some (some (s.value c), s)

/-- A call that counts itself in `c` has returned. -/
def count (s : StatsMem) (c : Counter) : StatsMem :=
  { s with done := Function.update s.done c (s.done c + 1) }

/-- Before the first allocation. -/
def init : StatsMem := ⟨fun _ => 0, [], 0, fun _ => 0, 0⟩

end StatsMem

/-- The calls. -/
inductive StatsOp
  | alloc (size : ℕ) | free (size : ℕ) | pageCreated | snapshot

/-- What they return. -/
abbrev StatsOp.Res : StatsOp → Type
  | .snapshot => Stats
  | .alloc _ | .free _ | .pageCreated => Unit

/-- Any number of threads record what they allocate and free. -/
def statsSystem (Tid : Type) : System StatsAct Tid StatsOp StatsOp.Res StatsMem where
  exec _ e s choice := s.exec e choice
  prog
    | _, .alloc size => Stats.onAlloc size
    | _, .free size => Stats.onFree size
    | _, .pageCreated => Stats.onPageCreated
    | _, .snapshot => Stats.snapshot
  start
    | _, .alloc size, s =>
      if s.bytes + size < usizeRange then some { s with bytes := s.bytes + size } else none
    | _, .free size, s =>
      if size ∈ s.returned then some { s with returned := s.returned.erase size } else none
    | _, .pageCreated, s | _, .snapshot, s => some s
  finish
    | _, .alloc size, _, s => { s with returned := size :: s.returned }.count .allocCount
    | _, .free size, _, s => { s with bytes := s.bytes - size }.count .freeCount
    | _, .pageCreated, _, s => s.count .pagesCreated
    | _, .snapshot, _, s => s

end MimallocRs
