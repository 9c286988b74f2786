import MimallocRs.PageMap.Prog
import MimallocRs.Foundations.Interleave.System

/-!
# The page map shared by any number of threads

`PageMem` is the memory of the page map together with a history that no program reads: to which page
each slice has been mapped by the calls that have returned, which ranges are in calls that have not
returned, and, for a running `lookup`, whether its slice has been in such a call at any time since
it started. A `register` or `unregister` may be called on a range that meets no running call, and
`register` on slices that are not mapped, as the owner of slices does.
-/

namespace MimallocRs

open Interleave

/-- The memory of the page map and its history. -/
structure PageMem (Tid : Type) where
  top : Option ℕ
  locked : Bool
  /-- The entries of the top tables. -/
  entry : ℕ → ℕ → Option ℕ
  /-- The entries of the submaps. -/
  sub : ℕ → ℕ → ℕ
  /-- How many top tables have been allocated. -/
  tables : ℕ
  /-- How many submaps there are. -/
  submaps : ℕ
  /-- History: the page of each slice, by the calls that have returned. -/
  mapped : ℕ → Option ℕ
  /-- History: the ranges of slices of the running calls of `register` and `unregister`. -/
  busy : List (Tid × ℕ × ℕ)
  /-- History: the slice that a thread looks up. -/
  looking : Tid → Option ℕ
  /-- History: that slice has been in no running call since the lookup started. -/
  quiet : Tid → Bool
  /-- History: a null pointer has been dereferenced. -/
  fault : Bool

/-- The slice `u` lies in the range `r`. -/
def Covers (r : ℕ × ℕ) (u : ℕ) : Prop := r.1 ≤ u ∧ u < r.1 + r.2

instance (r : ℕ × ℕ) (u : ℕ) : Decidable (Covers r u) := inferInstanceAs (Decidable (_ ∧ _))

namespace PageMem

variable {Tid : Type} [DecidableEq Tid]

/-- Initially nothing has been allocated. -/
def init : PageMem Tid where
  top := none
  locked := false
  entry _ _ := none
  sub _ _ := 0
  tables := 0
  submaps := 1
  mapped _ := none
  busy := []
  looking _ := none
  quiet _ := false
  fault := false

def setTop (s : PageMem Tid) (b : ℕ) : PageMem Tid := { s with top := some b }

def setLocked (s : PageMem Tid) (locked : Bool) : PageMem Tid := { s with locked := locked }

def setEntry (s : PageMem Tid) (b i p : ℕ) : PageMem Tid :=
  { s with entry := Function.update s.entry b (Function.update (s.entry b) i (some p)) }

def setSub (s : PageMem Tid) (p i page : ℕ) : PageMem Tid :=
  { s with sub := Function.update s.sub p (Function.update (s.sub p) i page) }

/-- A new top table, of null pointers. -/
def addTop (s : PageMem Tid) : PageMem Tid :=
  { s with
    tables := s.tables + 1
    entry := Function.update s.entry s.tables fun _ => none }

/-- A new submap, of null pointers. -/
def addSub (s : PageMem Tid) : PageMem Tid :=
  { s with
    submaps := s.submaps + 1
    sub := Function.update s.sub s.submaps fun _ => 0 }

/-- The events. -/
def exec {β : Type} (e : MapAct β) (s : PageMem Tid) (choice : ℕ) : Option (β × PageMem Tid) :=
  match e with
  | .loadTop => some (s.top, s)
  | .storeTop b => some ((), s.setTop b)
  | .tryLock =>
    if s.locked = false ∧ choice = 0 then some (true, s.setLocked true) else some (false, s)
  | .loadLock => some (s.locked, s)
  | .unlock => some ((), s.setLocked false)
  | .allocTop => if choice = 0 then some (some s.tables, s.addTop) else some (none, s)
  | .allocSub => if choice = 0 then some (some s.submaps, s.addSub) else some (none, s)
  | .loadEntry b i => some (s.entry b i, s)
  | .storeEntry b i p => some ((), s.setEntry b i p)
  | .loadSub none _ => some (0, { s with fault := true })
  | .loadSub (some p) i => some (s.sub p i, s)
  | .storeSub none _ _ => some ((), { s with fault := true })
  | .storeSub (some p) i page => some ((), s.setSub p i page)

/-- A call on the range `r` starts: the lookups of its slices are no longer undisturbed. -/
def enter (s : PageMem Tid) (t : Tid) (r : ℕ × ℕ) : PageMem Tid :=
  { s with
    busy := (t, r) :: s.busy
    quiet := fun v => s.quiet v && !(s.looking v).any fun u => decide (Covers r u) }

/-- The call of thread `t` on the range `r` has returned and left its slices mapped to `page`. -/
def leave (s : PageMem Tid) (t : Tid) (r : ℕ × ℕ) (page : Option ℕ) : PageMem Tid :=
  { s with
    busy := s.busy.filter fun x => x.1 ≠ t
    mapped := fun u => if Covers r u then page else s.mapped u }

/-- The page that a lookup of slice `u` finds in the tables. -/
def value (topCount : ℕ) (s : PageMem Tid) (u : ℕ) : ℕ :=
  match s.top with
  | none => 0
  | some t =>
    if u / subCount < topCount then
      match s.entry t (u / subCount) with
      | none => 0
      | some p => s.sub p (u % subCount)
    else 0

omit [DecidableEq Tid]

variable {topCount : ℕ} {s : PageMem Tid} {u : ℕ}

theorem value_of_noTop (h : s.top = none) : s.value topCount u = 0 := by
  simp only [value, h]

theorem value_of_le (h : topCount ≤ u / subCount) : s.value topCount u = 0 := by
  unfold value
  split
  · rfl
  · rw [if_neg (Nat.not_lt.mpr h)]

theorem value_of_entry {b p : ℕ} (h : s.top = some b) (hu : u / subCount < topCount)
    (hp : s.entry b (u / subCount) = some p) :
    s.value topCount u = s.sub p (u % subCount) := by
  simp only [value, h, if_pos hu, hp]

end PageMem

/-- The operations on the page map. -/
inductive MapOp
  | register (addr sliceCount page : ℕ)
  | unregister (addr sliceCount : ℕ)
  | lookup (addr : ℕ)
  deriving DecidableEq

/-- What they return. -/
abbrev MapOp.Res : MapOp → Type
  | .register _ _ _ => Bool
  | .unregister _ _ => Unit
  | .lookup _ => ℕ

/-- The page map, used by any number of threads. -/
def pageMapSystem (Tid : Type) [DecidableEq Tid] (topCount : ℕ) :
    System MapAct Tid MapOp MapOp.Res (PageMem Tid) where
  exec _ e s choice := s.exec e choice
  prog
    | _, .register addr n page => PageMap.register topCount addr n page
    | _, .unregister addr n => PageMap.unregister topCount addr n
    | _, .lookup addr => PageMap.lookup topCount addr
  start
    | t, .register addr n _, s =>
      if ∀ k < n, (∀ x ∈ s.busy, ¬ Covers x.2 (PageMap.sliceIndex addr + k)) ∧
          s.mapped (PageMap.sliceIndex addr + k) = none then
        some (s.enter t (PageMap.sliceIndex addr, n))
      else none
    | t, .unregister addr n, s =>
      if ∀ k < n, ∀ x ∈ s.busy, ¬ Covers x.2 (PageMap.sliceIndex addr + k) then
        some (s.enter t (PageMap.sliceIndex addr, n))
      else none
    | t, .lookup addr, s =>
      some { s with
        looking := Function.update s.looking t (some (PageMap.sliceIndex addr))
        quiet := Function.update s.quiet t
          (s.busy.all fun x => !decide (Covers x.2 (PageMap.sliceIndex addr))) }
  finish
    | t, .register addr n page, r, s =>
      s.leave t (PageMap.sliceIndex addr, n) (if r then some page else none)
    | t, .unregister addr n, _, s => s.leave t (PageMap.sliceIndex addr, n) none
    | t, .lookup _, _, s => { s with looking := Function.update s.looking t none }

end MimallocRs
