import MimallocRs.Arena.PurgeLoop
import MimallocRs.Arena.Slices
import MimallocRs.Foundations.Interleave.Serial

/-!
# An arena and the memory of its slices

`SliceMem` is an arena together with the bytes of its slices and whether they can be accessed.
The operating system may refuse each call: a decommit that succeeds zeroes its range, and in the
builds that strip access (`strips`) takes the access away as well, which may be refused on its own;
a commit gives access and leaves the bytes alone; of a range that is reset the kernel takes back
the pages it chooses. `sliceSystem` runs the functions of an arena one after the other, with writes
of the holders of slices, changes of the options and the passing of time between them.

`SliceView` is what the results about these runs speak of: the bitmaps as sets of slices. The
specifications of `run_purge`, `free_slices` and `alloc_slices` are in its terms.
-/

namespace MimallocRs

open Interleave

/-! ## The memory of the slices -/

/-- The bytes of the slices, by slice and offset, and which slices can be accessed. -/
structure Region where
  data : ℕ → ℕ → BitVec 8
  access : ℕ → Bool

namespace Region

/-- The bytes of `n` slices from `idx` on are zero. -/
def zero (m : Region) (idx n : ℕ) : Region :=
  { m with data := fun i off => if idx ≤ i ∧ i < idx + n then 0#8 else m.data i off }

/-- The access to `n` slices from `idx` on is given or taken. -/
def protect (m : Region) (idx n : ℕ) (b : Bool) : Region :=
  { m with access := fun i => if idx ≤ i ∧ i < idx + n then b else m.access i }

/-- `Prim::decommit`: choice 0 succeeds, 1 is refused by `mprotect`, and others by `madvise`. -/
def decommit (m : Region) (strips : Bool) (choice idx n : ℕ) : Region :=
  match choice with
  | 0 => if strips then (m.zero idx n).protect idx n false else m.zero idx n
  | 1 => m.zero idx n
  | _ => m

/-- `Prim::reset`: the choice says which pages the kernel takes back. -/
def reset (m : Region) (choice idx n : ℕ) : Region :=
  { m with data := fun i off =>
      if idx ≤ i ∧ i < idx + n ∧ choice.testBit ((i - idx) * 16 + off / 4096) then 0#8
      else m.data i off }

/-- A byte is written. -/
def write (m : Region) (idx off : ℕ) (v : BitVec 8) : Region :=
  { m with data := fun i o => if i = idx ∧ o = off then v else m.data i o }

/-- All bytes of the slice are zero. -/
def ZeroAt (m : Region) (i : ℕ) : Prop := ∀ off < miArenaSliceSize, m.data i off = 0#8

variable {m : Region} {idx n i choice : ℕ} {strips : Bool}

theorem ZeroAt.congr {m' : Region} (h : m.ZeroAt i) (hdata : m'.data = m.data) : m'.ZeroAt i := by
  intro off hoff
  rw [hdata]
  exact h off hoff

theorem ZeroAt.zero (h : m.ZeroAt i) : (m.zero idx n).ZeroAt i := by
  intro off hoff
  simp only [Region.zero]
  split
  · rfl
  · exact h off hoff

theorem zeroAt_of_mem (h : i ∈ bitRange idx n) : (m.zero idx n).ZeroAt i := by
  intro off _
  exact if_pos (mem_bitRange.mp h)

theorem ZeroAt.decommit (h : m.ZeroAt i) : (m.decommit strips choice idx n).ZeroAt i := by
  unfold Region.decommit
  split
  · split <;> exact h.zero
  · exact h.zero
  · exact h

/-- A decommit that the kernel does not refuse zeroes its range. -/
theorem zeroAt_decommit (hchoice : choice ≤ 1) (h : i ∈ bitRange idx n) :
    (m.decommit strips choice idx n).ZeroAt i := by
  obtain rfl | rfl : choice = 0 ∨ choice = 1 := by omega
  · cases strips <;> exact zeroAt_of_mem h
  · exact zeroAt_of_mem h

theorem ZeroAt.reset (h : m.ZeroAt i) : (m.reset choice idx n).ZeroAt i := by
  intro off hoff
  simp only [Region.reset]
  split
  · rfl
  · exact h off hoff

theorem access_protect : (m.protect idx n true).access i = true ↔
    i ∈ bitRange idx n ∨ m.access i = true := by
  rw [mem_bitRange]
  simp only [protect]
  split <;> simp [*]

/-- A decommit takes the access to its own range only, and only if it strips access. -/
theorem access_decommit (hout : strips = true → choice = 0 → i ∉ bitRange idx n)
    (h : m.access i = true) : (m.decommit strips choice idx n).access i = true := by
  unfold decommit
  split
  · split
    · next hs =>
      have hi := hout hs rfl
      rw [mem_bitRange] at hi
      simp only [protect, Region.zero]
      rwa [if_neg hi]
    · exact h
  · exact h
  · exact h

end Region

/-- An arena with the memory of its slices, and a history that no program reads. -/
structure SliceMem where
  arena : ArenaMem
  region : Region
  /-- History: the arena has been created. -/
  created : Bool
  /-- History: the runs of slices that have been handed out and not freed. -/
  held : List (ℕ × ℕ)

namespace SliceMem

/-- What the operating system does to the memory. -/
def os {β : Type} (strips : Bool) (e : ArenaAct β) (s : SliceMem) (choice : ℕ) : SliceMem :=
  match e with
  | .osCommit idx n =>
    if choice = 0 then { s with region := s.region.protect idx n true } else s
  | .osDecommit idx n => { s with region := s.region.decommit strips choice idx n }
  | .osReset idx n => { s with region := s.region.reset choice idx n }
  | _ => s

/-- A bitmap of the arena has been changed to the words `w`. -/
def withWords (s : SliceMem) (b : BitmapId) (w : Words) : SliceMem :=
  { s with arena := s.arena.withWords b w }

/-- Initially there is no arena, and the memory it will get is zero if the operating system says
so. -/
structure Init (a : Arena) (s : SliceMem) : Prop where
  words : s.arena.words = fun _ _ => 0#64
  expire : s.arena.expire = 0
  zero : a.initiallyZero = true → ∀ i, s.region.ZeroAt i
  created : s.created = false
  held : s.held = []

end SliceMem

/-- The events of an arena with the memory of its slices. -/
def sliceMachine (a : Arena) (strips : Bool) : Machine ArenaAct Unit SliceMem where
  exec _ e s choice := (s.arena.exec a.chunkCount e choice).map fun r =>
    (r.1, { s.os strips e choice with arena := r.2 })

/-! ## Runs of the functions of an arena -/

/-- The operations. -/
inductive SliceOp
  /-- What `Arena::create` does with the bitmaps of a new arena. -/
  | create (commit : Bool)
  | allocSlices (n tseq : ℕ)
  | freeSlices (idx n : ℕ)
  | maybePurge (force : Bool)
  | runPurge
  /-- The holder of a slice writes a byte. -/
  | write (idx off : ℕ) (v : BitVec 8)
  | setOption (o : Opt) (v : ℤ)
  | tick (now : ℤ)

/-- What the operations return. -/
abbrev SliceOp.Res : SliceOp → Type
  | .allocSlices _ _ => Option (ℕ × ℕ × Bool)
  | .maybePurge _ | .runPurge => Bool
  | .create _ | .freeSlices _ _ | .write _ _ _ | .setOption _ _ | .tick _ => Unit

/-- The functions of an arena, called one after the other. -/
def sliceSystem (a : Arena) (strips : Bool) : System ArenaAct Unit SliceOp SliceOp.Res SliceMem where
  toMachine := sliceMachine a strips
  prog
    | _, .create commit => a.initBitmaps commit
    | _, .allocSlices n tseq => a.allocSlices n tseq
    | _, .freeSlices idx n => a.freeSlices idx n
    | _, .maybePurge force => a.maybePurge force
    | _, .runPurge => a.runPurge
    | _, .write _ _ _ | _, .setOption _ _ | _, .tick _ => .ret ()
  start
    | _, .create commit, s =>
      if s.created then none
      else some { s with created := true, region := { s.region with access := fun _ => commit } }
    | _, .allocSlices _ _, s | _, .maybePurge _, s | _, .runPurge, s =>
      if s.created then some s else none
    | _, .freeSlices idx n, s =>
      if (idx, n) ∈ s.held then some { s with held := s.held.erase (idx, n) } else none
    | _, .write idx off v, s =>
      if ∃ r ∈ s.held, r.1 ≤ idx ∧ idx < r.1 + r.2 then
        some { s with region := s.region.write idx off v }
      else none
    | _, .setOption o v, s =>
      some { s with arena := { s.arena with opts := Function.update s.arena.opts o v } }
    | _, .tick now, s => some { s with arena := { s.arena with now := now } }
  finish
    | _, .allocSlices n _, some (idx, _, _), s => { s with held := (idx, n) :: s.held }
    | _, _, _, s => s

/-! ## The slices as sets -/

/-- The state of an arena, its bitmaps as sets of slices. -/
structure SliceView where
  bits : BitmapId → Set ℕ
  region : Region
  created : Bool
  held : List (ℕ × ℕ)

namespace SliceView

/-- A bitmap is changed to `X`. -/
def put (v : SliceView) (b : BitmapId) (X : Set ℕ) : SliceView :=
  { v with bits := Function.update v.bits b X }

open Classical in
/-- The range `R` is cleared if all of it is set. -/
noncomputable def clear (v : SliceView) (b : BitmapId) (R : Set ℕ) : SliceView :=
  if R ⊆ v.bits b then v.put b (v.bits b \ R) else v

@[simp] theorem put_self (v : SliceView) (b : BitmapId) (X : Set ℕ) : (v.put b X).bits b = X :=
  Function.update_self ..

theorem put_of_ne (v : SliceView) {b b' : BitmapId} (X : Set ℕ) (h : b' ≠ b) :
    (v.put b X).bits b' = v.bits b' := Function.update_of_ne h ..

@[simp] theorem put_put (v : SliceView) (b : BitmapId) (X Y : Set ℕ) :
    (v.put b X).put b Y = v.put b Y := by
  simp [put]

@[simp] theorem put_bits (v : SliceView) (b : BitmapId) : v.put b (v.bits b) = v := by
  simp [put]

theorem put_comm (v : SliceView) {b b' : BitmapId} (X Y : Set ℕ) (h : b ≠ b') :
    (v.put b X).put b' Y = (v.put b' Y).put b X := by
  simp only [put, Function.update_comm h]

@[simp] theorem put_region (v : SliceView) (b : BitmapId) (X : Set ℕ) :
    (v.put b X).region = v.region := rfl

@[simp] theorem put_held (v : SliceView) (b : BitmapId) (X : Set ℕ) :
    (v.put b X).held = v.held := rfl

@[simp] theorem put_created (v : SliceView) (b : BitmapId) (X : Set ℕ) :
    (v.put b X).created = v.created := rfl

/-- What clearing a range leaves as it is. -/
theorem clear_kept (v : SliceView) (b : BitmapId) (R : Set ℕ) :
    (v.clear b R).region = v.region ∧ (v.clear b R).held = v.held ∧
      (v.clear b R).created = v.created ∧ ∀ b' ≠ b, (v.clear b R).bits b' = v.bits b' := by
  unfold clear
  split
  · exact ⟨rfl, rfl, rfl, fun b' hb => v.put_of_ne _ hb⟩
  · exact ⟨rfl, rfl, rfl, fun _ _ => rfl⟩

theorem clear_of_subset (v : SliceView) {b : BitmapId} {R : Set ℕ} (h : R ⊆ v.bits b) :
    (v.clear b R).bits b = v.bits b \ R := by
  rw [clear, if_pos h, put_self]

theorem clear_of_not_subset (v : SliceView) {b : BitmapId} {R : Set ℕ} (h : ¬ R ⊆ v.bits b) :
    v.clear b R = v := if_neg h

theorem put_clear (v : SliceView) {b b' : BitmapId} (X R : Set ℕ) (h : b ≠ b') :
    (v.put b X).clear b' R = (v.clear b' R).put b X := by
  unfold clear
  rw [v.put_of_ne X h.symm]
  split
  · rw [v.put_comm _ _ h]
  · rfl

end SliceView

namespace Arena

/-- The state of an arena, its bitmaps as sets of slices. -/
def view (a : Arena) (s : SliceMem) : SliceView where
  bits b := bitsOf a.chunkCount (s.arena.words b)
  region := s.region
  created := s.created
  held := s.held

end Arena

end MimallocRs
