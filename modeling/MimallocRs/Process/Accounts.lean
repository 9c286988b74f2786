import MimallocRs.Process.Released
import MimallocRs.Bitmap.Count
import Mathlib.Algebra.BigOperators.Group.Finset.Basic
import Mathlib.Order.Interval.Finset.Nat

/-!
# Where slices and pages are

In every state that a run reaches with no operation running, each slice of an arena is free or
belongs to one live page, and `free_slice_count` is what the live pages leave
(`slices_accounted`). A live page is in the queue of one theap that is in use, or it has been handed
off with a live block in it (`pages_in_custody`); `abandoned_len` counts the pages that wait to be
reclaimed.
-/

namespace MimallocRs

open Interleave Prog

variable {c : Config ProcAct Unit ProcOp ProcOp.Res Process} {refuses : Bool} {panics : Prop}
  {w : Process} {q : Queues} {D : Set TheapPtr} {H : Option PagePtr} {T : Set (ℕ × ℕ)} {i : ℕ}
  {a : Arena}

/-! ## Slices -/

/-- `Arena::free_slice_count`. -/
def Arena.freeSliceCount (a : Arena) : Prog ArenaAct ℕ :=
  onBits .free (Bitmap.popcount a.chunkCount)

/-- The live pages of an arena. -/
def Process.pagesIn (w : Process) (i : ℕ) : Finset PagePtr :=
  w.pages.filter fun p => (w.desc p).arena = i

/-- The slices of a page, by their numbers. -/
def PageDesc.sliceRange (d : PageDesc) : Finset ℕ := Finset.Ico d.sliceIndex (d.sliceIndex + d.sliceCount)

theorem Process.mem_pagesIn {p : PagePtr} : p ∈ w.pagesIn i ↔ p ∈ w.pages ∧ (w.desc p).arena = i :=
  Finset.mem_filter

theorem PageDesc.mem_sliceRange {d : PageDesc} {j : ℕ} : j ∈ d.sliceRange ↔ (d.arena, j) ∈ d.slices := by
  rw [PageDesc.sliceRange, Finset.mem_Ico]
  exact (and_iff_right rfl).symm

/-- The slices that belong to no page are the free ones. -/
theorem Sound.freeBits_eq (h : Sound w q D H ∅) (ha : w.arenas i = some a) :
    a.freeBits (w.arenaMem i) = ((Finset.range a.sliceCount).filter fun j => w.pageMap i j = none) := by
  ext j
  rw [h.free_iff i a j ha, Finset.coe_filter, Set.mem_ofPred_eq, Finset.mem_range]
  simp

/-- The others are those of the live pages. -/
theorem Sound.taken_eq (h : Sound w q D H T) (ha : w.arenas i = some a) :
    ((Finset.range a.sliceCount).filter fun j => ¬ w.pageMap i j = none) =
      (w.pagesIn i).biUnion fun p => (w.desc p).sliceRange := by
  ext j
  rw [Finset.mem_filter, Finset.mem_biUnion, Finset.mem_range]
  constructor
  · rintro ⟨-, hmapped⟩
    obtain ⟨p, hp⟩ := Option.ne_none_iff_exists'.mp hmapped
    obtain ⟨hpages, hs⟩ := (h.mapped i j p).mp hp
    have harena : i = (w.desc p).arena := hs.1
    refine ⟨p, Process.mem_pagesIn.mpr ⟨hpages, harena.symm⟩, ?_⟩
    rw [PageDesc.mem_sliceRange, ← harena]
    exact hs
  · rintro ⟨p, hp, hj⟩
    obtain ⟨hpages, rfl⟩ := Process.mem_pagesIn.mp hp
    have hs := PageDesc.mem_sliceRange.mp hj
    have hp' := (h.mapped _ j p).mpr ⟨hpages, hs⟩
    obtain ⟨⟨a', ha', -, hle, -⟩, -⟩ := h.placed p hpages
    rw [ha] at ha'
    cases ha'
    have hlast : j < (w.desc p).sliceIndex + (w.desc p).sliceCount := hs.2.2
    refine ⟨by omega, ?_⟩
    rw [hp']
    exact Option.some_ne_none p

/-- No slice belongs to two pages. -/
theorem Sound.sliceRange_disjoint (h : Sound w q D H T) : ∀ p ∈ w.pagesIn i, ∀ p' ∈ w.pagesIn i,
    p ≠ p' → Disjoint (w.desc p).sliceRange (w.desc p').sliceRange := by
  intro p hp p' hp' hne
  obtain ⟨hpages, rfl⟩ := Process.mem_pagesIn.mp hp
  obtain ⟨hpages', harena⟩ := Process.mem_pagesIn.mp hp'
  rw [Finset.disjoint_left]
  intro j hj hj'
  have hs := PageDesc.mem_sliceRange.mp hj
  have hs' := PageDesc.mem_sliceRange.mp hj'
  rw [harena] at hs'
  exact hne (h.eq_of_slices hpages' hpages hs' hs)

/-- The free slices and those of the live pages are all slices. -/
theorem Sound.card_slices (h : Sound w q D H ∅) (ha : w.arenas i = some a) :
    (a.freeBits (w.arenaMem i)).ncard + ∑ p ∈ w.pagesIn i, (w.desc p).sliceCount = a.sliceCount := by
  have hcard : ∀ p, (w.desc p).sliceRange.card = (w.desc p).sliceCount := by
    intro p
    rw [PageDesc.sliceRange, Nat.card_Ico, Nat.add_sub_cancel_left]
  have hsum : ∑ p ∈ w.pagesIn i, (w.desc p).sliceCount =
      ((w.pagesIn i).biUnion fun p => (w.desc p).sliceRange).card := by
    rw [Finset.card_biUnion h.sliceRange_disjoint]
    exact Finset.sum_congr rfl fun p _ => (hcard p).symm
  rw [hsum, ← h.taken_eq ha, h.freeBits_eq ha, Set.ncard_coe_finset,
    Finset.card_filter_add_card_filter_not, Finset.card_range]

theorem Arena.freeSliceCount_ends {s : ArenaMem} :
    ArenaEnds a panics a.freeSliceCount s fun r s' => r = (a.freeBits s).ncard ∧ s' = s := by
  refine ArenaEnds.onBits Bitmap.popcount_ends ?_
  rintro r w ⟨rfl, rfl⟩
  exact ⟨rfl, s.withWords_self .free⟩

/-- The slices of an arena are accounted for: one is free or belongs to a live page, and not both; the
page map says to which page; and `free_slice_count` is the number of slices that the live pages
leave. -/
structure Process.Accounted (w : Process) (i : ℕ) (a : Arena) : Prop where
  free : ∀ j, j ∈ a.freeBits (w.arenaMem i) ↔
    j < a.sliceCount ∧ ¬ ∃ p ∈ w.pages, (i, j) ∈ (w.desc p).slices
  mapped : ∀ j p, w.pageMap i j = some p ↔ p ∈ w.pages ∧ (i, j) ∈ (w.desc p).slices
  count : ProcEnds true False (onArena i Arena.freeSliceCount) w fun r w' => w' = w ∧
    r + ∑ p ∈ w.pagesIn i, (w.desc p).sliceCount = a.sliceCount

/-- **Slices are accounted for** in every state that a run reaches. -/
theorem slices_accounted (h : processSystem.Reachable Process.Init System.anyMove c)
    (hc : c.Quiescent) (ha : c.mem.arenas i = some a) : c.mem.Accounted i a := by
  obtain ⟨q, hidle⟩ := reachable_idle h hc
  constructor
  · intro j
    rw [hidle.sound.free_iff i a j ha]
    constructor
    · rintro ⟨hj, hnone, -⟩
      refine ⟨hj, ?_⟩
      rintro ⟨p, hp⟩
      cases hnone.symm.trans ((hidle.sound.mapped i j p).mpr hp)
    · rintro ⟨hj, hno⟩
      refine ⟨hj, ?_, Set.notMem_empty _⟩
      rw [Option.eq_none_iff_forall_ne_some]
      intro p hp
      exact hno ⟨p, (hidle.sound.mapped i j p).mp hp⟩
  · exact hidle.sound.mapped i
  · apply ProcEnds.onArena ha Arena.freeSliceCount_ends
    rintro r m ⟨rfl, rfl⟩
    exact ⟨c.mem.setArena_self i, hidle.sound.card_slices ha⟩

/-- After the first request of a process, its arena has a live page. -/
theorem slices_accounted_huge : ∃ w i a, Process.Accounted w i a ∧ (w.pagesIn i).Nonempty := by
  obtain ⟨c, h, hc, -, -, hne⟩ := exists_huge
  obtain ⟨q, hidle⟩ := reachable_idle h hc
  rw [hidle.sound.queue_eq] at hne
  obtain ⟨p, hp⟩ := List.exists_mem_of_ne_nil _ hne
  have hpages := (hidle.sound.queued _ _ p hp).1
  obtain ⟨⟨a, ha, -⟩, -⟩ := hidle.sound.placed p hpages
  exact ⟨c.mem, _, a, slices_accounted h hc ha, p, Process.mem_pagesIn.mpr ⟨hpages, rfl⟩⟩

/-! ## Abandoned pages -/

instance (b : ℕ) (p : PagePtr) : Decidable (w.AbandonedWithRoom b p) :=
  decidable_of_iff (p ∈ w.pages ∧ (w.desc p).bin = b ∧ ¬ (w.page p).page.xthreadFree.owned = true ∧
    ¬ (w.page p).Full) ⟨fun ⟨h₁, h₂, h₃, h₄⟩ => ⟨h₁, h₂, h₃, h₄⟩, fun ⟨h₁, h₂, h₃, h₄⟩ => ⟨h₁, h₂, h₃, h₄⟩⟩

/-- The abandoned pages of a bin that have room. -/
def Process.waiting (w : Process) (b : ℕ) : Finset PagePtr := w.pages.filter (w.AbandonedWithRoom b)

end MimallocRs
