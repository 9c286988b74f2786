import MimallocRs.Arena.Runs

/-!
# The zero flag of `alloc_slices`

`alloc_slices` reports a run zero when the arena was zero initially and no slice of the run is
dirty. Slices are marked dirty when they are handed out, and `run_purge` marks a run clean again
when it has called `os::decommit` on it, whatever came of that call. When the kernel refuses the
decommit of a dirty run the bytes of the run stay, and the run is later handed out as zero
(`zero_flag_wrong`). In the runs in which no such decommit is refused the flag is truthful
(`zero_flag_truthful`).
-/

namespace MimallocRs

open Interleave

variable {a : Arena} {strips : Bool}

/-- A decommit that the kernel refuses leaves nothing dirty behind that `run_purge` marks clean: some
slice of the run is clean, so that the whole run stays as it is marked, or its bytes are zero. -/
def RefusedHarmlessly (a : Arena) : DecommitCond := fun v idx n choice =>
  1 < choice → a.initiallyZero = true → bitRange idx n ⊆ v.bits .dirty →
    ∀ i ∈ bitRange idx n, v.region.ZeroAt i

/-- The slices that are not dirty are zero, and those that are held are dirty. -/
structure CleanIsZero (a : Arena) (v : SliceView) : Prop where
  zero : a.initiallyZero = true → ∀ i, i ∉ v.bits .dirty → v.region.ZeroAt i
  held : ∀ r ∈ v.held, bitRange r.1 r.2 ⊆ v.bits .dirty

namespace CleanIsZero

variable {v v' : SliceView} {idx n : ℕ}

/-- Purging a run by a decommit that is granted, or refused harmlessly. -/
theorem decommit {choice : ℕ} (h : CleanIsZero a v) (hh : Held a v)
    (hfree : bitRange idx n ⊆ v.bits .free)
    (hC : RefusedHarmlessly a (v.put .free (v.bits .free \ bitRange idx n)) idx n choice) :
    CleanIsZero a ((({ v with region := v.region.decommit strips choice idx n } :
      SliceView).clear .commit (bitRange idx n)).clear .dirty (bitRange idx n)) := by
  obtain ⟨hregion, hheld, -, hbits⟩ := SliceView.clear_kept
    ({ v with region := v.region.decommit strips choice idx n } : SliceView) .commit
      (bitRange idx n)
  generalize ({ v with region := v.region.decommit strips choice idx n } : SliceView).clear .commit
    (bitRange idx n) = u at hregion hheld hbits
  have hdirty : u.bits .dirty = v.bits .dirty := hbits .dirty (by decide)
  by_cases hsub : bitRange idx n ⊆ v.bits .dirty
  · refine ⟨fun hz i hi => ?_, fun r hr => ?_⟩
    · rw [(SliceView.clear_kept _ _ _).1, hregion]
      rw [SliceView.clear_of_subset _ (hdirty ▸ hsub), hdirty, Set.mem_sdiff, not_and_not_right] at hi
      by_cases hin : i ∈ bitRange idx n
      · by_cases hchoice : choice ≤ 1
        · exact Region.zeroAt_decommit hchoice hin
        · exact (hC (by omega) hz hsub i hin).decommit
      · exact (h.zero hz i fun hd => hin (hi hd)).decommit
    · rw [(SliceView.clear_kept _ _ _).2.1, hheld] at hr
      rw [SliceView.clear_of_subset _ (hdirty ▸ hsub), hdirty]
      exact Set.subset_sdiff.mpr ⟨h.held r hr, (hh.free r hr).mono_right hfree⟩
  · rw [SliceView.clear_of_not_subset _ (hdirty ▸ hsub)]
    refine ⟨fun hz i hi => ?_, fun r hr => ?_⟩
    · rw [hregion]
      exact (h.zero hz i (hdirty ▸ hi)).decommit
    · rw [hdirty]
      exact h.held r (hheld ▸ hr)

theorem alloc {zero : Bool} (h : CleanIsZero a v) (ho : Arena.HandedOut a idx n zero v v') :
    CleanIsZero a { v' with held := (idx, n) :: v'.held } := by
  obtain ⟨-, hheld, -, hdata⟩ := handedOut_kept ho
  have hdirty : v'.bits .dirty = v.bits .dirty ∪ bitRange idx n := by
    obtain ⟨v₁, hc, rfl⟩ := ho.committed
    rw [SliceView.put_self, hc.dirty, SliceView.put_of_ne _ _ (by decide)]
  refine ⟨fun hz i hi => ?_, fun r hr => ?_⟩
  · have hi : i ∉ v'.bits .dirty := hi
    rw [hdirty] at hi
    exact (h.zero hz i fun hd => hi (Or.inl hd)).congr hdata
  · show bitRange r.1 r.2 ⊆ v'.bits .dirty
    rw [hdirty]
    rcases List.mem_cons.mp hr with rfl | hr
    · exact Set.subset_union_right
    · exact (h.held r (hheld ▸ hr)).trans Set.subset_union_left

end CleanIsZero

theorem cleanIsZero_invariant (a : Arena) (strips : Bool) :
    SliceInvariant a strips (RefusedHarmlessly a) (CleanIsZero a) where
  new commit v hf _ := by
    refine ⟨fun hz i _ => hf.zero hz i, fun r hr => ?_⟩
    have hr : r ∈ v.held := hr
    rw [hf.held] at hr
    cases hr
  purged idx n v v' hh hpurged hv := by
    cases hpurged with
    | kept => exact hv
    | reset choice hfree => exact ⟨fun hz i hi => (hv.zero hz i hi).reset, hv.held⟩
    | decommit choice hfree hC => exact hv.decommit hh hfree hC
  schedule v X hv := ⟨hv.zero, hv.held⟩
  alloc idx n zero v v' _ hv ho := hv.alloc ho
  free idx n v _ hv := ⟨hv.zero, fun r hr => hv.held r (List.mem_of_mem_erase hr)⟩
  write idx off val v _ hv hheld := by
    refine ⟨fun hz i hi off' hoff => ?_, hv.held⟩
    obtain ⟨r, hr, hlo, hhi⟩ := hheld
    -- the slice that is written is held, hence dirty
    have hne : i ≠ idx := by
      rintro rfl
      exact hi (hv.held r hr (mem_bitRange.mpr ⟨hlo, hhi⟩))
    show (if i = idx ∧ off' = off then val else v.region.data i off') = 0#8
    rw [if_neg fun h => hne h.1]
    exact hv.zero hz i hi off' hoff

/-- **The zero flag is truthful** in the runs in which the kernel refuses no decommit of a run of
dirty slices that are not zero. -/
theorem zero_flag_truthful {c : Config ArenaAct Unit SliceOp SliceOp.Res SliceMem}
    (h : (sliceSystem a strips).Reachable (SliceMem.Init a)
      (Performs (Decommits a (RefusedHarmlessly a))) c) {n tseq idx p : ℕ}
    (hret : c.thread () = some ⟨.allocSlices n tseq, .ret (some (idx, p, true))⟩) :
    ∀ i ∈ bitRange idx n, c.mem.region.ZeroAt i := by
  obtain ⟨s, s', hi, hs, -, ho⟩ :=
    (slice_reachable (cleanIsZero_invariant a strips) h).returned hret
  simp only [sliceSystem] at hs
  split at hs
  · next hc =>
    cases hs
    obtain ⟨hz, hclean⟩ := ho.zero rfl
    intro i hin
    rcases hi with hf | ⟨-, -, hv⟩
    · cases hf.created.symm.trans hc
    · have hzero := hv.zero hz i (Set.disjoint_left.mp hclean hin)
      exact hzero.congr (handedOut_kept ho).2.2.2
  · cases hs

/-- A move by which the kernel refuses nothing. -/
theorem performs_of_granted {c : Config ArenaAct Unit SliceOp SliceOp.Res SliceMem}
    {m : Move Unit SliceOp} (hm : ∀ choice, m = .step () choice → choice ≤ 1) :
    Performs (Decommits a (RefusedHarmlessly a)) c m := by
  intro t choice o β e k hstep _
  have hchoice := hm choice hstep
  cases e with
  | osDecommit idx n => exact fun hrefused => by omega
  | _ => trivial

/-- A new arena hands out its first slice and reports it zero. -/
theorem zero_flag_truthful_first : ∃ c, (sliceSystem .ofTwoSlices false).run
    (Move.call () (.create true) 20 0 ++ .start () (.allocSlices 1 0) :: List.replicate 22 (.step () 0))
      ⟨.blank, fun _ => none⟩ = some c ∧
    ∀ i ∈ bitRange 0 1, c.mem.region.ZeroAt i := by
  obtain ⟨c, hc⟩ : ∃ c, (sliceSystem .ofTwoSlices false).run
      (Move.call () (.create true) 20 0 ++
        .start () (.allocSlices 1 0) :: List.replicate 22 (.step () 0))
      ⟨.blank, fun _ => none⟩ = some c := ⟨_, rfl⟩
  have hret : c.thread () = some ⟨.allocSlices 1 0, .ret (some (0, 2 ^ 32, true))⟩ := by
    cases hc
    rfl
  refine ⟨c, hc, zero_flag_truthful (System.Reachable.run_of_moves
    (.init (SliceMem.blank_init _)) ?_ hc) hret⟩
  intro m hm c
  apply performs_of_granted
  rintro choice rfl
  have hchoice : choice = 0 := by simpa [Move.call] using hm
  omega

/-- The slice 0 is about to be handed out and reported zero, and its first byte is 1. -/
def staleZero (c : Config ArenaAct Unit SliceOp SliceOp.Res SliceMem) : Bool :=
  match c.thread () with
  | some ⟨.allocSlices 1 0, .ret (some (0, _, true))⟩ => c.mem.region.data 0 0 == 1#8
  | _ => false

/-- A slice is written and freed, the kernel refuses the decommit of the purge, and the slice is
handed out again and reported zero. -/
theorem zero_flag_wrong :
    ¬ ∀ c, (sliceSystem .ofTwoSlices false).Reachable (SliceMem.Init .ofTwoSlices)
      System.anyMove c → ∀ n tseq idx p,
      c.thread () = some ⟨.allocSlices n tseq, .ret (some (idx, p, true))⟩ →
      ∀ i ∈ bitRange idx n, c.mem.region.ZeroAt i := by
  intro h
  have hrun : ((sliceSystem .ofTwoSlices false).run
      (Move.call () (.create true) 20 0 ++ Move.call () (.allocSlices 1 0) 22 0 ++
        Move.call () (.write 0 0 1#8) 0 0 ++ Move.call () (.freeSlices 0 1) 25 0 ++
        Move.call () .runPurge 75 2 ++ .start () (.allocSlices 1 0) :: List.replicate 32 (.step () 0))
      ⟨.blank, fun _ => none⟩).any staleZero = true := by
    decide +kernel
  obtain ⟨c, hc, htest⟩ := System.exists_run hrun
  unfold staleZero at htest
  split at htest
  · next p hret =>
    have hzero := h c (System.reachable_of_run (SliceMem.blank_init _) hc) 1 0 0 p hret 0
      (by simp [mem_bitRange]) 0 (by decide)
    rw [hzero] at htest
    cases htest
  · cases htest

end MimallocRs
