import MimallocRs.Arena.Runs

/-!
# The commit bitmap

`ensure_committed` trusts the commit bitmap: a run whose bits are all set is handed out as it is.
`run_purge` decommits a run of free slices whatever their commit bits, and then clears the bits
with `clear_n`, which does nothing unless all of them are set. After a commit that the operating
system has refused the free slices of a run can be committed in part; a purge then takes the access
of slices whose bits stay set (`commit_bit_wrong`). In the runs in which only runs that are marked
committed throughout, or nowhere, are decommitted, every slice that is marked can be accessed
(`commit_bits_accessible`).
-/

namespace MimallocRs

open Interleave

variable {a : Arena} {strips : Bool}

/-- A decommit that takes the access is of a run that is marked committed throughout, or nowhere. -/
def StripsWhole (strips : Bool) : DecommitCond := fun v idx n choice =>
  strips = true → choice = 0 →
    bitRange idx n ⊆ v.bits .commit ∨ Disjoint (bitRange idx n) (v.bits .commit)

/-- Every slice that is marked committed can be accessed. -/
def MarkedAccessible (v : SliceView) : Prop := ∀ i ∈ v.bits .commit, v.region.access i = true

namespace MarkedAccessible

variable {v v' : SliceView} {idx n : ℕ}

theorem decommit {choice : ℕ} (h : MarkedAccessible v)
    (hC : StripsWhole strips (v.put .free (v.bits .free \ bitRange idx n)) idx n choice) :
    MarkedAccessible ((({ v with region := v.region.decommit strips choice idx n } :
      SliceView).clear .commit (bitRange idx n)).clear .dirty (bitRange idx n)) := by
  intro i hi
  rw [(SliceView.clear_kept _ _ _).1, (SliceView.clear_kept _ _ _).1]
  rw [(SliceView.clear_kept _ _ _).2.2.2 _ (by decide)] at hi
  by_cases hsub : bitRange idx n ⊆
      ({ v with region := v.region.decommit strips choice idx n } : SliceView).bits .commit
  · rw [SliceView.clear_of_subset _ hsub] at hi
    exact Region.access_decommit (fun _ _ => hi.2) (h i hi.1)
  · rw [SliceView.clear_of_not_subset _ hsub] at hi
    refine Region.access_decommit (fun hstrips hchoice hin => ?_) (h i hi)
    rcases hC hstrips hchoice with hall | hnone
    · exact hsub hall
    · exact Set.disjoint_left.mp hnone hin hi

/-- The slices that are handed out are marked committed, and so can be accessed. -/
theorem handedOut {zero : Bool} (h : MarkedAccessible v)
    (ho : Arena.HandedOut a idx n zero v v') :
    MarkedAccessible v' ∧ bitRange idx n ⊆ v'.bits .commit := by
  obtain ⟨v₁, hc, rfl⟩ := ho.committed
  rw [SliceView.put_of_ne _ _ (by decide)]
  have hmarked : MarkedAccessible v₁ ∧ bitRange idx n ⊆ v₁.bits .commit := by
    cases hc with
    | marked hset => exact ⟨h, hset⟩
    | commit =>
      refine ⟨fun i hi => ?_, ?_⟩
      · rw [SliceView.put_self] at hi
        rw [SliceView.put_region, Region.access_protect]
        exact hi.symm.imp_right (h i)
      · rw [SliceView.put_self]
        exact Set.subset_union_right
  refine ⟨fun i hi => ?_, hmarked.2⟩
  rw [SliceView.put_of_ne _ _ (by decide)] at hi
  exact hmarked.1 i hi

end MarkedAccessible

theorem markedAccessible_invariant (a : Arena) (strips : Bool) :
    SliceInvariant a strips (StripsWhole strips) MarkedAccessible where
  new commit v _ haccess := by
    intro i hi
    cases commit with
    | true => exact haccess i
    | false => exact absurd hi (Set.notMem_empty i)
  purged idx n v v' _ hpurged hv := by
    cases hpurged with
    | kept => exact hv
    | reset => exact hv
    | decommit choice _ hC => exact hv.decommit hC
  schedule v X hv := hv
  alloc idx n zero v v' _ hv ho := (hv.handedOut ho).1
  free idx n v _ hv := hv
  write idx off val v _ hv _ := hv

/-- **The commit bitmap is authoritative** in the runs in which only runs marked committed
throughout, or nowhere, lose their access: between two calls every marked slice can be accessed,
and so can every slice that `alloc_slices` returns. -/
theorem commit_bits_accessible {c : Config ArenaAct Unit SliceOp SliceOp.Res SliceMem}
    (h : (sliceSystem a strips).Reachable (SliceMem.Init a)
      (Performs (Decommits a (StripsWhole strips))) c) :
    (c.Quiescent → ∀ i ∈ bitsOf a.chunkCount (c.mem.arena.words .commit),
      c.mem.region.access i = true) ∧
    ∀ n tseq idx p zero, c.thread () = some ⟨.allocSlices n tseq, .ret (some (idx, p, zero))⟩ →
      ∀ i ∈ bitRange idx n, c.mem.region.access i = true := by
  have hserial := slice_reachable (markedAccessible_invariant a strips) h
  constructor
  · intro hq i hi
    rcases hserial.idle (hq ()) with hf | ⟨-, -, hv⟩
    · have hnone : i ∈ (∅ : Set ℕ) := hf.bits .commit ▸ hi
      exact absurd hnone (Set.notMem_empty i)
    · exact hv i hi
  · intro n tseq idx p zero hret i hin
    obtain ⟨s, s', hi, hs, -, ho⟩ := hserial.returned hret
    simp only [sliceSystem] at hs
    split at hs
    · next hc =>
      cases hs
      rcases hi with hf | ⟨-, -, hv⟩
      · cases hf.created.symm.trans hc
      · obtain ⟨hmarked, hsub⟩ := hv.handedOut ho
        exact hmarked i (hsub hin)
    · cases hs

/-- The first slice of an eager arena is handed out. -/
theorem commit_bits_accessible_first : ∃ c, (sliceSystem .ofTwoSlices true).run
    (Move.call () (.create true) 20 1 ++ .start () (.allocSlices 1 0) :: List.replicate 22 (.step () 1))
      ⟨.blank, fun _ => none⟩ = some c ∧ ∀ i ∈ bitRange 0 1, c.mem.region.access i = true := by
  obtain ⟨c, hc⟩ : ∃ c, (sliceSystem .ofTwoSlices true).run
      (Move.call () (.create true) 20 1 ++
        .start () (.allocSlices 1 0) :: List.replicate 22 (.step () 1))
      ⟨.blank, fun _ => none⟩ = some c := ⟨_, rfl⟩
  have hret : c.thread () = some ⟨.allocSlices 1 0, .ret (some (0, 2 ^ 32, true))⟩ := by
    cases hc
    rfl
  refine ⟨c, hc, (commit_bits_accessible (System.Reachable.run_of_moves
    (.init (SliceMem.blank_init _)) ?_ hc)).2 1 0 0 (2 ^ 32) true hret⟩
  intro m hm c t choice o β e k hstep _
  subst hstep
  have hchoice : choice = 1 := by simpa [Move.call] using hm
  cases e with
  | osDecommit idx n => exact fun _ hgranted => by omega
  | _ => trivial

/-- The slice 0 is about to be handed out and cannot be accessed. -/
def strippedSlice (c : Config ArenaAct Unit SliceOp SliceOp.Res SliceMem) : Bool :=
  match c.thread () with
  | some ⟨.allocSlices 1 0, .ret (some (0, _, _))⟩ => !c.mem.region.access 0
  | _ => false

/-- The free slices 0 and 1 are committed in part, as the commit of both has been refused, when a
purge decommits them: slice 0 stays marked, and is handed out again without access. -/
theorem commit_bit_wrong :
    ¬ ∀ c, (sliceSystem .ofTwoSlices true).Reachable (SliceMem.Init .ofTwoSlices)
      System.anyMove c →
      (c.Quiescent → ∀ i ∈ bitsOf 1 (c.mem.arena.words .commit), c.mem.region.access i = true) ∧
      ∀ n tseq idx p zero, c.thread () = some ⟨.allocSlices n tseq, .ret (some (idx, p, zero))⟩ →
        ∀ i ∈ bitRange idx n, c.mem.region.access i = true := by
  intro h
  have hrun : ((sliceSystem .ofTwoSlices true).run
      (Move.call () (.create false) 10 0 ++ Move.call () (.allocSlices 1 0) 33 0 ++
        Move.call () (.freeSlices 0 1) 25 0 ++ Move.call () (.allocSlices 2 0) 50 1 ++
        Move.call () .runPurge 70 0 ++ .start () (.allocSlices 1 0) :: List.replicate 18 (.step () 0))
      ⟨.blank, fun _ => none⟩).any strippedSlice = true := by
    decide +kernel
  obtain ⟨c, hc, htest⟩ := System.exists_run hrun
  unfold strippedSlice at htest
  split at htest
  · next p zero hret =>
    have haccess := (h c (System.reachable_of_run (SliceMem.blank_init _) hc)).2 1 0 0 p zero hret 0
      (by simp [mem_bitRange])
    rw [haccess] at htest
    cases htest
  · cases htest

end MimallocRs
