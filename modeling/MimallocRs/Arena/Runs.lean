import MimallocRs.Arena.Whole

/-!
# Runs of an arena

The run rule for the functions of an arena called one after the other: a property of the sets of
slices and the memory that purging keeps, and that allocating, freeing and writing re-establish,
holds whenever no call is running, and what `alloc_slices` is about to return has been handed out
as `HandedOut` says.
-/

namespace MimallocRs

open Interleave

variable {a : Arena} {strips : Bool} {C : DecommitCond}

/-- A slice of a run that has been handed out. -/
def SliceView.Holds (v : SliceView) (i : ℕ) : Prop := ∃ r ∈ v.held, r.1 ≤ i ∧ i < r.1 + r.2

/-- There is no arena yet. -/
structure Fresh (a : Arena) (v : SliceView) : Prop where
  created : v.created = false
  bits : ∀ b, v.bits b = ∅
  held : v.held = []
  zero : a.initiallyZero = true → ∀ i, v.region.ZeroAt i

/-- The runs that have been handed out lie in chunks of their own slices, none of them free. -/
structure Held (a : Arena) (v : SliceView) : Prop where
  inChunk : ∀ r ∈ v.held, Bitmap.InChunk a.chunkCount r.1 r.2
  free : ∀ r ∈ v.held, Disjoint (bitRange r.1 r.2) (v.bits .free)
  pairwise : v.held.Pairwise fun r r' => Disjoint (bitRange r.1 r.2) (bitRange r'.1 r'.2)

/-- What an invariant of the slices has to survive. -/
structure SliceInvariant (a : Arena) (strips : Bool) (C : DecommitCond) (K : SliceView → Prop) :
    Prop where
  new : ∀ commit v, Fresh a v → (∀ i, v.region.access i = commit) →
    K (a.newView commit { v with created := true })
  purged : ∀ idx n v v', Held a v → SliceView.Purged strips C idx n v v' → K v → K v'
  schedule : ∀ v X, K v → K (v.put .purge X)
  alloc : ∀ idx n zero v v', Held a v → K v → Arena.HandedOut a idx n zero v v' →
    K { v' with held := (idx, n) :: v'.held }
  free : ∀ idx n v, Held a v → K v →
    K (({ v with held := v.held.erase (idx, n) } : SliceView).put .free
      (v.bits .free ∪ bitRange idx n))
  write : ∀ idx off val v, Held a v → K v → v.Holds idx →
    K { v with region := v.region.write idx off val }

variable {K : SliceView → Prop}

/-- What holds between two operations. -/
def sliceInv (a : Arena) (K : SliceView → Prop) (v : SliceView) : Prop :=
  Fresh a v ∨ v.created = true ∧ Held a v ∧ K v

/-- What an operation started in `s₀` leaves when it returns. -/
def slicePost (a : Arena) (K : SliceView → Prop) :
    (o : SliceOp) → SliceMem → o.Res → SliceMem → Prop
  | .allocSlices n _, s₀, some (idx, p, zero), s =>
    p = a.slicePtr idx ∧ Arena.HandedOut a idx n zero (a.view s₀) (a.view s)
  | _, _, _, s => sliceInv a K (a.view s)

theorem purged_kept {idx n : ℕ} {v v' : SliceView} (h : SliceView.Purged strips C idx n v v') :
    v'.created = v.created ∧ v'.held = v.held ∧ v'.bits .free = v.bits .free := by
  cases h with
  | kept => exact ⟨rfl, rfl, rfl⟩
  | reset => exact ⟨rfl, rfl, rfl⟩
  | decommit choice hfree hC =>
    obtain ⟨-, hheld, hcreated, hbits⟩ := SliceView.clear_kept
      (({ v with region := v.region.decommit strips choice idx n } : SliceView).clear .commit
        (bitRange idx n)) .dirty (bitRange idx n)
    obtain ⟨-, hheld', hcreated', hbits'⟩ := SliceView.clear_kept
      ({ v with region := v.region.decommit strips choice idx n } : SliceView) .commit
        (bitRange idx n)
    exact ⟨hcreated.trans hcreated', hheld.trans hheld',
      (hbits .free (by decide)).trans (hbits' .free (by decide))⟩

theorem handedOut_kept {idx n : ℕ} {zero : Bool} {v v' : SliceView}
    (h : Arena.HandedOut a idx n zero v v') :
    v'.created = v.created ∧ v'.held = v.held ∧ v'.bits .free = v.bits .free \ bitRange idx n ∧
      v'.region.data = v.region.data := by
  obtain ⟨v₁, hc, rfl⟩ := h.committed
  rw [SliceView.put_of_ne _ _ (by decide)]
  cases hc with
  | marked => exact ⟨rfl, rfl, by simp, rfl⟩
  | commit =>
    exact ⟨rfl, rfl, (SliceView.put_of_ne _ _ (by decide)).trans (v.put_self .free _), rfl⟩

/-! ## The runs that are held -/

namespace Held

variable {v v' : SliceView} {idx n : ℕ}

/-- Nothing changes in what is held and what is free. -/
theorem congr (h : Held a v) (hheld : v'.held = v.held) (hfree : v'.bits .free = v.bits .free) :
    Held a v' where
  inChunk := hheld ▸ h.inChunk
  free := by
    rw [hheld, hfree]
    exact h.free
  pairwise := hheld ▸ h.pairwise

theorem alloc {zero : Bool} (h : Held a v) (ho : Arena.HandedOut a idx n zero v v') :
    Held a { v' with held := (idx, n) :: v'.held } := by
  obtain ⟨-, hheld, hfree, -⟩ := handedOut_kept ho
  refine ⟨?_, ?_, ?_⟩
  · intro r hr
    rcases List.mem_cons.mp hr with rfl | hr
    · exact ho.inChunk
    · exact h.inChunk r (hheld ▸ hr)
  · intro r hr
    show Disjoint _ (v'.bits .free)
    rw [hfree]
    rcases List.mem_cons.mp hr with rfl | hr
    · exact Set.disjoint_sdiff_right
    · exact (h.free r (hheld ▸ hr)).mono_right Set.sdiff_subset
  · show ((idx, n) :: v'.held).Pairwise _
    rw [hheld]
    exact List.Pairwise.cons (fun r hr => (h.free r hr).symm.mono_left ho.free) h.pairwise

theorem give (h : Held a v) (hmem : (idx, n) ∈ v.held) :
    Held a (({ v with held := v.held.erase (idx, n) } : SliceView).put .free
      (v.bits .free ∪ bitRange idx n)) := by
  -- the runs that are left do not meet the one that is given back
  have hpair := (List.perm_cons_erase hmem).pairwise_iff
    (R := fun r r' : ℕ × ℕ => Disjoint (bitRange r.1 r.2) (bitRange r'.1 r'.2))
    (fun h => h.symm) |>.mp h.pairwise
  refine ⟨fun r hr => h.inChunk r (List.mem_of_mem_erase hr), fun r hr => ?_, hpair.of_cons⟩
  rw [SliceView.put_self, Set.disjoint_union_right]
  exact ⟨h.free r (List.mem_of_mem_erase hr), (List.rel_of_pairwise_cons hpair hr).symm⟩

end Held

/-! ## The run rule -/

theorem SliceInvariant.keeps (hK : SliceInvariant a strips C K) :
    Keeps strips C fun v => v.created = true ∧ Held a v ∧ K v where
  purged idx n v v' h hv := by
    obtain ⟨hcreated, hheld, hfree⟩ := purged_kept h
    exact ⟨hcreated.trans hv.1, hv.2.1.congr hheld hfree, hK.purged idx n v v' hv.2.1 h hv.2.2⟩
  schedule v X hv := ⟨hv.1, hv.2.1.congr rfl (v.put_of_ne X (by decide)), hK.schedule v X hv.2.2⟩

theorem slice_start (hK : SliceInvariant a strips C K) {o : SliceOp} {s s' : SliceMem}
    (hi : sliceInv a K (a.view s)) (hs : (sliceSystem a strips).start () o s = some s') :
    SliceEnds a strips C ((sliceSystem a strips).prog () o) s' (slicePost a K o s) := by
  have created : s.created = true → Held a (a.view s) ∧ K (a.view s) := by
    intro hc
    rcases hi with hf | hi
    · cases hf.created.symm.trans hc
    · exact hi.2
  have live : ∀ s', (if s.created then some s else none) = some s' →
      s' = s ∧ (a.view s).created = true ∧ Held a (a.view s) ∧ K (a.view s) := by
    intro s' hs
    split at hs
    · next hc =>
      cases hs
      exact ⟨rfl, hc, created hc⟩
    · cases hs
  cases o with
  | create commit =>
    simp only [sliceSystem] at hs
    split at hs
    · cases hs
    · next hc =>
      cases hs
      rcases hi with hf | hi
      · have hwords : ∀ b, (a.view { s with
            created := true, region := { s.region with access := fun _ => commit } }).bits b = ∅ :=
          hf.bits
        apply (Arena.initBitmaps_view hwords).mono
        intro _ s₁ hs₁
        have hheld : s.held = [] := hf.held
        refine Or.inr ?_
        rw [hs₁]
        refine ⟨rfl, ?_, hK.new commit { a.view s with
          region := { s.region with access := fun _ => commit } } ?_ fun _ => rfl⟩
        · refine ⟨?_, ?_, ?_⟩ <;> simp [Arena.newView, Arena.view, hheld]
        · exact ⟨hf.created, hf.bits, hf.held, hf.zero⟩
      · exact absurd hi.1 hc
  | allocSlices n tseq =>
    obtain ⟨rfl, hv⟩ := live s' hs
    apply (Arena.allocSlices_keeps hK.keeps hv).mono
    intro r s₁ hr
    cases r with
    | none => exact Or.inr hr
    | some r => exact hr
  | freeSlices idx n =>
    simp only [sliceSystem] at hs
    split at hs
    · next hmem =>
      cases hs
      rcases hi with hf | ⟨hc, hh, hv⟩
      · have hheld : s.held = [] := hf.held
        rw [hheld] at hmem
        cases hmem
      · have hends := Arena.freeSlices_keeps (s := { s with held := s.held.erase (idx, n) })
          hK.keeps (hh.inChunk _ hmem) ⟨hc, hh.give hmem, hK.free idx n _ hh hv⟩
        exact hends.mono fun _ _ h => Or.inr h
    · cases hs
  | maybePurge force =>
    obtain ⟨rfl, hv⟩ := live s' hs
    exact (Arena.maybePurge_keeps hK.keeps hv).mono fun _ _ h => Or.inr h
  | runPurge =>
    obtain ⟨rfl, hv⟩ := live s' hs
    exact (Arena.runPurge_keeps hK.keeps hv).mono fun _ _ h => Or.inr h
  | write idx off val =>
    simp only [sliceSystem] at hs
    split at hs
    · next hheld =>
      cases hs
      rcases hi with hf | ⟨hc, hh, hv⟩
      · have hnil : s.held = [] := hf.held
        rw [hnil] at hheld
        obtain ⟨r, hr, -⟩ := hheld
        cases hr
      · exact Ends.ret (Or.inr ⟨hc, hh.congr rfl rfl, hK.write idx off val _ hh hv hheld⟩)
    · cases hs
  | setOption o val =>
    cases hs
    exact Ends.ret hi
  | tick now =>
    cases hs
    exact Ends.ret hi

theorem slice_finish (hK : SliceInvariant a strips C K) {o : SliceOp} {s s' s'' : SliceMem}
    {r : o.Res} (hi : sliceInv a K (a.view s)) (hs : (sliceSystem a strips).start () o s = some s')
    (hpost : slicePost a K o s r s'') :
    sliceInv a K (a.view ((sliceSystem a strips).finish () o r s'')) := by
  cases o with
  | allocSlices n tseq =>
    cases r with
    | none => exact hpost
    | some r =>
      obtain ⟨idx, p, zero⟩ := r
      obtain ⟨-, ho⟩ := hpost
      simp only [sliceSystem] at hs
      split at hs
      · next hc =>
        cases hs
        rcases hi with hf | ⟨-, hh, hv⟩
        · cases hf.created.symm.trans hc
        · exact Or.inr ⟨(handedOut_kept ho).1.trans hc, hh.alloc ho,
            hK.alloc idx n zero _ _ hh hv ho⟩
      · cases hs
  | create | freeSlices | maybePurge | runPurge | write | setOption | tick => exact hpost

/-- **The run rule of an arena.** -/
theorem slice_reachable (hK : SliceInvariant a strips C K)
    {c : Config ArenaAct Unit SliceOp SliceOp.Res SliceMem}
    (h : (sliceSystem a strips).Reachable (SliceMem.Init a) (Performs (Decommits a C)) c) :
    Serial (sliceSystem a strips) ((sliceMachine a strips).only (Decommits a C)) True
      (fun s => sliceInv a K (a.view s)) (slicePost a K) c := by
  refine System.Reachable.serial_only (fun _ _ h => h) ?_ ?_ ?_ h
  · intro s hs
    refine Or.inl ⟨hs.created, fun b => ?_, hs.held, hs.zero⟩
    simp [Arena.view, hs.words, bitsOf]
  · exact fun o s s' hi hs => slice_start hK hi hs
  · exact fun o s s' r s'' hi hs hpost => slice_finish hK hi hs hpost

/-! ## A small arena -/

/-- An arena of two slices. -/
def Arena.ofTwoSlices : Arena where
  start := 2 ^ 32
  sliceCount := 2
  chunkCount := 1
  isPinned := false
  initiallyZero := true
  sliceCount_pos := by decide
  chunkCount_eq := by decide
  chunkCount_le := by decide

/-- Memory that is zero and belongs to no arena yet. -/
def SliceMem.blank : SliceMem where
  arena := ⟨fun _ _ => 0#64, 0, Opt.defaultValue, 0⟩
  region := ⟨fun _ _ => 0#8, fun _ => false⟩
  created := false
  held := []

theorem SliceMem.blank_init (a : Arena) : SliceMem.Init a blank :=
  ⟨rfl, rfl, fun _ _ _ _ => rfl, rfl, rfl⟩

end MimallocRs
