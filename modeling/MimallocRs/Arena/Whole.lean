import MimallocRs.Arena.Memory

/-!
# Whole calls on an arena and its memory

What the functions of an arena do to the sets of slices and to the memory, when they are called one
after the other. `SliceEnds` considers the executions in which every decommit meets a condition `C`
on the state in which it is made. A property that is kept when a run is purged, and when slices
are scheduled for purge or unscheduled (`Keeps`), is kept by `run_purge`, and so by what
`free_slices` and `maybe_purge` do beyond changing the free slices.
-/

namespace MimallocRs

open Interleave

/-- A condition on a decommit of `n` slices from `idx` on: the state in which it is made and the
choice of the operating system. -/
abbrev DecommitCond := SliceView → ℕ → ℕ → ℕ → Prop

/-- The events considered: all but the decommits that do not meet the condition. -/
def Decommits (a : Arena) (C : DecommitCond) {β : Type} (e : ArenaAct β) (s : SliceMem)
    (choice : ℕ) : Prop :=
  match e with
  | .osDecommit idx n => C (a.view s) idx n choice
  | _ => True

/-- Every execution comes to an end or panics, as long as the decommits meet the condition. -/
abbrev SliceEnds {α : Type} (a : Arena) (strips : Bool) (C : DecommitCond) (p : Prog ArenaAct α)
    (s : SliceMem) (Q : α → SliceMem → Prop) : Prop :=
  Ends ((sliceMachine a strips).only (Decommits a C)) () True p s Q

variable {a : Arena} {strips : Bool} {C : DecommitCond} {s : SliceMem} {α : Type} {idx n : ℕ}

theorem sliceMachine_hasBits (a : Arena) (strips : Bool) (C : DecommitCond) :
    HasBits ((sliceMachine a strips).only (Decommits a C)) a.chunkCount BitAct.of
      (fun b s => s.arena.words b) (fun b w s => s.withWords b w) where
  put_put := by simp [SliceMem.withWords]
  get_put := by simp [SliceMem.withWords]
  get_put_of_ne b b' s w h := s.arena.withWords_of_ne w h
  put_get := by simp [SliceMem.withWords]
  exec b _ e s choice := by
    have hallowed : Decommits a C (e.of b) s choice := by cases e <;> trivial
    rw [Machine.only_exec hallowed]
    cases e <;> simp only [sliceMachine, BitAct.of, ArenaMem.exec, Option.map_map, wordMachine] <;>
      rfl

@[simp] theorem view_withWords {b : BitmapId} {w : Words} :
    a.view (s.withWords b w) = (a.view s).put b (bitsOf a.chunkCount w) := by
  simp only [Arena.view, SliceMem.withWords, SliceView.put, SliceView.mk.injEq, and_true]
  funext b'
  by_cases hb : b' = b
  · rw [hb, Function.update_self, ArenaMem.withWords_words]
  · rw [Function.update_of_ne hb, ArenaMem.withWords_of_ne _ _ hb]

namespace SliceEnds

variable {Q : α → SliceMem → Prop} {b : BitmapId}

/-- A call that changes one of the bitmaps. -/
theorem onBits {p : Prog BitAct α} {R : α → Set ℕ → Prop}
    (h : BitEnds a.chunkCount True p (s.arena.words b) fun r w => R r (bitsOf a.chunkCount w))
    (hQ : ∀ r s' X, R r X → a.view s' = (a.view s).put b X → Q r s') :
    SliceEnds a strips C (onBits b p) s Q := by
  refine (sliceMachine_hasBits a strips C).ends h fun r w hr => ?_
  exact hQ r _ _ hr view_withWords

/-- A call that tests one of the bitmaps. -/
theorem onBits_test {p : Prog BitAct α} {R : α → Prop}
    (h : BitEnds a.chunkCount True p (s.arena.words b) fun r w => w = s.arena.words b ∧ R r)
    (hQ : ∀ r, R r → Q r s) : SliceEnds a strips C (MimallocRs.onBits b p) s Q :=
  (sliceMachine_hasBits a strips C).ends_test h hQ

/-- `set_n` sets a range, which lies in one chunk, or panics. -/
theorem setN {Q : Bool → SliceMem → Prop} (hin : Bitmap.InChunk a.chunkCount idx n)
    (hQ : ∀ r s', a.view s' = (a.view s).put b ((a.view s).bits b ∪ bitRange idx n) → Q r s') :
    SliceEnds a strips C (MimallocRs.onBits b (Bitmap.setN idx n)) s Q :=
  onBits (R := fun _ Y => Y = (a.view s).bits b ∪ bitRange idx n)
    (Bitmap.setN_ends a.chunkCount_le hin) fun r s' _ hX hs' => hQ r s' (hX ▸ hs')

/-- `clear_n` clears a range that lies in one chunk. -/
theorem clearN {Q : Bool → SliceMem → Prop} (hin : Bitmap.InChunk a.chunkCount idx n)
    (hQ : ∀ r s', (r = true ↔ bitRange idx n ⊆ (a.view s).bits b) →
      a.view s' = (a.view s).clear b (bitRange idx n) → Q r s') :
    SliceEnds a strips C (MimallocRs.onBits b (Bitmap.clearN idx n)) s Q := by
  refine onBits (R := fun r X => (r = true ↔ bitRange idx n ⊆ (a.view s).bits b) ∧
    X = if r then (a.view s).bits b \ bitRange idx n else (a.view s).bits b)
    (Bitmap.clearN_ends a.chunkCount_le hin) ?_
  rintro r s' X ⟨hr, rfl⟩ hs'
  refine hQ r s' hr ?_
  rw [hs', SliceView.clear]
  cases r with
  | true => rw [if_pos rfl, if_pos (hr.mp rfl)]
  | false =>
    have hnot : ¬ bitRange idx n ⊆ (a.view s).bits b := fun h => by simpa using hr.mpr h
    rw [if_neg hnot]
    simp

/-- `set_n` panics on a range that leaves its chunk. -/
theorem setN_panics {Q : Bool → SliceMem → Prop} (hn : 512 < idx % 512 + n) :
    SliceEnds a strips C (MimallocRs.onBits b (Bitmap.setN idx n)) s Q :=
  onBits (R := fun _ _ => False) (Bitmap.setN_panics hn) fun _ _ _ h => h.elim

/-- An event that is not one on a bitmap. -/
theorem act {β : Type} {e : ArenaAct β} {k : β → Prog ArenaAct α}
    (he : ∀ choice b s', Decommits a C e s choice → (sliceMachine a strips).exec () e s choice =
      some (b, s') → SliceEnds a strips C (k b) s' Q) :
    SliceEnds a strips C (.act e k) s Q := by
  refine Ends.act (fun _ _ => trivial) fun choice b s' hs => ?_
  obtain ⟨hallowed, hs⟩ := Machine.only_exec_eq_some.mp hs
  exact he choice b s' hallowed hs

end SliceEnds

/-! ## Purging -/

/-- What purging a run of scheduled slices can do: nothing, as long as not all of them are free or
purging is disabled; reset them if they are committed; or decommit them. -/
inductive SliceView.Purged (strips : Bool) (C : DecommitCond) (idx n : ℕ) :
    SliceView → SliceView → Prop
  | kept (v : SliceView) : Purged strips C idx n v v
  | reset (v : SliceView) (choice : ℕ) (hfree : bitRange idx n ⊆ v.bits .free) :
    Purged strips C idx n v { v with region := v.region.reset choice idx n }
  | decommit (v : SliceView) (choice : ℕ) (hfree : bitRange idx n ⊆ v.bits .free)
    (hC : C (v.put .free (v.bits .free \ bitRange idx n)) idx n choice) :
    Purged strips C idx n v
      ((({ v with region := v.region.decommit strips choice idx n } : SliceView).clear .commit
        (bitRange idx n)).clear .dirty (bitRange idx n))

/-- A property that purging keeps. -/
structure Keeps (strips : Bool) (C : DecommitCond) (K : SliceView → Prop) : Prop where
  purged : ∀ idx n v v', SliceView.Purged strips C idx n v v' → K v → K v'
  schedule : ∀ v X, K v → K (v.put .purge X)

namespace Arena

theorem purgeEx_view {allowReset : Bool} :
    SliceEnds a strips C (purgeEx idx n allowReset) s fun r s' =>
      s'.arena = s.arena ∧ ((r = true ∧ ∃ choice, C (a.view s) idx n choice ∧
        a.view s' = { a.view s with region := s.region.decommit strips choice idx n }) ∨
      (r = false ∧ (a.view s' = a.view s ∨ ∃ choice,
        a.view s' = { a.view s with region := s.region.reset choice idx n }))) := by
  have option : ∀ {β : Type} {o : Opt} {k : ℤ → Prog ArenaAct β} {Q : β → SliceMem → Prop},
      (∀ v, SliceEnds a strips C (k v) s Q) → SliceEnds a strips C (.act (.option o) k) s Q := by
    intro β o k Q h
    refine SliceEnds.act fun choice v s' _ hs => ?_
    cases hs
    exact h _
  simp only [purgeEx, Prog.bind_eq, Prog.pure_eq, Prog.perform_bind]
  apply option
  intro delay
  split
  · exact Ends.ret ⟨rfl, Or.inr ⟨rfl, Or.inl rfl⟩⟩
  · apply option
    intro decommits
    split
    · refine SliceEnds.act fun choice v s' hallowed hs => ?_
      cases hs
      exact Ends.ret ⟨rfl, Or.inl ⟨rfl, choice, hallowed, rfl⟩⟩
    · split
      · refine SliceEnds.act fun choice v s' _ hs => ?_
        cases hs
        exact Ends.ret ⟨rfl, Or.inr ⟨rfl, Or.inr ⟨choice, rfl⟩⟩⟩
      · exact Ends.ret ⟨rfl, Or.inr ⟨rfl, Or.inl rfl⟩⟩

/-- What purging a run of scheduled slices does. -/
theorem purgeRun_view (hin : Bitmap.InChunk a.chunkCount idx n) :
    SliceEnds a strips C (purgeRun idx n) s fun _ s' =>
      SliceView.Purged strips C idx n (a.view s) (a.view s') := by
  -- the claimed slices are given back to what has become of the arena
  have giveBack : ∀ (s' : SliceMem) (v : SliceView), bitRange idx n ⊆ v.bits .free →
      a.view s' = v.put .free (v.bits .free \ bitRange idx n) →
      SliceView.Purged strips C idx n (a.view s) v →
      SliceEnds a strips C ((onBits .free (Bitmap.setN idx n)).bind fun _ => .ret true) s'
        fun _ s'' => SliceView.Purged strips C idx n (a.view s) (a.view s'') := by
    intro s' v hfree hs' hv
    apply Ends.bind
    refine SliceEnds.setN hin fun _ s'' hs'' => Ends.ret ?_
    rw [hs', SliceView.put_self, SliceView.put_put, Set.sdiff_union_of_subset hfree,
      SliceView.put_bits] at hs''
    rwa [hs'']
  simp only [purgeRun, Prog.bind_eq, Prog.pure_eq]
  apply Ends.bind
  refine SliceEnds.clearN hin fun r s₁ hr hs₁ => ?_
  cases r with
  | false =>
    have hnot : ¬ bitRange idx n ⊆ (a.view s).bits .free := fun h => by simpa using hr.mpr h
    rw [SliceView.clear, if_neg hnot] at hs₁
    apply Ends.ret
    rw [hs₁]
    exact .kept _
  | true =>
    have hfree := hr.mp rfl
    rw [SliceView.clear, if_pos hfree] at hs₁
    have hregion : s₁.region = s.region := congrArg SliceView.region hs₁
    apply Ends.bind
    refine SliceEnds.onBits_test (Bitmap.isSetN_ends hin.1) fun allCommitted _ => ?_
    apply Ends.bind
    apply purgeEx_view.mono
    rintro r s₂ ⟨-, ⟨rfl, choice, hC, hs₂⟩ | ⟨rfl, hs₂⟩⟩
    · apply Ends.bind
      refine SliceEnds.clearN hin fun _ s₃ _ hs₃ => ?_
      apply Ends.bind
      refine SliceEnds.clearN hin fun _ s₄ _ hs₄ => ?_
      rw [hs₁] at hC
      refine giveBack s₄ _ ?_ ?_ (SliceView.Purged.decommit _ choice hfree hC)
      · rw [(SliceView.clear_kept _ _ _).2.2.2 _ (by decide),
          (SliceView.clear_kept _ _ _).2.2.2 _ (by decide)]
        exact hfree
      · rw [hs₄, hs₃, hs₂, hs₁, (SliceView.clear_kept _ _ _).2.2.2 _ (by decide),
          (SliceView.clear_kept _ _ _).2.2.2 _ (by decide), hregion,
          ← SliceView.put_clear _ _ _ (by decide), ← SliceView.put_clear _ _ _ (by decide)]
        rfl
    · rcases hs₂ with hs₂ | ⟨choice, hs₂⟩
      · exact giveBack s₂ _ hfree (hs₂.trans hs₁) (.kept _)
      · refine giveBack s₂ { a.view s with region := s.region.reset choice idx n } hfree ?_
          (.reset _ choice hfree)
        rw [hs₂, hs₁, hregion]
        rfl

/-- Purging leaves the schedule alone. -/
theorem purged_purge {v v' : SliceView} (h : SliceView.Purged strips C idx n v v') :
    v'.bits .purge = v.bits .purge := by
  cases h with
  | kept => rfl
  | reset => rfl
  | decommit choice hfree hC =>
    rw [(SliceView.clear_kept _ _ _).2.2.2 _ (by decide),
      (SliceView.clear_kept _ _ _).2.2.2 _ (by decide)]

variable {K : SliceView → Prop}

/-- **`run_purge` keeps** what purging a run and unscheduling slices keep. -/
theorem runPurge_keeps (hK : Keeps strips C K) (h : K (a.view s)) :
    SliceEnds a strips C a.runPurge s fun _ s' => K (a.view s') := by
  refine runPurgeVia_ends (sliceMachine_hasBits a strips C) (fun _ s' => K (a.view s'))
    (fun _ _ h _ _ => h) ?_ h
  intro idx e s₁ hs₁ hrun
  apply (purgeRun_view hrun.inChunk).mono
  intro did s₂ hs₂
  refine ⟨purged_purge hs₂, fun w _ => ?_⟩
  rw [view_withWords]
  exact hK.schedule _ _ (hK.purged _ _ _ _ hs₂ hs₁)

/-- An event that answers with a value and leaves the bitmaps and the memory alone. -/
theorem ends_aside {α β : Type} {e : ArenaAct β} {k : β → Prog ArenaAct α}
    {Q : α → SliceMem → Prop} (h : ∀ choice b s', (sliceMachine a strips).exec () e s choice =
      some (b, s') → a.view s' = a.view s)
    (hk : ∀ b s', a.view s' = a.view s → SliceEnds a strips C (k b) s' Q) :
    SliceEnds a strips C (.act e k) s Q :=
  SliceEnds.act fun choice b s' _ hs => hk b s' (h choice b s' hs)

theorem casExpire_view {e n' : ℤ} (choice : ℕ) (b : Bool) (s' : SliceMem)
    (h : (sliceMachine a strips).exec () (.casExpire e n') s choice = some (b, s')) :
    a.view s' = a.view s := by
  simp only [sliceMachine, ArenaMem.exec] at h
  split at h <;> cases h <;> rfl

theorem schedulePurge_keeps (hK : Keeps strips C K) (hin : Bitmap.InChunk a.chunkCount idx n)
    (h : K (a.view s)) :
    SliceEnds a strips C (a.schedulePurge idx n) s fun _ s' => K (a.view s') := by
  simp only [schedulePurge, arenaPurgeDelay, Prog.bind_eq, Prog.pure_eq, Prog.perform_bind]
  refine ends_aside (fun _ _ _ hs => by cases hs; rfl) fun delay s₁ hs₁ => ?_
  refine ends_aside (fun _ _ _ hs => by cases hs; rfl) fun mult s₂ hs₂ => ?_
  rw [← hs₁, ← hs₂] at h
  dsimp only [Prog.ret_bind]
  split
  · exact Ends.ret h
  · apply Ends.bind
    refine SliceEnds.setN hin fun _ s₃ hs₃ => ?_
    have h₃ : K (a.view s₃) := hs₃ ▸ hK.schedule _ _ h
    split
    · apply Ends.bind
      apply (runPurge_keeps hK h₃).mono
      exact fun _ _ h => Ends.ret h
    · refine ends_aside (fun _ _ _ hs => by cases hs; rfl) fun now s₄ hs₄ => ?_
      refine ends_aside casExpire_view fun _ s₅ hs₅ => Ends.ret ?_
      rwa [hs₅, hs₄]

/-- `free_slices` of a run frees it, keeps what purging keeps, and panics if the run leaves its
chunk. -/
theorem freeSlices_keeps (hK : Keeps strips C K) (hin : Bitmap.InChunk a.chunkCount idx n)
    (h : K ((a.view s).put .free ((a.view s).bits .free ∪ bitRange idx n))) :
    SliceEnds a strips C (a.freeSlices idx n) s fun _ s' => K (a.view s') := by
  simp only [freeSlices, Prog.bind_eq]
  apply Ends.bind
  refine SliceEnds.setN hin fun _ s₁ hs₁ => ?_
  exact schedulePurge_keeps hK hin (hs₁ ▸ h)

theorem maybePurge_keeps {force : Bool} (hK : Keeps strips C K) (h : K (a.view s)) :
    SliceEnds a strips C (a.maybePurge force) s fun _ s' => K (a.view s') := by
  simp only [maybePurge, Prog.bind_eq, Prog.pure_eq, Prog.perform_bind]
  split
  · exact Ends.ret h
  · split
    · refine ends_aside (fun _ _ _ hs => by cases hs; rfl) fun _ s₁ hs₁ => ?_
      exact runPurge_keeps hK (hs₁ ▸ h)
    · refine ends_aside (fun _ _ _ hs => by cases hs; rfl) fun expire s₁ hs₁ => ?_
      rw [← hs₁] at h
      split
      · exact Ends.ret h
      · refine ends_aside (fun _ _ _ hs => by cases hs; rfl) fun now s₂ hs₂ => ?_
        rw [← hs₂] at h
        split
        · exact Ends.ret h
        · refine ends_aside casExpire_view fun r s₃ hs₃ => ?_
          rw [← hs₃] at h
          split
          · exact runPurge_keeps hK h
          · exact Ends.ret h

/-! ## Allocating -/

/-- The run is committed: it is marked so, or it has been committed and marked. -/
inductive Committed (idx n : ℕ) : SliceView → SliceView → Prop
  | marked (v : SliceView) (hset : bitRange idx n ⊆ v.bits .commit) : Committed idx n v v
  | commit (v : SliceView) :
    Committed idx n v (({ v with region := v.region.protect idx n true } : SliceView).put .commit
      (v.bits .commit ∪ bitRange idx n))

theorem ensureCommitted_view (hidx : idx / 512 < a.chunkCount) :
    SliceEnds a strips C (ensureCommitted idx n) s fun r s' =>
      if r then idx % 512 + n ≤ 512 ∧ Committed idx n (a.view s) (a.view s')
      else a.view s' = a.view s := by
  simp only [ensureCommitted, Prog.bind_eq, Prog.pure_eq, Prog.perform_bind]
  apply Ends.bind
  refine SliceEnds.onBits_test (Bitmap.isSetN_ends hidx) fun r hr => ?_
  cases r with
  | true =>
    obtain ⟨hchunk, hset⟩ := hr.mp rfl
    exact Ends.ret ⟨hchunk, .marked _ hset⟩
  | false =>
    refine SliceEnds.act fun choice b s' _ hs => ?_
    by_cases hchoice : choice = 0
    · subst hchoice
      cases hs
      rw [if_pos (by rfl)]
      apply Ends.bind
      by_cases hchunk : idx % 512 + n ≤ 512
      · refine SliceEnds.setN ⟨hidx, hchunk⟩ fun _ s₂ hs₂ => Ends.ret ?_
        rw [if_pos rfl, hs₂]
        exact ⟨hchunk, .commit _⟩
      · exact SliceEnds.setN_panics (by omega)
    · have hb : b = false ∧ s' = s := by
        simp only [sliceMachine, SliceMem.os, ArenaMem.exec, Option.map_some, Option.some.injEq,
          Prod.mk.injEq, hchoice, ↓reduceIte] at hs
        exact ⟨hs.1.symm.trans (beq_eq_false_iff_ne.mpr hchoice), hs.2.symm⟩
      rw [hb.1, hb.2]
      exact Ends.ret rfl

/-- What `alloc_slices` does when it hands out the run: it was free, it is committed and it is
marked dirty; it is reported zero only if the arena was so initially and no slice of the run was
dirty. -/
structure HandedOut (a : Arena) (idx n : ℕ) (zero : Bool) (v v' : SliceView) : Prop where
  inChunk : Bitmap.InChunk a.chunkCount idx n
  free : bitRange idx n ⊆ v.bits .free
  zero : zero = true → a.initiallyZero = true ∧ Disjoint (bitRange idx n) (v.bits .dirty)
  committed : ∃ v₁, Committed idx n (v.put .free (v.bits .free \ bitRange idx n)) v₁ ∧
    v' = v₁.put .dirty (v₁.bits .dirty ∪ bitRange idx n)

theorem Committed.dirty {v v' : SliceView} (h : Committed idx n v v') :
    v'.bits .dirty = v.bits .dirty := by
  cases h with
  | marked => rfl
  | commit => exact SliceView.put_of_ne _ _ (by decide)

/-- **`alloc_slices`** hands out a run, or keeps what purging keeps. -/
theorem allocSlices_keeps {tseq : ℕ} (hK : Keeps strips C K) (h : K (a.view s)) :
    SliceEnds a strips C (a.allocSlices n tseq) s fun r s' =>
      match r with
      | none => K (a.view s')
      | some (idx, p, zero) => p = a.slicePtr idx ∧ HandedOut a idx n zero (a.view s) (a.view s') := by
  simp only [allocSlices, Prog.bind_eq, Prog.pure_eq]
  apply Ends.bind
  refine SliceEnds.onBits (R := fun r X => r.elim (X = (a.view s).bits .free) fun idx =>
    idx / 512 < a.chunkCount ∧ bitRange idx n ⊆ (a.view s).bits .free ∧
      X = (a.view s).bits .free \ bitRange idx n) ?_ ?_
  · apply (Bitmap.tryFindAndClearN_ends a.chunkCount_le).mono
    intro r w hr
    cases r with
    | none => exact congrArg (bitsOf a.chunkCount) hr.1
    | some idx =>
      obtain ⟨hle, hchunk, hsub, hw⟩ := hr
      refine ⟨?_, hsub, hw⟩
      by_cases hn : n ≤ 512
      · exact (hchunk hn).1
      · omega
  intro r s₁ X hX hs₁
  cases r with
  | none =>
    apply Ends.ret
    show K (a.view s₁)
    rwa [hs₁, hX, SliceView.put_bits]
  | some idx =>
    obtain ⟨hidx, hfree, rfl⟩ := hX
    apply Ends.bind
    apply (ensureCommitted_view hidx).mono
    intro r s₂ hr
    cases r with
    | false =>
      have hs₂ : a.view s₂ = a.view s₁ := hr
      apply Ends.bind
      by_cases hchunk : idx % 512 + n ≤ 512
      · have hback : K ((a.view s₂).put .free ((a.view s₂).bits .free ∪ bitRange idx n)) := by
          rw [hs₂, hs₁, SliceView.put_self, SliceView.put_put, Set.sdiff_union_of_subset hfree,
            SliceView.put_bits]
          exact h
        apply (freeSlices_keeps hK ⟨hidx, hchunk⟩ hback).mono
        exact fun _ _ h => Ends.ret h
      · simp only [freeSlices, Prog.bind_eq]
        apply Ends.bind
        exact SliceEnds.setN_panics (by omega)
    | true =>
      obtain ⟨hchunk, hcommit⟩ : idx % 512 + n ≤ 512 ∧ Committed idx n (a.view s₁) (a.view s₂) := hr
      have hin : Bitmap.InChunk a.chunkCount idx n := ⟨hidx, hchunk⟩
      have done : ∀ zero : Bool, (zero = true → a.initiallyZero = true ∧
          Disjoint (bitRange idx n) ((a.view s).bits .dirty)) →
          SliceEnds a strips C ((onBits .dirty (Bitmap.setN idx n)).bind fun _ =>
            .ret (some (idx, a.slicePtr idx, zero))) s₂ fun r s' =>
              r = some (idx, a.slicePtr idx, zero) ∧
                HandedOut a idx n zero (a.view s) (a.view s') := by
        intro zero hzero
        apply Ends.bind
        refine SliceEnds.setN hin fun _ s₃ hs₃ => Ends.ret ⟨rfl, hin, hfree, hzero, _, ?_, hs₃⟩
        rwa [← hs₁]
      rw [if_pos rfl]
      split
      · next hinit =>
        apply Ends.bind
        refine SliceEnds.onBits_test (Bitmap.isClearN_ends hidx) fun zero hzero => ?_
        have hclean : zero = true → a.initiallyZero = true ∧
            Disjoint (bitRange idx n) ((a.view s).bits .dirty) := by
          intro hz
          have hdirty : bitsOf a.chunkCount (s₂.arena.words .dirty) = (a.view s).bits .dirty := by
            have := hcommit.dirty
            rwa [hs₁, SliceView.put_of_ne _ _ (by decide)] at this
          rw [← hdirty]
          exact ⟨hinit, (hzero.mp hz).2⟩
        apply (done zero hclean).mono
        rintro _ s₃ ⟨rfl, hout⟩
        exact ⟨rfl, hout⟩
      · apply (done false fun hz => by cases hz).mono
        rintro _ s₃ ⟨rfl, hout⟩
        exact ⟨rfl, hout⟩

/-- A new arena: all slices are free, committed if it is eager, and dirty if it is not zero. -/
def newView (a : Arena) (commit : Bool) (v : SliceView) : SliceView :=
  { v with bits := fun b => match b with
    | .free => bitRange 0 a.sliceCount
    | .commit => if commit then bitRange 0 a.sliceCount else ∅
    | .purge => ∅
    | .dirty => if a.initiallyZero then ∅ else bitRange 0 a.sliceCount }

theorem initBitmaps_view {commit : Bool} (hwords : ∀ b, (a.view s).bits b = ∅) :
    SliceEnds a strips C (a.initBitmaps commit) s fun _ s' =>
      a.view s' = a.newView commit (a.view s) := by
  have hin : 0 + a.sliceCount ≤ a.chunkCount * 512 := by
    rw [Nat.zero_add]
    exact a.sliceCount_le
  -- all slices are marked in a bitmap that was empty
  have mark : ∀ (b : BitmapId) (s : SliceMem) (Q : Unit → SliceMem → Prop),
      (a.view s).bits b = ∅ → (∀ s', a.view s' = (a.view s).put b (bitRange 0 a.sliceCount) →
        Q () s') → SliceEnds a strips C (onBits b (Bitmap.unsafeSetN 0 a.sliceCount)) s Q := by
    intro b s Q hb hQ
    refine SliceEnds.onBits (R := fun _ X => X = (a.view s).bits b ∪ bitRange 0 a.sliceCount)
      (Bitmap.unsafeSetN_ends a.chunkCount_le hin) fun _ s' X hX hs' => hQ s' ?_
    rw [hs', hX, hb, Set.empty_union]
  simp only [initBitmaps, Prog.bind_eq, Prog.pure_eq]
  apply Ends.bind
  refine mark .free s _ (hwords _) fun s₁ hs₁ => ?_
  have finish : ∀ s₂ : SliceMem, a.view s₂ = ((a.view s).put .free (bitRange 0 a.sliceCount)).put
      .commit (if commit then bitRange 0 a.sliceCount else ∅) →
      SliceEnds a strips C (if a.initiallyZero then .ret () else
        onBits .dirty (Bitmap.unsafeSetN 0 a.sliceCount)) s₂ fun _ s' =>
          a.view s' = a.newView commit (a.view s) := by
    intro s₂ hs₂
    have hdirty : (a.view s₂).bits .dirty = ∅ := by
      rw [hs₂, SliceView.put_of_ne _ _ (by decide), SliceView.put_of_ne _ _ (by decide), hwords]
    have hput : a.newView commit (a.view s) =
        (a.view s₂).put .dirty (if a.initiallyZero then ∅ else bitRange 0 a.sliceCount) := by
      simp only [newView, hs₂, SliceView.put, SliceView.mk.injEq, and_true]
      funext b
      cases b <;> simp [Function.update, hwords]
    rw [hput]
    split
    · apply Ends.ret
      rw [← hdirty, SliceView.put_bits]
    · exact mark .dirty s₂ _ hdirty fun _ h => h
  split
  · next hc =>
    apply Ends.bind
    have hcommit : (a.view s₁).bits .commit = ∅ := by
      rw [hs₁, SliceView.put_of_ne _ _ (by decide), hwords]
    refine mark .commit s₁ _ hcommit fun s₂ hs₂ => finish s₂ ?_
    rw [hs₂, hs₁, if_pos hc]
  · next hc =>
    refine finish s₁ ?_
    rw [hs₁, if_neg hc, ← hwords .commit,
      ← SliceView.put_of_ne (a.view s) _ (show BitmapId.commit ≠ .free by decide),
      SliceView.put_bits]

end Arena

end MimallocRs
