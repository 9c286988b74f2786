import MimallocRs.Arena.PurgeLoop

/-!
# Allocating and freeing slices

What the slice functions of an arena do in whole calls. A run of at most 512 slices lies in one
chunk of the bitmaps, and all is well with it; a run of more slices is found across chunks, and
then the calls of `set_n` on the commit bitmap, or on the free bitmap when the commit has failed,
leave their chunk and panic (`alloc_slices_within_chunks`).
-/

namespace MimallocRs

open Interleave

/-- The state of an arena, of the options and of the clock. -/
structure ArenaMem where
  words : BitmapId → Words
  expire : ℤ
  opts : Opt → ℤ
  now : ℤ

/-- A bitmap of the arena has been changed to the words `w`. -/
def ArenaMem.withWords (s : ArenaMem) (b : BitmapId) (w : Words) : ArenaMem :=
  { s with words := Function.update s.words b w }

@[simp] theorem ArenaMem.withWords_words (s : ArenaMem) (b : BitmapId) (w : Words) :
    (s.withWords b w).words b = w := Function.update_self ..

@[simp] theorem ArenaMem.withWords_of_ne (s : ArenaMem) {b b' : BitmapId} (w : Words) (h : b' ≠ b) :
    (s.withWords b w).words b' = s.words b' := Function.update_of_ne h ..

@[simp] theorem ArenaMem.withWords_self (s : ArenaMem) (b : BitmapId) :
    s.withWords b (s.words b) = s := by
  simp [withWords]

@[simp] theorem ArenaMem.withWords_withWords (s : ArenaMem) (b : BitmapId) (w w' : Words) :
    (s.withWords b w').withWords b w = s.withWords b w := by
  simp [withWords]

/-- An event on an arena whose bitmaps have `cc` chunks; the choice is whether the operating system
commits. -/
def ArenaMem.exec {β : Type} (cc : ℕ) (e : ArenaAct β) (s : ArenaMem) (choice : ℕ) :
    Option (β × ArenaMem) :=
  match e with
  | .load b l => (wordExec cc (.load l) (s.words b)).map fun r =>
    (r.1, s.withWords b r.2)
  | .cas b l old new => (wordExec cc (.cas l old new) (s.words b)).map fun r =>
    (r.1, s.withWords b r.2)
  | .osCommit _ _ => some (choice == 0, s)
  | .osDecommit _ _ | .osReset _ _ => some ((), s)
  | .option o => some (s.opts o, s)
  | .clock => some (s.now, s)
  | .loadExpire => some (s.expire, s)
  | .storeExpire n => some ((), { s with expire := n })
  | .casExpire e n => if s.expire = e then some (true, { s with expire := n }) else some (false, s)

/-- An arena used by one thread. -/
def arenaMachine (a : Arena) : Machine ArenaAct Unit ArenaMem where
  exec _ e s choice := s.exec a.chunkCount e choice

theorem arenaMachine_hasBits (a : Arena) : HasBits (arenaMachine a) a.chunkCount BitAct.of
    (fun b s => s.words b) (fun b w s => s.withWords b w) where
  put_put := by simp
  get_put := by simp
  get_put_of_ne b b' s w h := s.withWords_of_ne w h
  put_get := by simp
  exec b _ e s choice := by cases e <;> rfl

/-- Every execution of an arena program from the state `s` comes to an end. -/
abbrev ArenaEnds {α : Type} (a : Arena) (panics : Prop) (p : Prog ArenaAct α) (s : ArenaMem)
    (Q : α → ArenaMem → Prop) : Prop :=
  Ends (arenaMachine a) () panics p s Q

/-- The free slices of an arena. -/
def Arena.freeBits (a : Arena) (s : ArenaMem) : Set ℕ := bitsOf a.chunkCount (s.words .free)

variable {a : Arena} {panics : Prop} {s : ArenaMem} {α : Type}

namespace ArenaEnds

variable {Q : α → ArenaMem → Prop}

/-- A call on one of the bitmaps. -/
theorem onBits {b : BitmapId} {p : Prog BitAct α} {R : α → Words → Prop}
    (h : BitEnds a.chunkCount panics p (s.words b) R)
    (hQ : ∀ r w, R r w → Q r (s.withWords b w)) : ArenaEnds a panics (onBits b p) s Q :=
  (arenaMachine_hasBits a).ends h hQ

theorem act {β : Type} {e : ArenaAct β} {k : β → Prog ArenaAct α}
    (he : ∀ choice, ∃ b s', s.exec a.chunkCount e choice = some (b, s') ∧
      ArenaEnds a panics (k b) s' Q) :
    ArenaEnds a panics (.act e k) s Q := by
  apply Ends.act
  · intro choice hn
    obtain ⟨b, s', hs, -⟩ := he choice
    cases hn.symm.trans hs
  · intro choice b s' hs
    obtain ⟨b', s'', hs', h⟩ := he choice
    cases hs.symm.trans hs'
    exact h

end ArenaEnds

namespace Arena

variable {idx n : ℕ}

@[simp] theorem freeBits_withWords {w : Words} {b : BitmapId} (hb : b ≠ .free) :
    a.freeBits (s.withWords b w) = a.freeBits s := by
  rw [freeBits, freeBits, ArenaMem.withWords_of_ne s w hb.symm]

@[simp] theorem freeBits_withFree {w : Words} :
    a.freeBits (s.withWords .free w) = bitsOf a.chunkCount w := by
  rw [freeBits, ArenaMem.withWords_words]

/-! ## Purging -/

theorem purgeEx_ends {allowReset : Bool} :
    ArenaEnds a panics (purgeEx idx n allowReset) s fun _ s' => s' = s := by
  simp only [purgeEx, Prog.bind_eq, Prog.pure_eq, Prog.perform_bind]
  refine ArenaEnds.act fun _ => ⟨_, _, rfl, ?_⟩
  split
  · exact Ends.ret rfl
  · refine ArenaEnds.act fun _ => ⟨_, _, rfl, ?_⟩
    split
    · exact ArenaEnds.act fun _ => ⟨_, _, rfl, Ends.ret rfl⟩
    · split
      · exact ArenaEnds.act fun _ => ⟨_, _, rfl, Ends.ret rfl⟩
      · exact Ends.ret rfl

/-- The slices of a run are free again after the run has been purged. -/
theorem purgeRun_ends (hin : Bitmap.InChunk a.chunkCount idx n) :
    ArenaEnds a panics (purgeRun idx n) s fun _ s' =>
      a.freeBits s' = a.freeBits s ∧ s'.words .purge = s.words .purge := by
  have giveBack : ∀ s' : ArenaMem, bitRange idx n ⊆ a.freeBits s →
      a.freeBits s' = a.freeBits s \ bitRange idx n → s'.words .purge = s.words .purge →
      ArenaEnds a panics ((onBits .free (Bitmap.setN idx n)).bind fun _ => .ret true) s'
        fun _ s'' => a.freeBits s'' = a.freeBits s ∧ s''.words .purge = s.words .purge := by
    intro s' hsub hs' hpurge
    apply Ends.bind
    refine ArenaEnds.onBits (Bitmap.setN_ends a.chunkCount_le hin) fun _ w hw => Ends.ret ?_
    rw [freeBits_withFree, hw, ArenaMem.withWords_of_ne s' w (by decide)]
    refine ⟨?_, hpurge⟩
    change a.freeBits s' ∪ _ = _
    rw [hs', Set.sdiff_union_of_subset hsub]
  simp only [purgeRun, Prog.bind_eq, Prog.pure_eq]
  apply Ends.bind
  refine ArenaEnds.onBits (Bitmap.clearN_ends a.chunkCount_le hin) ?_
  rintro r w ⟨hr, hw⟩
  have hpurge : (s.withWords .free w).words .purge = s.words .purge := by
    rw [ArenaMem.withWords_of_ne s w (by decide)]
  cases r with
  | false =>
    apply Ends.ret
    rw [freeBits_withFree, hw]
    exact ⟨rfl, hpurge⟩
  | true =>
    have hsub : bitRange idx n ⊆ a.freeBits s := hr.mp rfl
    have hclaimed : a.freeBits (s.withWords .free w) = a.freeBits s \ bitRange idx n := by
      rw [freeBits_withFree, hw]
      rfl
    apply Ends.bind
    refine (arenaMachine_hasBits a).ends_test (Bitmap.isSetN_ends hin.1) ?_
    intro allCommitted _
    apply Ends.bind
    apply purgeEx_ends.mono
    rintro needsRecommit _ rfl
    cases needsRecommit with
    | false => exact giveBack _ hsub hclaimed hpurge
    | true =>
      apply Ends.bind
      refine ArenaEnds.onBits (Bitmap.clearN_ends a.chunkCount_le hin) fun _ w₂ _ => ?_
      apply Ends.bind
      refine ArenaEnds.onBits (Bitmap.clearN_ends a.chunkCount_le hin) fun _ w₃ _ => ?_
      apply giveBack _ hsub
      · rw [freeBits_withWords (by decide), freeBits_withWords (by decide), hclaimed]
      · rw [ArenaMem.withWords_of_ne _ w₃ (by decide), ArenaMem.withWords_of_ne _ w₂ (by decide),
          hpurge]

/-- **Purging** comes to an end, and the slices that were free are free afterwards. -/
theorem runPurge_ends :
    ArenaEnds a panics a.runPurge s fun _ s' => a.freeBits s' = a.freeBits s := by
  refine runPurgeVia_ends (arenaMachine_hasBits a) (fun _ s' => a.freeBits s' = a.freeBits s)
    (fun _ _ h _ _ => h) ?_ rfl
  intro idx e s₁ hs₁ hrun
  apply (purgeRun_ends hrun.inChunk).mono
  rintro did s₂ ⟨hs₂, hpurge⟩
  refine ⟨congrArg (bitsOf a.chunkCount) hpurge, fun w _ => ?_⟩
  rw [freeBits_withWords (by decide), hs₂, hs₁]

theorem arenaPurgeDelay_ends :
    ArenaEnds a panics arenaPurgeDelay s fun _ s' => s' = s :=
  ArenaEnds.act fun _ => ⟨_, _, rfl, ArenaEnds.act fun _ => ⟨_, _, rfl, Ends.ret rfl⟩⟩

theorem schedulePurge_ends (hin : Bitmap.InChunk a.chunkCount idx n) :
    ArenaEnds a panics (a.schedulePurge idx n) s fun _ s' => a.freeBits s' = a.freeBits s := by
  simp only [schedulePurge, Prog.bind_eq, Prog.pure_eq, Prog.perform_bind]
  apply Ends.bind
  apply arenaPurgeDelay_ends.mono
  intro delay s₁ hs₁
  rw [hs₁]
  split
  · exact Ends.ret rfl
  · apply Ends.bind
    refine ArenaEnds.onBits (Bitmap.setN_ends a.chunkCount_le hin) fun _ w _ => ?_
    split
    · apply Ends.bind
      apply runPurge_ends.mono
      intro _ s' hs'
      apply Ends.ret
      rw [hs', freeBits_withWords (by decide)]
    · refine ArenaEnds.act fun _ => ⟨_, _, rfl, ?_⟩
      refine ArenaEnds.act fun _ => ?_
      by_cases hexpire : (s.withWords .purge w).expire = 0
      · refine ⟨true, _, if_pos hexpire, Ends.ret ?_⟩
        exact freeBits_withWords (by decide)
      · refine ⟨false, _, if_neg hexpire, Ends.ret ?_⟩
        exact freeBits_withWords (by decide)

theorem maybePurge_ends {force : Bool} :
    ArenaEnds a panics (a.maybePurge force) s fun _ s' => a.freeBits s' = a.freeBits s := by
  simp only [maybePurge, Prog.bind_eq, Prog.pure_eq, Prog.perform_bind]
  split
  · exact Ends.ret rfl
  · split
    · exact ArenaEnds.act fun _ => ⟨_, _, rfl, runPurge_ends⟩
    · refine ArenaEnds.act fun _ => ⟨_, _, rfl, ?_⟩
      split
      · exact Ends.ret rfl
      · refine ArenaEnds.act fun _ => ⟨_, _, rfl, ?_⟩
        split
        · exact Ends.ret rfl
        · exact ArenaEnds.act fun _ => ⟨true, _, if_pos rfl, runPurge_ends⟩

/-! ## Allocating and freeing -/

/-- Freeing a run that lies in one chunk sets its bits. -/
theorem freeSlices_ends (hin : Bitmap.InChunk a.chunkCount idx n) :
    ArenaEnds a panics (a.freeSlices idx n) s fun _ s' =>
      a.freeBits s' = a.freeBits s ∪ bitRange idx n := by
  simp only [freeSlices, Prog.bind_eq]
  apply Ends.bind
  refine ArenaEnds.onBits (Bitmap.setN_ends a.chunkCount_le hin) fun _ w hw => ?_
  apply (schedulePurge_ends hin).mono
  intro _ s' hs'
  rw [hs', freeBits_withFree, hw]
  rfl

/-- Freeing a run that leaves its chunk panics. -/
theorem freeSlices_panics (hn : 512 < idx % 512 + n) :
    ArenaEnds a True (a.freeSlices idx n) s fun _ _ => False := by
  simp only [freeSlices, Prog.bind_eq]
  apply Ends.bind
  exact ArenaEnds.onBits (Bitmap.setN_panics hn) fun _ _ h => h.elim

/-- Committing a run that lies in one chunk leaves the free slices alone. -/
theorem ensureCommitted_ends (hin : Bitmap.InChunk a.chunkCount idx n) :
    ArenaEnds a panics (ensureCommitted idx n) s fun _ s' => a.freeBits s' = a.freeBits s := by
  simp only [ensureCommitted, Prog.bind_eq, Prog.pure_eq, Prog.perform_bind]
  apply Ends.bind
  refine ArenaEnds.onBits (Bitmap.isSetN_ends hin.1) ?_
  rintro r w ⟨rfl, -⟩
  rw [ArenaMem.withWords_self]
  cases r with
  | true => exact Ends.ret rfl
  | false =>
    refine ArenaEnds.act fun choice => ⟨_, _, rfl, ?_⟩
    split
    · apply Ends.bind
      refine ArenaEnds.onBits (Bitmap.setN_ends a.chunkCount_le hin) fun _ w _ => Ends.ret ?_
      exact freeBits_withWords (by decide)
    · exact Ends.ret rfl

/-- A run that leaves its chunk is never found committed, and cannot be marked so. -/
theorem ensureCommitted_or_panics (hidx : idx / 512 < a.chunkCount) (hn : 512 < idx % 512 + n) :
    ArenaEnds a True (ensureCommitted idx n) s fun r _ => r = false := by
  simp only [ensureCommitted, Prog.bind_eq, Prog.pure_eq, Prog.perform_bind]
  apply Ends.bind
  refine ArenaEnds.onBits (Bitmap.isSetN_ends hidx) ?_
  rintro r w ⟨rfl, hr⟩
  rw [ArenaMem.withWords_self]
  cases r with
  | true =>
    have hle := (hr.mp rfl).1
    omega
  | false =>
    refine ArenaEnds.act fun choice => ⟨_, _, rfl, ?_⟩
    split
    · apply Ends.bind
      exact ArenaEnds.onBits (Bitmap.setN_panics hn) fun _ _ h => h.elim
    · exact Ends.ret rfl

/-- What `alloc_slices` owes its caller: nothing has changed, or it has taken a run of free slices,
which `free_slices` gives back exactly, now or later. -/
def Allocated (a : Arena) (n : ℕ) (s : ArenaMem) : Option (ℕ × ℕ × Bool) → ArenaMem → Prop
  | none, s' => a.freeBits s' = a.freeBits s
  | some (idx, p, _), s' => p = a.slicePtr idx ∧ bitRange idx n ⊆ a.freeBits s ∧
    a.freeBits s' = a.freeBits s \ bitRange idx n ∧
    ∀ later, ArenaEnds a False (a.freeSlices idx n) later fun _ later' =>
      a.freeBits later' = a.freeBits later ∪ bitRange idx n

/-- A run of at most 512 slices is allocated within a chunk. -/
theorem allocSlices_ends {tseq : ℕ} (hn : n ≤ 512 ∨ ∀ idx, ¬ bitRange idx n ⊆ a.freeBits s) :
    ArenaEnds a panics (a.allocSlices n tseq) s (a.Allocated n s) := by
  simp only [allocSlices, Prog.bind_eq, Prog.pure_eq]
  apply Ends.bind
  refine ArenaEnds.onBits (Bitmap.tryFindAndClearN_ends a.chunkCount_le) ?_
  intro r w hr
  cases r with
  | none =>
    apply Ends.ret
    rw [Allocated, hr.1, ArenaMem.withWords_self]
  | some idx =>
    obtain ⟨-, hchunk, hsub, hw⟩ := hr
    have hin := hchunk (hn.resolve_right fun h => h idx hsub)
    have htaken : a.freeBits (s.withWords .free w) = a.freeBits s \ bitRange idx n := by
      rw [freeBits_withFree, hw]
      rfl
    have done : ∀ (s' : ArenaMem) (b : Bool), a.freeBits s' = a.freeBits s \ bitRange idx n →
        a.Allocated n s (some (idx, a.slicePtr idx, b)) s' :=
      fun s' b hs' => ⟨rfl, hsub, hs', fun later => freeSlices_ends hin⟩
    apply Ends.bind
    apply (ensureCommitted_ends hin).mono
    intro r s₁ hs₁
    rw [htaken] at hs₁
    cases r with
    | false =>
      apply Ends.bind
      apply (freeSlices_ends hin).mono
      intro _ s₂ hs₂
      apply Ends.ret
      rw [Allocated, hs₂, hs₁]
      exact Set.sdiff_union_of_subset hsub
    | true =>
      rw [if_pos rfl]
      split
      · apply Ends.bind
        refine (arenaMachine_hasBits a).ends_test (Bitmap.isClearN_ends hin.1) ?_
        intro wasClean _
        apply Ends.bind
        refine ArenaEnds.onBits (Bitmap.setN_ends a.chunkCount_le hin) fun _ w₁ _ => Ends.ret ?_
        exact done _ _ (by rw [freeBits_withWords (by decide), hs₁])
      · apply Ends.bind
        refine ArenaEnds.onBits (Bitmap.setN_ends a.chunkCount_le hin) fun _ w₁ _ => Ends.ret ?_
        exact done _ _ (by rw [freeBits_withWords (by decide), hs₁])

/-- A run that has been allocated lies in one chunk. -/
theorem Allocated.inChunk {p : ℕ} {isZero : Bool} {s' : ArenaMem}
    (h : a.Allocated n s (some (idx, p, isZero)) s') (hpos : 0 < n) :
    Bitmap.InChunk a.chunkCount idx n := by
  obtain ⟨-, hsub, -, hlater⟩ := h
  have hfirst : idx ∈ a.freeBits s := hsub (mem_bitRange.mpr ⟨le_rfl, by omega⟩)
  refine ⟨hfirst.1, ?_⟩
  by_contra hno
  exact (hlater s).not_panics (freeSlices_panics (by omega))

/-- No slices cannot be allocated. -/
theorem allocSlices_zero {tseq : ℕ} :
    ArenaEnds a panics (a.allocSlices 0 tseq) s fun r s' => r = none ∧ s' = s := by
  simp only [allocSlices, Bitmap.tryFindAndClearN, Prog.bind_eq, Prog.pure_eq]
  exact Ends.ret ⟨rfl, rfl⟩

/-- A run of more than 512 slices that is there is found, and then every execution panics. -/
theorem allocSlices_panics {tseq : ℕ} (hn : 512 < n) (hrun : bitRange idx n ⊆ a.freeBits s) :
    ArenaEnds a True (a.allocSlices n tseq) s fun _ _ => False := by
  simp only [allocSlices, Prog.bind_eq, Prog.pure_eq]
  apply Ends.bind
  refine ArenaEnds.onBits (Bitmap.tryFindAndClearN_ends a.chunkCount_le) ?_
  intro r w hr
  cases r with
  | none => exact (hr.2 hn idx hrun).elim
  | some found =>
    have hfound := hr.1
    apply Ends.bind
    apply (ensureCommitted_or_panics (by omega) (by omega)).mono
    rintro r s₁ rfl
    apply Ends.bind
    apply (freeSlices_panics (by omega)).mono
    exact fun _ _ h => h.elim

/-! ## The slices theorem -/

/-- **Slices are allocated within chunks.** `alloc_slices` keeps its promise, without leaving the
fields of a chunk, exactly for the requests of at most 512 slices and for those that no run of free
slices can serve; purging never leaves them. -/
theorem alloc_slices_within_chunks (a : Arena) (s : ArenaMem) (n tseq : ℕ) :
    (ArenaEnds a False (a.allocSlices n tseq) s (a.Allocated n s) ∧
      ∀ later, ArenaEnds a False a.runPurge later fun _ later' =>
        a.freeBits later' = a.freeBits later) ↔
    n ≤ 512 ∨ ∀ idx, ¬ bitRange idx n ⊆ a.freeBits s := by
  constructor
  · rintro ⟨h, -⟩
    by_contra hn
    rw [not_or, not_le] at hn
    obtain ⟨hn, hrun⟩ := hn
    obtain ⟨idx, hrun⟩ := not_forall.mp hrun
    exact h.not_panics (allocSlices_panics hn (not_not.mp hrun))
  · exact fun hn => ⟨allocSlices_ends hn, fun _ => runPurge_ends⟩

/-- All slices of a new arena are free. -/
theorem initBitmaps_ends {commit : Bool} :
    ArenaEnds a panics (a.initBitmaps commit) s fun _ s' =>
      a.freeBits s' = a.freeBits s ∪ bitRange 0 a.sliceCount := by
  have hin : 0 + a.sliceCount ≤ a.chunkCount * 512 := by
    rw [Nat.zero_add]
    exact a.sliceCount_le
  simp only [initBitmaps, Prog.bind_eq, Prog.pure_eq]
  apply Ends.bind
  refine ArenaEnds.onBits (Bitmap.unsafeSetN_ends a.chunkCount_le hin) fun _ w hw => ?_
  have hfree : a.freeBits (s.withWords .free w) = a.freeBits s ∪ bitRange 0 a.sliceCount := by
    rw [freeBits_withFree, hw]
    rfl
  have hdirty : ∀ s' : ArenaMem, a.freeBits s' = a.freeBits s ∪ bitRange 0 a.sliceCount →
      ArenaEnds a panics (if a.initiallyZero then .ret () else
        onBits .dirty (Bitmap.unsafeSetN 0 a.sliceCount)) s' fun _ s'' =>
          a.freeBits s'' = a.freeBits s ∪ bitRange 0 a.sliceCount := by
    intro s' hs'
    split
    · exact Ends.ret hs'
    · refine ArenaEnds.onBits (Bitmap.unsafeSetN_ends a.chunkCount_le hin) fun _ w₁ _ => ?_
      rw [freeBits_withWords (by decide), hs']
  split
  · apply Ends.bind
    refine ArenaEnds.onBits (Bitmap.unsafeSetN_ends a.chunkCount_le hin) fun _ w₁ _ => ?_
    exact hdirty _ (by rw [freeBits_withWords (by decide), hfree])
  · exact hdirty _ hfree

/-- An arena of the default size: 4096 slices, eight chunks. -/
def ofDefaultSize : Arena where
  start := 2 ^ 32
  sliceCount := 4096
  chunkCount := 8
  isPinned := false
  initiallyZero := true
  sliceCount_pos := by decide
  chunkCount_eq := by decide
  chunkCount_le := by decide

/-- A request of 513 slices, served from a new arena of the default size, panics. -/
theorem alloc_slices_leaves_chunk :
    ArenaEnds ofDefaultSize False (ofDefaultSize.initBitmaps false)
      ⟨fun _ _ => 0#64, 0, Opt.defaultValue, 0⟩
      fun _ s => ¬ ArenaEnds ofDefaultSize False (ofDefaultSize.allocSlices 513 0) s
        (ofDefaultSize.Allocated 513 s) := by
  apply initBitmaps_ends.mono
  intro _ s hs h
  have hrun : bitRange 0 513 ⊆ ofDefaultSize.freeBits s := by
    rw [hs]
    intro j hj
    right
    rw [mem_bitRange] at hj ⊢
    have hcount : ofDefaultSize.sliceCount = 4096 := rfl
    omega
  exact h.not_panics (allocSlices_panics (by decide) hrun)

end Arena

end MimallocRs
