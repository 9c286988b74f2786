import MimallocRs.Arena.Runs

/-!
# Scheduled purges

`run_purge` takes the scheduled slices run by run. It purges a run only if all of it is free, and
it takes the run off the schedule in either case. A free slice in a run that has a slice in use is
therefore never purged (`scheduled_purge_lost`): no purge is lost exactly when every run of
scheduled slices is free throughout or in use throughout (`scheduled_purges_kept`).

Which slices are passed to `os::purge_ex` is recorded by an event of its own, in the general form
of `run_purge`.
-/

namespace MimallocRs

open Interleave Prog

/-- The events on an arena, and the call of `os::purge_ex` on a range of slices. -/
inductive LogAct (β : Type) : Type
  | arena (e : ArenaAct β)
  | passed (idx n : ℕ) (answer : Unit → β)

/-- An arena, and the ranges that have been passed to `os::purge_ex`. -/
structure PurgeLog where
  arena : ArenaMem
  passed : List (ℕ × ℕ)

/-- The events, with a record of the calls of `os::purge_ex`. -/
def logMachine (a : Arena) : Machine LogAct Unit PurgeLog where
  exec
    | _, .arena e, s, choice =>
      (s.arena.exec a.chunkCount e choice).map fun r => (r.1, { s with arena := r.2 })
    | _, .passed idx n answer, s, _ => some (answer (), { s with passed := (idx, n) :: s.passed })

/-- `os::purge_ex`, recorded. -/
def purgeExLogged (idx n : ℕ) (allowReset : Bool) : Prog LogAct Bool := do
  perform (.passed idx n id)
  (purgeEx idx n allowReset).hoist .arena

namespace Arena

/-- `Arena::run_purge`, its calls of `os::purge_ex` recorded. -/
def runPurgeLogged (a : Arena) : Prog LogAct Bool :=
  a.runPurgeVia (fun b _ e => .arena (e.of b)) purgeExLogged

end Arena

namespace PurgeLog

variable {a : Arena} {panics : Prop} {s : PurgeLog} {idx n e : ℕ}

/-- The scheduled slices. -/
def scheduled (a : Arena) (s : PurgeLog) : Set ℕ := bitsOf a.chunkCount (s.arena.words .purge)

/-- The free slices. -/
def free (a : Arena) (s : PurgeLog) : Set ℕ := bitsOf a.chunkCount (s.arena.words .free)

/-- The slice has been passed to `os::purge_ex`. -/
def Passed (s : PurgeLog) (i : ℕ) : Prop := ∃ r ∈ s.passed, i ∈ bitRange r.1 r.2

/-- A bitmap of the arena has been changed to the words `w`. -/
def withWords (s : PurgeLog) (b : BitmapId) (w : Words) : PurgeLog :=
  { s with arena := s.arena.withWords b w }

theorem scheduled_withWords {b : BitmapId} {w : Words} (hb : b ≠ .purge) :
    (s.withWords b w).scheduled a = s.scheduled a := by
  rw [scheduled, scheduled, withWords, ArenaMem.withWords_of_ne _ _ hb.symm]

theorem free_withWords {b : BitmapId} {w : Words} (hb : b ≠ .free) :
    (s.withWords b w).free a = s.free a := by
  rw [free, free, withWords, ArenaMem.withWords_of_ne _ _ hb.symm]

theorem logMachine_hasBits (a : Arena) :
    HasBits (logMachine a) a.chunkCount (fun b _ e => .arena (e.of b))
      (fun b s => s.arena.words b) (fun b w s => s.withWords b w) where
  put_put := by simp [withWords]
  get_put := by simp [withWords]
  get_put_of_ne b b' s w h := s.arena.withWords_of_ne w h
  put_get := by simp [withWords]
  exec b _ e s choice := by
    cases e <;> simp only [logMachine, BitAct.of, ArenaMem.exec, Option.map_map, wordMachine] <;>
      rfl

/-- A recorded call of `os::purge_ex` changes nothing but the record. -/
theorem purgeExLogged_ends {allowReset : Bool} :
    Ends (logMachine a) () panics (purgeExLogged idx n allowReset) s fun _ s' =>
      s' = { s with passed := (idx, n) :: s.passed } := by
  refine Ends.act (fun _ h => by cases h) fun _ _ s₁ hs => ?_
  cases hs
  have hpurge : Ends (arenaMachine a) () panics (purgeEx idx n allowReset) s.arena
      fun _ s' => s' = s.arena := Arena.purgeEx_ends
  have hhoist := Ends.hoist (N := logMachine a) (fun e => LogAct.arena e) (fun s => s.arena) (fun w s => { s with arena := w })
    (fun _ _ _ => rfl) (fun _ _ => rfl) (fun _ => rfl) (fun _ _ _ => rfl)
    (s := { s with passed := (idx, n) :: s.passed }) hpurge
  apply hhoist.mono
  rintro r s' ⟨hs, hs'⟩
  rw [hs', hs]

/-- A run is passed to `os::purge_ex` exactly if all of it is free. -/
theorem purgeRun_logged (hin : Bitmap.InChunk a.chunkCount idx n) :
    Ends (logMachine a) () panics
      (Arena.purgeRunVia (fun b _ e => .arena (e.of b)) purgeExLogged idx n) s fun _ s' =>
        s'.scheduled a = s.scheduled a ∧ s'.free a = s.free a ∧
        (bitRange idx n ⊆ s.free a → s'.passed = (idx, n) :: s.passed) ∧
        (¬ bitRange idx n ⊆ s.free a → s'.passed = s.passed) := by
  have hbits := logMachine_hasBits a
  have giveBack : ∀ s' : PurgeLog, bitRange idx n ⊆ s.free a →
      s'.scheduled a = s.scheduled a → s'.free a = s.free a \ bitRange idx n →
      s'.passed = (idx, n) :: s.passed →
      Ends (logMachine a) () panics (((Bitmap.setN idx n).hoist fun e =>
        LogAct.arena (e.of .free)).bind fun _ => .ret true) s' fun _ s'' =>
          s''.scheduled a = s.scheduled a ∧ s''.free a = s.free a ∧
          (bitRange idx n ⊆ s.free a → s''.passed = (idx, n) :: s.passed) ∧
          (¬ bitRange idx n ⊆ s.free a → s''.passed = s.passed) := by
    intro s' hsub hsched hfree hpassed
    apply Ends.bind
    refine hbits.ends (Bitmap.setN_ends a.chunkCount_le hin) fun _ w hw => Ends.ret ?_
    refine ⟨?_, ?_, fun _ => hpassed, fun h => absurd hsub h⟩
    · rw [scheduled_withWords (by decide), hsched]
    · rw [free, withWords, ArenaMem.withWords_words, hw]
      change s'.free a ∪ _ = _
      rw [hfree, Set.sdiff_union_of_subset hsub]
  simp only [Arena.purgeRunVia, Prog.bind_eq, Prog.pure_eq]
  apply Ends.bind
  refine hbits.ends (Bitmap.clearN_ends a.chunkCount_le hin) ?_
  rintro r w ⟨hr, hw⟩
  have hsched : (s.withWords .free w).scheduled a = s.scheduled a := scheduled_withWords (by decide)
  have hfree : (s.withWords .free w).free a = bitsOf a.chunkCount w := by
    rw [free, withWords, ArenaMem.withWords_words]
  cases r with
  | false =>
    have hnot : ¬ bitRange idx n ⊆ s.free a := fun h => by simpa using hr.mpr h
    exact Ends.ret ⟨hsched, hfree.trans hw, fun h => absurd h hnot, fun _ => rfl⟩
  | true =>
    have hsub : bitRange idx n ⊆ s.free a := hr.mp rfl
    apply Ends.bind
    refine hbits.ends_test (Bitmap.isSetN_ends hin.1) fun allCommitted _ => ?_
    apply Ends.bind
    apply purgeExLogged_ends.mono
    rintro needsRecommit _ rfl
    cases needsRecommit with
    | false => exact giveBack _ hsub hsched (hfree.trans hw) rfl
    | true =>
      apply Ends.bind
      refine hbits.ends (Bitmap.clearN_ends a.chunkCount_le hin) fun _ w₂ _ => ?_
      apply Ends.bind
      refine hbits.ends (Bitmap.clearN_ends a.chunkCount_le hin) fun _ w₃ _ => ?_
      refine giveBack _ hsub ?_ ?_ rfl
      · rw [scheduled_withWords (by decide), scheduled_withWords (by decide)]
        exact hsched
      · rw [free_withWords (by decide), free_withWords (by decide)]
        exact hfree.trans hw

/-! ## Which slices are passed on -/

/-- The slices `i` and `j` lie in one run of the scheduled slices `X`, within a field. -/
structure SameRun (a : Arena) (X : Set ℕ) (i j : ℕ) : Prop where
  left : i < a.sliceCount
  right : j < a.sliceCount
  field : i / 64 = j / 64
  scheduled : ∀ k, min i j ≤ k → k ≤ max i j → k ∈ X

/-- A run of the walk is a run of the schedule: nothing before it or after it belongs to it. -/
theorem sameRun_iff {X : Set ℕ} (hrun : Arena.PurgeRun a X idx e)
    (hstart : idx % 64 = 0 ∨ idx - 1 ∉ X) {i j : ℕ} (hi : idx ≤ i ∧ i < e) :
    SameRun a X i j ↔ idx ≤ j ∧ j < e := by
  have hlt := hrun.lt
  have hfield := hrun.field
  have hcount := hrun.count
  constructor
  · intro h
    have hsame := h.field
    have hright := h.right
    constructor
    · by_contra hj
      rcases hstart with hmod | hout
      · omega
      · exact hout (h.scheduled (idx - 1) (by omega) (by omega))
    · by_contra hj
      rcases hrun.stop with hstop | hstop | hstop
      · omega
      · omega
      · exact hstop (h.scheduled e (by omega) (by omega))
  · rintro ⟨hj, hje⟩
    refine ⟨by omega, by omega, by omega, fun k hk hk' => hrun.scheduled ?_⟩
    rw [mem_bitRange]
    omega

/-- What has been done when the walk has come to slice `idx`: the runs below it have been taken off
the schedule, and those that were free throughout have been passed on. -/
structure Walked (a : Arena) (s₀ : PurgeLog) (idx : ℕ) (s : PurgeLog) : Prop where
  start : idx % 64 = 0 ∨ idx - 1 ∉ s₀.scheduled a ∨ idx ∉ s₀.scheduled a ∨ idx = a.sliceCount
  free : s.free a = s₀.free a
  scheduled : ∀ i, i ∈ s.scheduled a ↔ i ∈ s₀.scheduled a ∧ idx ≤ i
  passed : ∀ i, s.Passed i ↔
    i < idx ∧ i ∈ s₀.scheduled a ∧ ∀ j, SameRun a (s₀.scheduled a) i j → j ∈ s₀.free a

theorem Walked.skip {s₀ : PurgeLog} (h : Walked a s₀ idx s) (hnot : idx ∉ s.scheduled a) :
    Walked a s₀ (idx + 1) s := by
  have hidx : idx ∉ s₀.scheduled a := fun hmem => hnot ((h.scheduled idx).mpr ⟨hmem, le_rfl⟩)
  refine ⟨Or.inr (Or.inl hidx), h.free, fun i => ?_, fun i => ?_⟩
  · rw [h.scheduled]
    refine and_congr_right fun hi => ⟨fun hle => ?_, fun hle => by omega⟩
    have hne : i ≠ idx := fun he => hidx (he ▸ hi)
    omega
  · rw [h.passed]
    constructor
    · exact fun ⟨hlt, hrest⟩ => ⟨by omega, hrest⟩
    · rintro ⟨hlt, hi, hrest⟩
      have hne : i ≠ idx := fun he => hidx (he ▸ hi)
      exact ⟨by omega, hi, hrest⟩

/-- A run is taken off the schedule, and passed on if it is free throughout. -/
theorem Walked.run {s₀ s' : PurgeLog} {w : Words} (h : Walked a s₀ idx s)
    (hrun : Arena.PurgeRun a (s.scheduled a) idx e) (hfree : s'.free a = s.free a)
    (hw : bitsOf a.chunkCount w = s.scheduled a \ bitRange idx (e - idx))
    (hyes : bitRange idx (e - idx) ⊆ s.free a → s'.passed = (idx, e - idx) :: s.passed)
    (hno : ¬ bitRange idx (e - idx) ⊆ s.free a → s'.passed = s.passed) :
    Walked a s₀ e (s'.withWords .purge w) := by
  have hlt := hrun.lt
  have hcount := hrun.count
  have hrange : ∀ i, i ∈ bitRange idx (e - idx) ↔ idx ≤ i ∧ i < e := fun i => by
    rw [mem_bitRange]
    omega
  -- the run of the walk is one of the original schedule
  have hrun₀ : Arena.PurgeRun a (s₀.scheduled a) idx e := by
    refine ⟨hlt, hrun.field, hcount, fun i hi => ((h.scheduled i).mp (hrun.scheduled hi)).1, ?_⟩
    refine hrun.stop.imp_right (Or.imp_right fun hstop hmem => ?_)
    exact hstop ((h.scheduled e).mpr ⟨hmem, by omega⟩)
  have hstart : idx % 64 = 0 ∨ idx - 1 ∉ s₀.scheduled a := by
    rcases h.start with hs | hs | hs | hs
    · exact Or.inl hs
    · exact Or.inr hs
    · exact absurd (hrun₀.scheduled ((hrange idx).mpr (by omega))) hs
    · omega
  have hwhole : ∀ i, idx ≤ i ∧ i < e →
      ((∀ j, SameRun a (s₀.scheduled a) i j → j ∈ s₀.free a) ↔
        bitRange idx (e - idx) ⊆ s.free a) := by
    intro i hi
    rw [h.free]
    constructor
    · exact fun hall j hj => hall j ((sameRun_iff hrun₀ hstart hi).mpr ((hrange j).mp hj))
    · exact fun hall j hj => hall ((hrange j).mpr ((sameRun_iff hrun₀ hstart hi).mp hj))
  refine ⟨?_, ?_, fun i => ?_, fun i => ?_⟩
  · rcases hrun₀.stop with hstop | hstop | hstop
    · exact Or.inr (Or.inr (Or.inr hstop))
    · left
      omega
    · exact Or.inr (Or.inr (Or.inl hstop))
  · rw [free_withWords (by decide), hfree, h.free]
  · rw [PurgeLog.scheduled, withWords, ArenaMem.withWords_words, hw, Set.mem_sdiff, hrange,
      h.scheduled]
    constructor
    · rintro ⟨⟨hi, hle⟩, hout⟩
      exact ⟨hi, by omega⟩
    · rintro ⟨hi, hle⟩
      exact ⟨⟨hi, by omega⟩, by omega⟩
  · have hpassed : (s'.withWords .purge w).Passed i ↔
        s.Passed i ∨ (idx ≤ i ∧ i < e) ∧ bitRange idx (e - idx) ⊆ s.free a := by
      show (∃ r ∈ s'.passed, i ∈ bitRange r.1 r.2) ↔ _
      by_cases hsub : bitRange idx (e - idx) ⊆ s.free a
      · rw [hyes hsub]
        simp only [List.mem_cons, exists_eq_or_imp, hrange, hsub, and_true]
        exact or_comm
      · rw [hno hsub]
        simp only [hsub, and_false, or_false]
        rfl
    rw [hpassed, h.passed]
    constructor
    · rintro (⟨hi, hrest⟩ | ⟨hi, hsub⟩)
      · exact ⟨by omega, hrest⟩
      · exact ⟨hi.2, hrun₀.scheduled ((hrange i).mpr hi), (hwhole i hi).mpr hsub⟩
    · rintro ⟨hi, hmem, hall⟩
      by_cases hlo : i < idx
      · exact Or.inl ⟨hlo, hmem, hall⟩
      · have hin : idx ≤ i ∧ i < e := ⟨by omega, hi⟩
        exact Or.inr ⟨hin, (hwhole i hin).mp hall⟩

/-- What `run_purge` passes on, and that it leaves nothing scheduled. -/
theorem runPurge_logged {s₀ : PurgeLog} (hnew : s₀.passed = []) :
    Ends (logMachine a) () panics a.runPurgeLogged s₀ fun _ s' =>
      Walked a s₀ a.sliceCount s' := by
  have hstart : Walked a s₀ 0 s₀ := by
    refine ⟨Or.inl rfl, rfl, fun i => ⟨fun hi => ⟨hi, Nat.zero_le i⟩, fun h => h.1⟩, fun i => ?_⟩
    constructor
    · rintro ⟨r, hr, -⟩
      rw [hnew] at hr
      cases hr
    · rintro ⟨hi, -⟩
      omega
  refine Arena.runPurgeVia_ends (logMachine_hasBits a) (Walked a s₀) ?_ ?_ hstart
  · exact fun idx s h _ hnot => h.skip hnot
  · intro idx e s h hrun
    apply (purgeRun_logged hrun.inChunk).mono
    rintro did s' ⟨hsched, hfree, hyes, hno⟩
    exact ⟨hsched, fun w hw => h.run hrun hfree hw hyes hno⟩

end PurgeLog

/-! ## The theorem -/

/-- What is claimed of `run_purge`: every slice that was scheduled and free has been passed to
`os::purge_ex`, or is still scheduled. -/
def KeepsPurges (a : Arena) (s : ArenaMem) : Prop :=
  Ends (logMachine a) () False a.runPurgeLogged ⟨s, []⟩ fun _ s' =>
    ∀ i < a.sliceCount, i ∈ bitsOf a.chunkCount (s.words .purge) →
      i ∈ bitsOf a.chunkCount (s.words .free) → s'.Passed i ∨ i ∈ s'.scheduled a

variable {a : Arena}

/-- A run that is neither free throughout nor in use throughout loses its free slices. -/
theorem not_keepsPurges {s : ArenaMem} {i j : ℕ}
    (hrun : PurgeLog.SameRun a (bitsOf a.chunkCount (s.words .purge)) i j)
    (hfree : i ∈ bitsOf a.chunkCount (s.words .free))
    (hused : j ∉ bitsOf a.chunkCount (s.words .free)) : ¬ KeepsPurges a s := by
  intro h
  have hboth := h.and (PurgeLog.runPurge_logged (show (⟨s, []⟩ : PurgeLog).passed = [] from rfl))
  have hnone : Ends (logMachine a) () False a.runPurgeLogged ⟨s, []⟩ fun _ _ => False := by
    apply hboth.mono
    rintro r s' ⟨hkept, hw⟩
    have hsched : i ∈ bitsOf a.chunkCount (s.words .purge) :=
      hrun.scheduled i (min_le_left i j) (le_max_left i j)
    rcases hkept i hrun.left hsched hfree with hpassed | hmem
    · exact hused (((hw.passed i).mp hpassed).2.2 j hrun)
    · have hle := ((hw.scheduled i).mp hmem).2
      have hlt := hrun.left
      omega
  exact hnone.not_panics hnone.weaken

/-- **No scheduled purge is lost** exactly when every run of scheduled slices of a field is free
throughout or in use throughout. -/
theorem scheduled_purges_kept (a : Arena) (s : ArenaMem) :
    KeepsPurges a s ↔ ∀ i j, PurgeLog.SameRun a (bitsOf a.chunkCount (s.words .purge)) i j →
      i ∈ bitsOf a.chunkCount (s.words .free) → j ∈ bitsOf a.chunkCount (s.words .free) := by
  constructor
  · intro h i j hrun hfree
    by_contra hused
    exact not_keepsPurges hrun hfree hused h
  · intro h
    apply (PurgeLog.runPurge_logged (show (⟨s, []⟩ : PurgeLog).passed = [] from rfl)).mono
    intro _ s' hw i hi hsched hfree
    exact Or.inl ((hw.passed i).mpr ⟨hi, hsched, fun j hrun => h i j hrun hfree⟩)

/-- No call is running, slices 0 and 1 are scheduled, and slice 1 is free. -/
def halfFree (c : Config ArenaAct Unit SliceOp SliceOp.Res SliceMem) : Bool :=
  (c.thread ()).isNone && c.mem.arena.words .purge (.chunk 0 0) == 3#64 &&
    c.mem.arena.words .free (.chunk 0 0) == 2#64 && c.mem.arena.opts .purgeDelay == 1000

/-- Two slices are freed, and one of them is allocated again before the purge: the purge of the
other one is lost. -/
theorem scheduled_purge_lost :
    ¬ ∀ c, (sliceSystem .ofTwoSlices false).Reachable (SliceMem.Init .ofTwoSlices)
      System.anyMove c → c.Quiescent → 0 ≤ c.mem.arena.opts .purgeDelay →
      KeepsPurges .ofTwoSlices c.mem.arena := by
  intro h
  have hrun : ((sliceSystem .ofTwoSlices false).run
      (Move.call () (.create true) 20 0 ++ Move.call () (.allocSlices 2 0) 40 0 ++
        Move.call () (.freeSlices 0 2) 26 0 ++ Move.call () (.allocSlices 1 0) 18 0)
      ⟨.blank, fun _ => none⟩).any halfFree = true := by
    decide +kernel
  obtain ⟨c, hc, htest⟩ := System.exists_run hrun
  simp only [halfFree, Bool.and_eq_true, Option.isNone_iff_eq_none, beq_iff_eq] at htest
  obtain ⟨⟨⟨hidle, hpurge⟩, hfree⟩, hdelay⟩ := htest
  have hkeeps := h c (System.reachable_of_run (SliceMem.blank_init _) hc) (fun _ => hidle)
    (by rw [hdelay]; decide)
  refine not_keepsPurges (i := 1) (j := 0) ⟨by decide, by decide, by decide, ?_⟩ ?_ ?_ hkeeps
  · intro k _ hk
    obtain rfl | rfl : k = 0 ∨ k = 1 := by omega
    · exact ⟨by decide, by rw [hpurge]; decide⟩
    · exact ⟨by decide, by rw [hpurge]; decide⟩
  · exact ⟨by decide, by rw [hfree]; decide⟩
  · rintro ⟨-, hmem⟩
    rw [hfree] at hmem
    revert hmem
    decide

end MimallocRs
