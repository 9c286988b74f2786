import MimallocRs.Client.Runs

/-!
# Zeroed allocations

`alloc_zeroed` and `alloc_zeroed_aligned` return zeroed memory (`alloc_zeroed_zero`), whatever the
threads have done with the page before, although they skip the `memset` of a block of more than
`MI_SMALL_SIZE_MAX` bytes while `free_is_zero` stands. The runs start from fresh pages over memory
of any content, of which they assume only that it is zero if the arena has said so; a page that is
carved again from slices used before is such a page.
-/

namespace MimallocRs

open Interleave

variable {ar : Area} {c : Config ClientAct ℕ ClientOp ClientOp.Res ClientMem}

/-- **Zeroed allocations return zeroed memory.** -/
theorem alloc_zeroed_zero
    (h : (clientSystem ar).Reachable (ClientMem.Init ar) System.anyMove c) {t size p : ℕ}
    (ht : c.thread t = some ⟨.allocZeroed size, .ret (some p)⟩ ∨
      ∃ align, c.thread t = some ⟨.allocZeroedAligned size align, .ret (some p)⟩) :
    ∀ a, p ≤ a → a < p + size → c.mem.bytes a = 0 := by
  obtain ⟨γ, hinv, hth⟩ := clientSystem_reachable h
  have hrun := hth t
  have hpost : Zeroed ar size (some p) (γ t) := by
    rcases ht with ht | ⟨align, ht⟩
    · rw [ht] at hrun
      exact Safe.of_ret hrun
    · rw [ht] at hrun
      exact Safe.of_ret hrun
  intro a hle hlt
  exact ((hinv.2.view t).zero a (hpost.2 p rfl a hle hlt)).1

/-- The area of a huge page. -/
def hugeArea : Area where
  slice := 17
  sliceCount := 96
  blockSize := 6000016
  huge := true
  encoded := false
  keys := (0, 0)
  word_le := by decide
  word_dvd := by decide
  room := by decide
  mapped_le := by decide

/-- Moves on a huge page that thread 0 has created over memory filled with ones, of which the arena
does not say that it is zero. -/
def onHugePage (ms : List (Move ℕ ClientOp)) :
    Option (Config ClientAct ℕ ClientOp ClientOp.Res ClientMem) :=
  (clientSystem hugeArea).run ms
    ⟨⟨.fresh 0 (Page.initHuge 6000016 (currentTid 0) false).serveHuge [0], fun _ => 1, false,
      fun _ => none, true⟩, fun _ => none⟩

theorem onHugePage_reachable {ms : List (Move ℕ ClientOp)} (h : onHugePage ms = some c) :
    (clientSystem hugeArea).Reachable (ClientMem.Init hugeArea) System.anyMove c :=
  System.reachable_of_run (.huge 0 false (fun _ => 1) rfl fun hf => by cases hf) h

/-- A zeroed allocation from the huge page. -/
theorem alloc_zeroed_zero_huge :
    ∃ c, onHugePage [.start 0 (.allocZeroed 6000010), .step 0 0, .step 0 0, .step 0 0] = some c ∧
      c.thread 0 = some ⟨.allocZeroed 6000010, .ret (some 1114112)⟩ ∧
      ∀ a, 1114112 ≤ a → a < 1114112 + 6000010 → c.mem.bytes a = 0 := by
  obtain ⟨c, hc⟩ : ∃ c, onHugePage [.start 0 (.allocZeroed 6000010), .step 0 0, .step 0 0,
    .step 0 0] = some c := ⟨_, rfl⟩
  have hthread : c.thread 0 = some ⟨.allocZeroed 6000010, .ret (some 1114112)⟩ := by
    cases hc
    rfl
  exact ⟨c, hc, hthread, alloc_zeroed_zero (onHugePage_reachable hc) (Or.inl hthread)⟩

end MimallocRs
