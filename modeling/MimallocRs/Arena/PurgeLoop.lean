import MimallocRs.Arena.Prog
import MimallocRs.Bitmap.Whole

/-!
# The purge loop

`run_purge` walks the purge bitmap, one run of scheduled slices of a field after the other. Its
programs are stated here over any signature of events in which the bitmaps of an arena can be
reached and for any `os::purge_ex`, and the walk is verified once (`runPurgeVia_ends`): what holds
of the slices below an index is extended over slices that are not scheduled, and over a run that
has been purged.
-/

namespace MimallocRs

open Interleave Prog

/-- How the events of the bitmaps appear in a signature. -/
abbrev BitsOf (E : Type → Type) := BitmapId → ∀ {β : Type}, BitAct β → E β

/-- The bitmaps, of `cc` chunks each, are a part of the state of a machine. -/
structure HasBits {E : Type → Type} {S : Type} (N : Machine E Unit S) (cc : ℕ) (bits : BitsOf E)
    (get : BitmapId → S → Words) (put : BitmapId → Words → S → S) : Prop where
  put_put : ∀ b s w w', put b w (put b w' s) = put b w s
  get_put : ∀ b s w, get b (put b w s) = w
  get_put_of_ne : ∀ b b' s w, b' ≠ b → get b' (put b w s) = get b' s
  put_get : ∀ b s, put b (get b s) s = s
  exec : ∀ b {β : Type} (e : BitAct β) s choice, N.exec () (bits b e) s choice =
    ((wordMachine cc).exec () e (get b s) choice).map fun r => (r.1, put b r.2 s)

/-- A call on one of the bitmaps. -/
theorem HasBits.ends {E : Type → Type} {S : Type} {N : Machine E Unit S} {cc : ℕ} {bits : BitsOf E}
    {get : BitmapId → S → Words} {put : BitmapId → Words → S → S}
    (hbits : HasBits N cc bits get put) {panics : Prop} {b : BitmapId} {α : Type}
    {p : Prog BitAct α} {s : S} {R : α → Words → Prop} {Q : α → S → Prop}
    (h : BitEnds cc panics p (get b s) R) (hQ : ∀ r w, R r w → Q r (put b w s)) :
    Ends N () panics (p.hoist (bits b)) s Q := by
  have hhoist := Ends.hoist (bits b) (get b) (put b) (hbits.put_put b) (hbits.get_put b)
    (hbits.put_get b) (hbits.exec b) h
  apply hhoist.mono
  rintro r s' ⟨hr, hs'⟩
  rw [hs']
  exact hQ r _ hr

/-- A test of a bitmap, which leaves it alone. -/
theorem HasBits.ends_test {E : Type → Type} {S : Type} {N : Machine E Unit S} {cc : ℕ}
    {bits : BitsOf E} {get : BitmapId → S → Words} {put : BitmapId → Words → S → S}
    (hbits : HasBits N cc bits get put) {panics : Prop} {b : BitmapId} {α : Type}
    {p : Prog BitAct α} {s : S} {R : α → Prop} {Q : α → S → Prop}
    (h : BitEnds cc panics p (get b s) fun r w => w = get b s ∧ R r) (hQ : ∀ r, R r → Q r s) :
    Ends N () panics (p.hoist (bits b)) s Q := by
  refine hbits.ends h ?_
  rintro r _ ⟨rfl, hr⟩
  rw [hbits.put_get]
  exact hQ r hr

namespace Arena

/-! ## The programs -/

section Via

variable {E : Type → Type} (bits : BitsOf E) (purgeEx : ℕ → ℕ → Bool → Prog E Bool)

/-- `Arena.purgeEnd`, over any signature. -/
def purgeEndVia (a : Arena) (fieldEnd e : ℕ) : Prog E ℕ :=
  iterate (fun e => do
    if e < a.sliceCount ∧ e < fieldEnd then
      if ← (Bitmap.isSet e).hoist (bits .purge) then return .inl (e + 1) else return .inr e
    else return .inr e) e

/-- `Arena.purgeRun`, over any signature and with any `os::purge_ex`. -/
def purgeRunVia (idx n : ℕ) : Prog E Bool := do
  if ← (Bitmap.clearN idx n).hoist (bits .free) then
    let allCommitted ← (Bitmap.isSetN idx n).hoist (bits .commit)
    if ← purgeEx idx n allCommitted then
      let _ ← (Bitmap.clearN idx n).hoist (bits .commit)
      let _ ← (Bitmap.clearN idx n).hoist (bits .dirty)
      let _ ← (Bitmap.setN idx n).hoist (bits .free)
      return true
    else
      let _ ← (Bitmap.setN idx n).hoist (bits .free)
      return true
  else return false

/-- `Arena.runPurge`, over any signature and with any `os::purge_ex`. -/
def runPurgeVia (a : Arena) : Prog E Bool :=
  iterate (fun (purged, idx) => do
    if idx < a.sliceCount then
      if ← (Bitmap.isSet idx).hoist (bits .purge) then
        let e ← a.purgeEndVia bits ((idx / fieldBits + 1) * fieldBits) (idx + 1)
        let did ← purgeRunVia bits purgeEx idx (e - idx)
        let _ ← (Bitmap.clearN idx (e - idx)).hoist (bits .purge)
        return .inl (purged || did, e)
      else return .inl (purged, idx + 1)
    else return .inr purged) (false, 0)

end Via

/-- `run_purge` is its general form over the events of an arena, with `os::purge_ex`. -/
theorem runPurge_eq (a : Arena) : a.runPurge = a.runPurgeVia BitAct.of purgeEx := rfl

/-! ## The walk -/

/-- The slices `[idx, e)` are a run of the scheduled slices `X`, which ends with its field, with
the arena or before a slice that is not scheduled. -/
structure PurgeRun (a : Arena) (X : Set ℕ) (idx e : ℕ) : Prop where
  lt : idx < e
  field : e ≤ (idx / 64 + 1) * 64
  count : e ≤ a.sliceCount
  scheduled : bitRange idx (e - idx) ⊆ X
  stop : e = a.sliceCount ∨ e = (idx / 64 + 1) * 64 ∨ e ∉ X

theorem sliceCount_le (a : Arena) : a.sliceCount ≤ a.chunkCount * 512 := by
  rw [a.chunkCount_eq, chunksFor, chunkBits_eq]
  omega

/-- A run of scheduled slices lies in one chunk. -/
theorem PurgeRun.inChunk {a : Arena} {X : Set ℕ} {idx e : ℕ} (h : PurgeRun a X idx e) :
    Bitmap.InChunk a.chunkCount idx (e - idx) := by
  have hcc := a.sliceCount_le
  have hlt := h.lt
  have hfield := h.field
  have hcount := h.count
  exact ⟨by omega, by omega⟩

section Walk

variable {E : Type → Type} {S : Type} {N : Machine E Unit S} {a : Arena} {bits : BitsOf E}
variable {get : BitmapId → S → Words} {put : BitmapId → Words → S → S}
variable {purgeEx : ℕ → ℕ → Bool → Prog E Bool} {panics : Prop} {s : S}

/-- The end of the run of scheduled slices that starts at `idx`. -/
theorem purgeEndVia_ends (hbits : HasBits N a.chunkCount bits get put) {idx : ℕ}
    (hlt : idx < a.sliceCount) (hmem : idx ∈ bitsOf a.chunkCount (get .purge s)) :
    Ends N () panics (a.purgeEndVia bits ((idx / fieldBits + 1) * fieldBits) (idx + 1)) s
      fun e s' => s' = s ∧ PurgeRun a (bitsOf a.chunkCount (get .purge s)) idx e := by
  have hcc := a.sliceCount_le
  rw [fieldBits_eq]
  refine Ends.loop_measure (fun e => a.sliceCount - e) (fun e s' => s' = s ∧ idx < e ∧
    e ≤ (idx / 64 + 1) * 64 ∧ e ≤ a.sliceCount ∧
    bitRange idx (e - idx) ⊆ bitsOf a.chunkCount (get .purge s)) ?_ ⟨rfl, ?_⟩
  · rintro e s ⟨rfl, hidx, hfield, hcount, hsub⟩
    simp only [Prog.bind_eq, Prog.pure_eq]
    split
    · next hin =>
      apply Ends.bind
      refine hbits.ends_test (Bitmap.isSet_ends (by omega)) ?_
      intro r hr
      cases r with
      | false =>
        have hstop : e ∉ bitsOf a.chunkCount (get .purge s) := fun h => by simpa using hr.mpr h
        exact Ends.ret (Ends.ret ⟨rfl, hidx, hfield, hcount, hsub, Or.inr (Or.inr hstop)⟩)
      | true =>
        apply Ends.ret
        have hmeasure : a.sliceCount - (e + 1) < a.sliceCount - e := by omega
        refine ⟨⟨rfl, by omega, by omega, by omega, ?_⟩, hmeasure⟩
        intro j hj
        rw [mem_bitRange] at hj
        by_cases hje : j = e
        · rw [hje]
          exact hr.mp rfl
        · apply hsub
          rw [mem_bitRange]
          omega
    · next hout =>
      have hstop : e = a.sliceCount ∨ e = (idx / 64 + 1) * 64 := by omega
      exact Ends.ret (Ends.ret ⟨rfl, hidx, hfield, hcount, hsub, hstop.imp_right Or.inl⟩)
  · refine ⟨by omega, by omega, by omega, fun j hj => ?_⟩
    rw [mem_bitRange] at hj
    have hji : j = idx := by omega
    rwa [hji]

/-- **The purge walk.** What holds of the slices below an index is extended over a slice that is
not scheduled, and over a run that is purged and then unscheduled. -/
theorem runPurgeVia_ends (hbits : HasBits N a.chunkCount bits get put) (J : ℕ → S → Prop)
    (hskip : ∀ idx s, J idx s → idx < a.sliceCount →
      idx ∉ bitsOf a.chunkCount (get .purge s) → J (idx + 1) s)
    (hrun : ∀ idx e s, J idx s → PurgeRun a (bitsOf a.chunkCount (get .purge s)) idx e →
      Ends N () panics (purgeRunVia bits purgeEx idx (e - idx)) s fun _ s' =>
        bitsOf a.chunkCount (get .purge s') = bitsOf a.chunkCount (get .purge s) ∧
        ∀ w, bitsOf a.chunkCount w = bitsOf a.chunkCount (get .purge s) \ bitRange idx (e - idx) →
          J e (put .purge w s'))
    (h : J 0 s) :
    Ends N () panics (a.runPurgeVia bits purgeEx) s fun _ s' => J a.sliceCount s' := by
  have hcc := a.sliceCount_le
  refine Ends.loop_measure (fun b => a.sliceCount - b.2)
    (fun b s' => b.2 ≤ a.sliceCount ∧ J b.2 s') ?_ ⟨Nat.zero_le _, h⟩
  rintro ⟨purged, idx⟩ s₁ ⟨hle, hJ⟩
  simp only [Prog.bind_eq, Prog.pure_eq] at hle hJ ⊢
  split
  · next hlt =>
    apply Ends.bind
    refine hbits.ends_test (Bitmap.isSet_ends (by omega)) ?_
    intro r hr
    cases r with
    | false =>
      apply Ends.ret
      have hmeasure : a.sliceCount - (idx + 1) < a.sliceCount - idx := by omega
      have hnot : idx ∉ bitsOf a.chunkCount (get .purge s₁) := fun h => by simpa using hr.mpr h
      exact ⟨⟨by omega, hskip idx s₁ hJ hlt hnot⟩, hmeasure⟩
    | true =>
      apply Ends.bind
      apply (purgeEndVia_ends hbits hlt (hr.mp rfl)).mono
      rintro e s₁ ⟨rfl, hpr⟩
      apply Ends.bind
      apply (hrun idx e s₁ hJ hpr).mono
      rintro did s₂ ⟨hpurge, hJ₂⟩
      apply Ends.bind
      refine hbits.ends (Bitmap.clearN_ends a.chunkCount_le hpr.inChunk) ?_
      rintro r w ⟨hset, hw⟩
      apply Ends.ret
      have hidx := hpr.lt
      have hmeasure : a.sliceCount - e < a.sliceCount - idx := by
        have hcount := hpr.count
        omega
      rw [hpurge] at hset hw
      have hr : r = true := hset.mpr hpr.scheduled
      rw [hr, if_pos rfl] at hw
      exact ⟨⟨hpr.count, hJ₂ w hw⟩, hmeasure⟩
  · next hge =>
    have hidx : idx = a.sliceCount := by omega
    exact Ends.ret (Ends.ret (hidx ▸ hJ))

end Walk

end Arena

end MimallocRs
