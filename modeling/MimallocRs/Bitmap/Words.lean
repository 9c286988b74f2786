import MimallocRs.Bitmap.Prog

/-!
# Which words the bitmap functions access

Each function reads or exchanges only the words of the chunk it is given, or of the chunkmap: every
event of its program satisfies a predicate that holds of the loads, or of the loads and exchanges,
of these words.
-/

namespace MimallocRs

open Interleave Prog

variable {P : ∀ {β : Type}, BitAct β → Prop} {l : Loc} {ch : ℕ → Loc}

/-! ## Fields -/

section Fields

variable (hload : P (.load l)) (hcas : ∀ old new, P (.cas l old new))
include hload

theorem bfAllSet_every (mask : BitVec 64) : (bfAllSet l mask).Every P :=
  ⟨hload, fun _ => trivial⟩

theorem bfAllClear_every (mask : BitVec 64) : (bfAllClear l mask).Every P :=
  ⟨hload, fun _ => trivial⟩

include hcas

theorem bfSetMask_every (mask : BitVec 64) : (bfSetMask l mask).Every P := by
  refine ⟨hload, fun _ => Every.iterate fun old => ?_⟩
  split
  · trivial
  · refine ⟨hcas _ _, fun r => ?_⟩
    cases r <;> trivial

theorem bfTryClearMask_every (mask : BitVec 64) : (bfTryClearMask l mask).Every P := by
  refine ⟨hload, fun _ => Every.iterate fun old => ?_⟩
  split
  · trivial
  · refine ⟨hcas _ _, fun r => ?_⟩
    cases r <;> trivial

theorem bfFindAndClearRun_every (n : ℕ) : (bfFindAndClearRun l n).Every P := by
  unfold bfFindAndClearRun
  split
  · trivial
  · refine ⟨hload, fun _ => Every.iterate fun old => ?_⟩
    split
    · trivial
    · split
      · trivial
      · refine ⟨hcas _ _, fun r => ?_⟩
        cases r <;> trivial

end Fields

/-! ## Chunks -/

namespace BChunk

theorem forEachFieldMask_every {pred : Loc → BitVec 64 → Prog BitAct Bool}
    (h : ∀ f mask, (pred (ch f) mask).Every P) (cbit n : ℕ) :
    (forEachFieldMask ch cbit n pred).Every P := by
  apply Every.iterate
  rintro ⟨bit, remaining⟩
  dsimp only
  split
  · trivial
  · apply (h _ _).bind
    intro r
    cases r <;> trivial

section Reads

variable (hload : ∀ f, P (.load (ch f)))
include hload

theorem isSet_every (cbit : ℕ) : (isSet ch cbit).Every P := bfAllSet_every (hload _) _

theorem isSetN_every (cbit n : ℕ) : (isSetN ch cbit n).Every P :=
  forEachFieldMask_every (fun f mask => bfAllSet_every (hload f) mask) cbit n

theorem isClearN_every (cbit n : ℕ) : (isClearN ch cbit n).Every P :=
  forEachFieldMask_every (fun f mask => bfAllClear_every (hload f) mask) cbit n

theorem countFree_every (fs : List ℕ) : (countFree ch fs).Every P := by
  induction fs with
  | nil => trivial
  | cons f fs ih => exact ⟨hload f, fun _ => ih.bind fun _ => trivial⟩

theorem isAllClear_every : (isAllClear ch).Every P := by
  apply Every.allOf
  intro f
  exact ⟨hload f, fun _ => trivial⟩

end Reads

section Writes

variable (hload : ∀ f, P (.load (ch f))) (hcas : ∀ f old new, P (.cas (ch f) old new))
include hload hcas

theorem setN_every (cbit n : ℕ) : (setN ch cbit n).Every P := by
  apply Every.iterate
  rintro ⟨bit, remaining⟩
  dsimp only
  split
  · trivial
  · exact (bfSetMask_every (hload _) (hcas _) _).bind fun _ => trivial

theorem clearFields_every (cbit n : ℕ) : (clearFields ch cbit n).Every P := by
  apply Every.iterate
  rintro ⟨bit, remaining, cleared⟩
  dsimp only
  split
  · trivial
  · apply (bfTryClearMask_every (hload _) (hcas _) _).bind
    intro r
    cases r <;> trivial

theorem rollBack_every (cleared : List (ℕ × BitVec 64)) : (rollBack ch cleared).Every P := by
  apply Every.forEach
  rintro ⟨f, mask⟩
  exact (bfSetMask_every (hload f) (hcas f) mask).bind fun _ => trivial

theorem tryClearN_every (cbit n : ℕ) : (tryClearN ch cbit n).Every P := by
  unfold tryClearN
  split
  · exact bfTryClearMask_every (hload _) (hcas _) _
  · apply (clearFields_every hload hcas cbit n).bind
    rintro ⟨ok, cleared⟩
    cases ok with
    | true => trivial
    | false => exact (rollBack_every hload hcas cleared).bind fun _ => trivial

theorem findAndClearNSpanning_every (n : ℕ) : (findAndClearNSpanning ch n).Every P := by
  apply Every.iterate
  intro start
  split
  · apply (isSetN_every hload start n).bind
    intro r
    cases r with
    | false => trivial
    | true =>
      apply (tryClearN_every hload hcas start n).bind
      intro r
      cases r <;> trivial
  · trivial

theorem findInField_every (n : ℕ) : (findInField ch n).Every P := by
  refine Every.firstSome (fun f => ?_) _
  apply (bfFindAndClearRun_every (hload f) (hcas f) n).bind
  intro r
  cases r <;> trivial

theorem findAcross_every (n : ℕ) : (findAcross ch n).Every P := by
  apply (countFree_every hload _).bind
  intro free
  split
  · trivial
  · exact findAndClearNSpanning_every hload hcas n

theorem findAndClearN_every (n : ℕ) : (findAndClearN ch n).Every P := by
  unfold findAndClearN
  split
  · trivial
  · split
    · apply (findInField_every hload hcas n).bind
      intro r
      cases r with
      | some b => trivial
      | none => exact findAcross_every hload hcas n
    · exact findAcross_every hload hcas n

end Writes

end BChunk

/-! ## Bitmaps -/

namespace Bitmap

section Map

variable (hload : ∀ f, P (.load (.map f))) (hcas : ∀ f old new, P (.cas (.map f) old new))
include hload hcas

theorem chunkmapSet_every (c : ℕ) : (chunkmapSet c).Every P :=
  (bfSetMask_every (hload _) (hcas _) _).bind fun _ => trivial

theorem chunkmapClearIfEmpty_every {c : ℕ} (hchunk : ∀ f, P (.load (.chunk c f))) :
    (chunkmapClearIfEmpty c).Every P := by
  apply (BChunk.isAllClear_every hchunk).bind
  intro r
  cases r with
  | false => trivial
  | true =>
    apply (bfTryClearMask_every (hload _) (hcas _) _).bind
    intro r
    cases r with
    | false => trivial
    | true =>
      apply (BChunk.isAllClear_every hchunk).bind
      intro r
      cases r with
      | true => trivial
      | false => exact chunkmapSet_every hload hcas c

end Map

section Chunks

variable (hload : ∀ c f, P (.load (.chunk c f)))
include hload

theorem rangeIsSet_every (idx n : ℕ) : (rangeIsSet idx n).Every P := by
  apply Every.iterate
  rintro ⟨bit, remaining⟩
  dsimp only
  split
  · trivial
  · apply (BChunk.isSetN_every (hload _) _ _).bind
    intro r
    cases r <;> trivial

variable (hcas : ∀ c f old new, P (.cas (.chunk c f) old new))
include hcas

theorem clearChunks_every (idx n : ℕ) : (clearChunks idx n).Every P := by
  apply Every.iterate
  rintro ⟨bit, remaining, done⟩
  dsimp only
  split
  · trivial
  · apply (BChunk.tryClearN_every (hload _) (hcas _) _ _).bind
    intro r
    cases r <;> trivial

theorem rollBack_every (idx done : ℕ) : (rollBack idx done).Every P := by
  apply Every.iterate
  rintro ⟨rbit, rb⟩
  dsimp only
  split
  · trivial
  · exact (BChunk.setN_every (hload _) (hcas _) _ _).bind fun _ => trivial

end Chunks

end Bitmap

end MimallocRs
