import MimallocRs.Bitmap.Shared
import MimallocRs.Foundations.Interleave.Alone

/-!
# Whole calls on a bitmap

What each function of a bitmap does when no other thread moves, as an operation on the set of bits.
A weak compare-exchange that fails spuriously leaves its word alone and is tried again; whole calls
are considered without such failures.
-/

namespace MimallocRs

open Interleave

/-- An event on the words of a bitmap of `cc` chunks, by the only thread that moves. -/
def wordExec {β : Type} (cc : ℕ) (e : BitAct β) (w : Words) : Option (β × Words) :=
  match e with
  | .load l => if l.Valid cc then some (w l, w) else none
  | .cas l old new =>
    if ¬ l.Valid cc then none
    else if w l = old then some (none, Function.update w l new)
    else some (some (w l), w)

/-- The words of a bitmap of `cc` chunks, used by one thread. -/
def wordMachine (cc : ℕ) : Machine BitAct Unit Words where
  exec _ e w _ := wordExec cc e w

/-- The words of a shared bitmap change in the same way. -/
theorem exec_word {Tid : Type} [DecidableEq Tid] {β : Type} (cc : ℕ) (t : Tid) (e : BitAct β)
    (s : BitShared Tid) :
    (s.exec cc t e 0).map (fun r => (r.1, r.2.word)) = wordExec cc e s.word := by
  cases e with
  | load l =>
    simp only [BitShared.exec, wordExec]
    split <;> rfl
  | cas l old new =>
    simp only [BitShared.exec, wordExec, and_true]
    split
    · rfl
    · split <;> rfl

/-- Every execution of a bitmap program from the words `w` comes to an end. -/
abbrev BitEnds {α : Type} (cc : ℕ) (panics : Prop) (p : Prog BitAct α) (w : Words)
    (Q : α → Words → Prop) : Prop :=
  Ends (wordMachine cc) () panics p w Q

variable {cc : ℕ} {panics : Prop} {w : Words} {l : Loc} {mask : BitVec 64} {α : Type}

namespace BitEnds

variable {Q : α → Words → Prop}

theorem load {k : BitVec 64 → Prog BitAct α} (hl : l.Valid cc)
    (h : BitEnds cc panics (k (w l)) w Q) : BitEnds cc panics (.act (.load l) k) w Q := by
  apply Ends.act
  · intro choice he
    have he : wordExec cc (.load l) w = none := he
    simp [wordExec, hl] at he
  · intro choice b w' he
    have he : wordExec cc (.load l) w = some (b, w') := he
    simp only [wordExec, hl, ↓reduceIte, Option.some.injEq, Prod.mk.injEq] at he
    obtain ⟨rfl, rfl⟩ := he
    exact h

/-- A load outside the bitmap panics. -/
theorem load_panics {k : BitVec 64 → Prog BitAct α} (hl : ¬ l.Valid cc) :
    BitEnds cc True (.act (.load l) k) w Q := by
  apply Ends.act
  · exact fun _ _ => trivial
  · intro choice b w' he
    have he : wordExec cc (.load l) w = some (b, w') := he
    simp [wordExec, hl] at he

theorem cas {old new : BitVec 64} {k : Option (BitVec 64) → Prog BitAct α} (hl : l.Valid cc)
    (hw : w l = old) (h : BitEnds cc panics (k none) (Function.update w l new) Q) :
    BitEnds cc panics (.act (.cas l old new) k) w Q := by
  apply Ends.act
  · intro choice he
    have he : wordExec cc (.cas l old new) w = none := he
    simp [wordExec, hl, hw] at he
  · intro choice b w' he
    have he : wordExec cc (.cas l old new) w = some (b, w') := he
    simp only [wordExec, hl, hw, not_true_eq_false, ↓reduceIte, Option.some.injEq,
      Prod.mk.injEq] at he
    obtain ⟨rfl, rfl⟩ := he
    exact h

end BitEnds

/-! ## Fields -/

/-- The bits of a mask are set if the word has them all. -/
theorem maskBits_subset_iff {c f : ℕ} (hl : (Loc.chunk c f).Valid cc) :
    maskBits c f mask ⊆ bitsOf cc w ↔ w (.chunk c f) &&& mask = mask := by
  rw [and_eq_iff]
  constructor
  · intro h i hi
    have hlt : i < 64 := BitVec.lt_of_getLsbD hi
    have hf : f < 8 := hl.2
    have hc : (c * 512 + (f * 64 + i)) / 512 = c := by omega
    have hfi : (c * 512 + (f * 64 + i)) % 512 / 64 = f := by omega
    have hi' : (c * 512 + (f * 64 + i)) % 64 = i := by omega
    have hbit := (h (show c * 512 + (f * 64 + i) ∈ maskBits c f mask from
      ⟨hc, hfi, by rwa [hi']⟩)).2
    rwa [hc, hfi, hi'] at hbit
  · rintro h j ⟨rfl, rfl, hj⟩
    exact ⟨hl.1, h _ hj⟩

theorem disjoint_maskBits_iff {c f : ℕ} (hl : (Loc.chunk c f).Valid cc) :
    Disjoint (maskBits c f mask) (bitsOf cc w) ↔ w (.chunk c f) &&& mask = 0#64 := by
  rw [and_eq_zero_iff, Set.disjoint_left]
  constructor
  · intro h i hi
    have hlt : i < 64 := BitVec.lt_of_getLsbD hi
    have hf : f < 8 := hl.2
    have hc : (c * 512 + (f * 64 + i)) / 512 = c := by omega
    have hfi : (c * 512 + (f * 64 + i)) % 512 / 64 = f := by omega
    have hi' : (c * 512 + (f * 64 + i)) % 64 = i := by omega
    have hbit := h (show c * 512 + (f * 64 + i) ∈ maskBits c f mask from
      ⟨hc, hfi, by rwa [hi']⟩)
    rw [← Bool.not_eq_true]
    intro hset
    exact hbit ⟨by rw [hc]; exact hl.1, by rwa [hc, hfi, hi']⟩
  · rintro h j ⟨rfl, rfl, hj⟩ ⟨-, hset⟩
    rw [h _ hj] at hset
    cases hset

theorem bfAllSet_ends {c f : ℕ} (hl : (Loc.chunk c f).Valid cc) :
    BitEnds cc panics (bfAllSet (.chunk c f) mask) w fun r w' =>
      w' = w ∧ (r = true ↔ maskBits c f mask ⊆ bitsOf cc w) := by
  apply BitEnds.load hl
  apply Ends.ret
  rw [maskBits_subset_iff hl, beq_iff_eq]
  exact ⟨rfl, Iff.rfl⟩

theorem bfAllClear_ends {c f : ℕ} (hl : (Loc.chunk c f).Valid cc) :
    BitEnds cc panics (bfAllClear (.chunk c f) mask) w fun r w' =>
      w' = w ∧ (r = true ↔ Disjoint (maskBits c f mask) (bitsOf cc w)) := by
  apply BitEnds.load hl
  apply Ends.ret
  rw [disjoint_maskBits_iff hl, beq_iff_eq]
  exact ⟨rfl, Iff.rfl⟩

theorem bfSetMask_ends (hl : l.Valid cc) :
    BitEnds cc panics (bfSetMask l mask) w fun _ w' =>
      bitsOf cc w' = bitsOf cc w ∪ l.bits mask := by
  have hsub : l.bits (w l) ⊆ bitsOf cc w := bits_subset_bitsOf hl
  simp only [bfSetMask, Prog.bind_eq, Prog.pure_eq, Prog.perform_bind]
  apply BitEnds.load hl
  apply Ends.loop_once
  split
  · next h =>
    apply Ends.ret
    apply Ends.ret
    rw [← h, Loc.bits_or, Set.union_subset_iff] at hsub
    rw [Set.union_eq_left.mpr hsub.2]
  · apply BitEnds.cas hl rfl
    apply Ends.ret
    apply Ends.ret
    exact bitsOf_update_or hl

theorem bfTryClearMask_ends (hl : l.Valid cc) :
    BitEnds cc panics (bfTryClearMask l mask) w fun r w' =>
      (r = true ↔ w l &&& mask = mask) ∧
        bitsOf cc w' = if r then bitsOf cc w \ l.bits mask else bitsOf cc w := by
  simp only [bfTryClearMask, Prog.bind_eq, Prog.pure_eq, Prog.perform_bind]
  apply BitEnds.load hl
  apply Ends.loop_once
  split
  · next h =>
    apply Ends.ret
    apply Ends.ret
    exact ⟨by simpa using h, rfl⟩
  · next h =>
    rw [not_not] at h
    apply BitEnds.cas hl rfl
    apply Ends.ret
    apply Ends.ret
    refine ⟨by simp [h], ?_⟩
    exact bitsOf_update_and_not hl h

theorem bfFindAndClearRun_ends (hl : l.Valid cc) {n : ℕ} :
    BitEnds cc panics (bfFindAndClearRun l n) w fun r w' =>
      match r with
      | some b => b + n ≤ 64 ∧ w l &&& fieldMask b n = fieldMask b n ∧
        bitsOf cc w' = bitsOf cc w \ l.bits (fieldMask b n)
      | none => w' = w := by
  unfold bfFindAndClearRun
  split
  · exact Ends.ret rfl
  · next hn =>
    have hn64 : n ≤ 64 := by
      rw [fieldBits_eq] at hn
      omega
    simp only [Prog.bind_eq, Prog.pure_eq, Prog.perform_bind]
    apply BitEnds.load hl
    apply Ends.loop_once
    split
    · exact Ends.ret (Ends.ret rfl)
    · split
      · exact Ends.ret (Ends.ret rfl)
      · next shift hshift =>
        obtain ⟨hb, hmask⟩ := findShift_eq_some hshift hn64
        apply BitEnds.cas hl rfl
        apply Ends.ret
        apply Ends.ret
        exact ⟨hb, hmask, bitsOf_update_and_not hl hmask⟩

/-! ## Chunks -/

namespace BChunk

variable {c cbit n : ℕ}

theorem valid_of_lt {bit : ℕ} (hc : c < cc) (hbit : bit < 512) :
    (Loc.chunk c (bit / fieldBits)).Valid cc := by
  refine ⟨hc, ?_⟩
  rw [fieldBits_eq, chunkFields_eq]
  omega

theorem valid_field {f : ℕ} (hc : c < cc) (hf : f < 8) : (Loc.chunk c f).Valid cc := ⟨hc, hf⟩

theorem here_pos (bit : ℕ) {remaining : ℕ} (h : remaining ≠ 0) : 0 < here bit remaining := by
  rw [here, fieldBits_eq]
  omega

/-- A test of each field of a run tests the run, when the test of a union is that of its parts. -/
theorem forEachFieldMask_ends {pred : Loc → BitVec 64 → Prog BitAct Bool} {P : Set ℕ → Prop}
    (hempty : P ∅) (hunion : ∀ A B, P (A ∪ B) ↔ P A ∧ P B)
    (hpred : ∀ f mask, (Loc.chunk c f).Valid cc → BitEnds cc panics (pred (.chunk c f) mask) w
      fun r w' => w' = w ∧ (r = true ↔ P (maskBits c f mask)))
    (hc : c < cc) (hn : cbit + n ≤ 512) :
    BitEnds cc panics (forEachFieldMask (.chunk c) cbit n pred) w fun r w' =>
      w' = w ∧ (r = true ↔ P (bitRange (c * 512 + cbit) n)) := by
  refine Ends.loop_measure (fun b => b.2) (fun b w' => w' = w ∧ b.1 + b.2 ≤ 512 ∧
    (P (bitRange (c * 512 + cbit) n) ↔ P (bitRange (c * 512 + b.1) b.2))) ?_ ⟨rfl, hn, Iff.rfl⟩
  rintro ⟨bit, remaining⟩ _ ⟨rfl, hle, hiff⟩
  simp only [Prog.bind_eq, Prog.pure_eq] at hle hiff ⊢
  split
  · next hrem =>
    apply Ends.ret
    apply Ends.ret
    rw [hiff, hrem, bitRange_zero]
    exact ⟨rfl, by simp [hempty]⟩
  · next hrem =>
    have hpos := here_pos bit hrem
    have hhere := here_le bit remaining
    rw [bitRange_split hhere, hunion, Nat.add_assoc,
      ← maskBits_here (by omega : bit < 512)] at hiff
    apply Ends.bind
    apply (hpred _ _ (valid_of_lt hc (by omega))).mono
    rintro r _ ⟨rfl, hr⟩
    rw [← hr] at hiff
    cases r with
    | false => exact Ends.ret (Ends.ret ⟨rfl, by simp [hiff]⟩)
    | true =>
      apply Ends.ret
      have hlt : remaining - here bit remaining < remaining := by omega
      have hle' : bit + here bit remaining + (remaining - here bit remaining) ≤ 512 := by omega
      exact ⟨⟨rfl, hle', by simpa using hiff⟩, hlt⟩

theorem isSetN_ends (hc : c < cc) (hn : cbit + n ≤ 512) :
    BitEnds cc panics (isSetN (.chunk c) cbit n) w fun r w' =>
      w' = w ∧ (r = true ↔ bitRange (c * 512 + cbit) n ⊆ bitsOf cc w) :=
  forEachFieldMask_ends (P := (· ⊆ bitsOf cc w)) (Set.empty_subset _)
    (fun _ _ => Set.union_subset_iff) (fun _ _ hl => bfAllSet_ends hl) hc hn

theorem isClearN_ends (hc : c < cc) (hn : cbit + n ≤ 512) :
    BitEnds cc panics (isClearN (.chunk c) cbit n) w fun r w' =>
      w' = w ∧ (r = true ↔ Disjoint (bitRange (c * 512 + cbit) n) (bitsOf cc w)) :=
  forEachFieldMask_ends (P := fun A => Disjoint A (bitsOf cc w)) (Set.empty_disjoint _)
    (fun _ _ => Set.disjoint_union_left) (fun _ _ hl => bfAllClear_ends hl) hc hn

theorem isSet_ends (hc : c < cc) (hn : cbit < 512) :
    BitEnds cc panics (isSet (.chunk c) cbit) w fun r w' =>
      w' = w ∧ (r = true ↔ c * 512 + cbit ∈ bitsOf cc w) := by
  apply (bfAllSet_ends (valid_of_lt hc hn)).mono
  rintro r w' ⟨rfl, hr⟩
  refine ⟨rfl, hr.trans ?_⟩
  rw [fieldBits_eq, maskBits_mask (by omega) (by omega), Nat.mul_comm (cbit / 64),
    Nat.div_add_mod]
  constructor
  · exact fun h => h ⟨le_rfl, by omega⟩
  · intro h j hj
    rw [mem_bitRange] at hj
    rwa [show j = c * 512 + cbit by omega]

theorem setN_ends (hc : c < cc) (hn : cbit + n ≤ 512) :
    BitEnds cc panics (setN (.chunk c) cbit n) w fun _ w' =>
      bitsOf cc w' = bitsOf cc w ∪ bitRange (c * 512 + cbit) n := by
  refine Ends.loop_measure (fun b => b.2) (fun b w' => b.1 + b.2 ≤ 512 ∧
    bitsOf cc w' ∪ bitRange (c * 512 + b.1) b.2 = bitsOf cc w ∪ bitRange (c * 512 + cbit) n) ?_
    ⟨hn, rfl⟩
  rintro ⟨bit, remaining⟩ w₁ ⟨hle, hbits⟩
  simp only [Prog.bind_eq, Prog.pure_eq] at hle hbits ⊢
  split
  · next hrem =>
    apply Ends.ret
    apply Ends.ret
    rwa [hrem, bitRange_zero, Set.union_empty] at hbits
  · next hrem =>
    have hpos := here_pos bit hrem
    have hhere := here_le bit remaining
    rw [bitRange_split hhere, ← Set.union_assoc, Nat.add_assoc] at hbits
    apply Ends.bind
    apply (bfSetMask_ends (valid_of_lt hc (by omega))).mono
    intro _ w₂ hw₂
    rw [Loc.bits, maskBits_here (by omega)] at hw₂
    apply Ends.ret
    have hlt : remaining - here bit remaining < remaining := by omega
    have hle' : bit + here bit remaining + (remaining - here bit remaining) ≤ 512 := by omega
    refine ⟨⟨hle', ?_⟩, hlt⟩
    rw [hw₂]
    exact hbits

/-- A run that leaves its chunk is not set: the loop comes to a field that does not exist. -/
theorem setN_panics (hbit : cbit < 512) (hn : 512 < cbit + n) :
    BitEnds cc True (setN (.chunk c) cbit n) w fun _ _ => False := by
  refine Ends.loop_measure (fun b => b.2) (fun b _ => b.1 ≤ 512 ∧ 512 < b.1 + b.2) ?_
    ⟨by omega, hn⟩
  rintro ⟨bit, remaining⟩ w₁ ⟨hle, hgt⟩
  simp only [Prog.bind_eq, Prog.pure_eq] at hle hgt ⊢
  rw [if_neg (by omega : remaining ≠ 0)]
  apply Ends.bind
  by_cases hl : (Loc.chunk c (bit / fieldBits)).Valid cc
  · have hlt := lt_of_valid hl
    apply (bfSetMask_ends hl).mono
    intro _ w₂ _
    have hpos := here_pos bit (by omega : remaining ≠ 0)
    have hhere := here_le bit remaining
    have hfield : bit + here bit remaining ≤ 512 := by
      rw [here, fieldBits_eq]
      omega
    apply Ends.ret
    have hgt' : 512 < bit + here bit remaining + (remaining - here bit remaining) := by omega
    have hmeasure : remaining - here bit remaining < remaining := by omega
    exact ⟨⟨hfield, hgt'⟩, hmeasure⟩
  · exact BitEnds.load_panics hl

/-- The test of a run comes to an end, though it may come to a field that does not exist. -/
theorem isClearN_ends_or_panics :
    BitEnds cc True (isClearN (.chunk c) cbit n) w fun _ _ => True := by
  refine Ends.loop_measure (fun b => b.2) (fun _ _ => True) ?_ trivial
  rintro ⟨bit, remaining⟩ w₁ -
  simp only [Prog.bind_eq, Prog.pure_eq]
  split
  · exact Ends.ret (Ends.ret trivial)
  · next hrem =>
    apply Ends.bind
    by_cases hl : (Loc.chunk c (bit / fieldBits)).Valid cc
    · apply (bfAllClear_ends hl).mono
      intro r w₂ _
      have hpos := here_pos bit hrem
      have hlt : remaining - here bit remaining < remaining := by omega
      cases r with
      | false => exact Ends.ret (Ends.ret trivial)
      | true => exact Ends.ret ⟨trivial, hlt⟩
    · exact BitEnds.load_panics hl

/-- The clearing loop of a claim takes the run field by field while it is set. -/
theorem clearFields_ends (hc : c < cc) (hn : cbit + n ≤ 512) :
    BitEnds cc panics (clearFields (.chunk c) cbit n) w fun r w' =>
      (∀ p ∈ r.2, (Loc.chunk c p.1).Valid cc) ∧ bitsOf cc w' ∪ listBits c r.2 = bitsOf cc w ∧
        (r.1 = true ↔ bitRange (c * 512 + cbit) n ⊆ bitsOf cc w) ∧
        (r.1 = true → bitsOf cc w' = bitsOf cc w \ bitRange (c * 512 + cbit) n) := by
  refine Ends.loop_measure (fun b => b.2.1) (fun b w' => ∃ done, b.1 = cbit + done ∧
    done + b.2.1 = n ∧ (∀ p ∈ b.2.2, (Loc.chunk c p.1).Valid cc) ∧
    listBits c b.2.2 = bitRange (c * 512 + cbit) done ∧
    bitRange (c * 512 + cbit) done ⊆ bitsOf cc w ∧
    bitsOf cc w' = bitsOf cc w \ bitRange (c * 512 + cbit) done) ?_ ?_
  · rintro ⟨bit, remaining, cleared⟩ w₁ ⟨done, hbit, hsum, hvalid, hlist, hset, hbits⟩
    simp only [Prog.bind_eq, Prog.pure_eq] at hbit hsum hvalid hlist hset hbits ⊢
    have hback : bitsOf cc w₁ ∪ listBits c cleared = bitsOf cc w := by
      rw [hbits, hlist, Set.sdiff_union_of_subset hset]
    split
    · next hrem =>
      obtain rfl : done = n := by omega
      apply Ends.ret
      apply Ends.ret
      exact ⟨hvalid, hback, by simp [hset], fun _ => hbits⟩
    · next hrem =>
      have hpos := here_pos bit hrem
      have hhere := here_le bit remaining
      have hlt : bit < 512 := by omega
      have hl := valid_of_lt hc hlt
      have hrange : bitRange (c * 512 + cbit) (done + here bit remaining) =
          bitRange (c * 512 + cbit) done ∪
            maskBits c (bit / fieldBits) (fieldMask (bit % fieldBits) (here bit remaining)) := by
        rw [maskBits_here hlt, bitRange_add, hbit, Nat.add_assoc]
      have hfresh : Disjoint (bitRange (c * 512 + cbit) done)
          (maskBits c (bit / fieldBits) (fieldMask (bit % fieldBits) (here bit remaining))) := by
        rw [maskBits_here hlt, hbit, ← Nat.add_assoc]
        exact disjoint_bitRange
      have hmask : maskBits c (bit / fieldBits) (fieldMask (bit % fieldBits) (here bit remaining)) ⊆
          bitsOf cc w₁ ↔ bitRange (c * 512 + cbit) (done + here bit remaining) ⊆ bitsOf cc w := by
        rw [hrange, Set.union_subset_iff, hbits, Set.subset_sdiff]
        exact ⟨fun h => ⟨hset, h.1⟩, fun h => ⟨h.2, hfresh.symm⟩⟩
      apply Ends.bind
      apply (bfTryClearMask_ends hl).mono
      intro r w₂ hr
      rw [← maskBits_subset_iff hl, hmask] at hr
      cases r with
      | false =>
        apply Ends.ret
        apply Ends.ret
        have hnot : ¬ bitRange (c * 512 + cbit) n ⊆ bitsOf cc w := by
          intro h
          have hsub : bitRange (c * 512 + cbit) (done + here bit remaining) ⊆
              bitRange (c * 512 + cbit) n := by
            intro j hj
            rw [mem_bitRange] at hj ⊢
            omega
          cases hr.1.mpr (hsub.trans h)
        have hkeep : bitsOf cc w₂ = bitsOf cc w₁ := by simpa using hr.2
        refine ⟨hvalid, ?_, by simp [hnot], fun h => by cases h⟩
        rw [hkeep, hback]
      | true =>
        apply Ends.ret
        have hmeasure : remaining - here bit remaining < remaining := by omega
        have hsum' : done + here bit remaining + (remaining - here bit remaining) = n := by omega
        refine ⟨⟨done + here bit remaining, by rw [hbit, Nat.add_assoc], hsum', ?_, ?_,
          hr.1.mp rfl, ?_⟩, hmeasure⟩
        · intro p hp
          rcases List.mem_append.mp hp with hp | hp
          · exact hvalid p hp
          · rw [List.mem_singleton.mp hp]
            exact hl
        · rw [listBits_append, listBits_cons, listBits_nil, Set.union_empty, hlist, hrange]
        · have hw₂ : bitsOf cc w₂ = bitsOf cc w₁ \ _ := hr.2
          rw [hw₂, hbits, hrange, Set.sdiff_sdiff]
          rfl
  · refine ⟨0, rfl, Nat.zero_add n, fun p hp => (by cases hp), ?_, ?_, ?_⟩
    · rw [listBits_nil, bitRange_zero]
    · rw [bitRange_zero]
      exact Set.empty_subset _
    · rw [bitRange_zero, Set.sdiff_empty]

theorem rollBack_ends {cleared : List (ℕ × BitVec 64)}
    (hvalid : ∀ p ∈ cleared, (Loc.chunk c p.1).Valid cc) :
    BitEnds cc panics (rollBack (.chunk c) cleared) w fun _ w' =>
      bitsOf cc w' = bitsOf cc w ∪ listBits c cleared := by
  refine Ends.forEach (fun l w' => (∀ p ∈ l, (Loc.chunk c p.1).Valid cc) ∧
    bitsOf cc w' ∪ listBits c l = bitsOf cc w ∪ listBits c cleared) ?_ ?_ ⟨hvalid, rfl⟩
  · rintro ⟨f, mask⟩ l w₁ ⟨hl, hbits⟩
    rw [listBits_cons, ← Set.union_assoc] at hbits
    apply Ends.bind
    apply (bfSetMask_ends (hl _ List.mem_cons_self)).mono
    intro _ w₂ hw₂
    apply Ends.ret
    refine ⟨fun p hp => hl p (List.mem_cons_of_mem _ hp), ?_⟩
    rw [hw₂]
    exact hbits
  · rintro w₁ ⟨-, hbits⟩
    rwa [listBits_nil, Set.union_empty] at hbits

/-- A claim within a chunk succeeds if all bits are set. -/
theorem tryClearN_ends (hc : c < cc) (hcbit : cbit < 512) (hn : cbit + n ≤ 512) :
    BitEnds cc panics (tryClearN (.chunk c) cbit n) w fun r w' =>
      (r = true ↔ bitRange (c * 512 + cbit) n ⊆ bitsOf cc w) ∧
        bitsOf cc w' =
          if r then bitsOf cc w \ bitRange (c * 512 + cbit) n else bitsOf cc w := by
  simp only [tryClearN, Prog.bind_eq, Prog.pure_eq]
  split
  · next hone =>
    have hl := valid_of_lt hc hcbit
    have hmask : maskBits c (cbit / fieldBits) (fieldMask (cbit % fieldBits) n) =
        bitRange (c * 512 + cbit) n := by
      rw [fieldBits_eq] at hl hone ⊢
      rw [maskBits_mask hl.2 hone, Nat.mul_comm (cbit / 64), Nat.div_add_mod]
    apply (bfTryClearMask_ends hl).mono
    intro r w' hr
    rw [← maskBits_subset_iff hl, Loc.bits, hmask] at hr
    exact hr
  · apply Ends.bind
    apply (clearFields_ends hc hn).mono
    rintro ⟨ok, cleared⟩ w₁ ⟨hvalid, hback, hiff, hdone⟩
    cases ok with
    | true => exact Ends.ret ⟨hiff, hdone rfl⟩
    | false =>
      apply Ends.bind
      apply (rollBack_ends hvalid).mono
      intro _ w₂ hw₂
      apply Ends.ret
      refine ⟨hiff, ?_⟩
      rw [hw₂]
      exact hback

/-- Chunk `c` has no run of `n` set bits. -/
def NoRun (cc : ℕ) (w : Words) (c n : ℕ) : Prop :=
  ∀ b, b + n ≤ 512 → ¬ bitRange (c * 512 + b) n ⊆ bitsOf cc w

theorem findAndClearNSpanning_ends (hc : c < cc) (hn : 0 < n) :
    BitEnds cc panics (findAndClearNSpanning (.chunk c) n) w fun r w' =>
      match r with
      | some b => b + n ≤ 512 ∧ bitRange (c * 512 + b) n ⊆ bitsOf cc w ∧
        bitsOf cc w' = bitsOf cc w \ bitRange (c * 512 + b) n
      | none => w' = w ∧ NoRun cc w c n := by
  refine Ends.loop_measure (fun start => 512 - start)
    (fun start w' => w' = w ∧ ∀ b < start, ¬ bitRange (c * 512 + b) n ⊆ bitsOf cc w) ?_
    ⟨rfl, fun b hb => (by omega)⟩
  rintro start _ ⟨rfl, hnone⟩
  simp only [Prog.bind_eq, Prog.pure_eq]
  split
  · next hle =>
    rw [chunkBits_eq] at hle
    apply Ends.bind
    apply (isSetN_ends hc hle).mono
    rintro r _ ⟨rfl, hr⟩
    cases r with
    | false =>
      apply Ends.ret
      have hlt : 512 - (start + 1) < 512 - start := by omega
      refine ⟨⟨rfl, fun b hb => ?_⟩, hlt⟩
      rcases Nat.lt_succ_iff_lt_or_eq.mp hb with hb | rfl
      · exact hnone b hb
      · exact fun hset => by cases hr.mpr hset
    | true =>
      have hset := hr.mp rfl
      apply Ends.bind
      apply (tryClearN_ends hc (by omega) hle).mono
      rintro r w₁ ⟨hr₁, hbits⟩
      rw [hr₁.mpr hset] at hbits ⊢
      exact Ends.ret (Ends.ret ⟨hle, hset, hbits⟩)
  · next hle =>
    rw [chunkBits_eq] at hle
    exact Ends.ret (Ends.ret ⟨rfl, fun b hb => hnone b (by omega)⟩)

theorem findInField_ends (hc : c < cc) :
    BitEnds cc panics (findInField (.chunk c) n) w fun r w' =>
      match r with
      | some b => b + n ≤ 512 ∧ bitRange (c * 512 + b) n ⊆ bitsOf cc w ∧
        bitsOf cc w' = bitsOf cc w \ bitRange (c * 512 + b) n
      | none => w' = w := by
  refine Ends.firstSome (fun l w' => (∀ f ∈ l, f < 8) ∧ w' = w) ?_ (fun _ h => h.2)
    ⟨fun f hf => List.mem_range.mp hf, rfl⟩
  rintro f l _ ⟨hf, rfl⟩
  have hl : (Loc.chunk c f).Valid cc := ⟨hc, hf f List.mem_cons_self⟩
  apply Ends.bind
  apply (bfFindAndClearRun_ends hl).mono
  intro r w₁ hr
  cases r with
  | none => exact Ends.ret ⟨fun f' hf' => hf f' (List.mem_cons_of_mem _ hf'), hr⟩
  | some b =>
    obtain ⟨hb, hmask, hbits⟩ := hr
    rw [← maskBits_subset_iff hl, maskBits_mask hl.2 hb] at hmask
    rw [Loc.bits, maskBits_mask hl.2 hb] at hbits
    have hf8 : f < 8 := hl.2
    apply Ends.ret
    refine ⟨?_, hmask, hbits⟩
    rw [fieldBits_eq]
    omega

theorem countFree_ends {fs : List ℕ} (hc : c < cc) (hfs : ∀ f ∈ fs, f < 8) :
    BitEnds cc panics (countFree (.chunk c) fs) w fun r w' =>
      w' = w ∧ r = (fs.map fun f => countOnes (w (.chunk c f))).sum := by
  induction fs with
  | nil => exact Ends.ret ⟨rfl, rfl⟩
  | cons f fs ih =>
    simp only [countFree, Prog.bind_eq, Prog.pure_eq, Prog.perform_bind]
    apply BitEnds.load (valid_field hc (hfs f List.mem_cons_self))
    apply Ends.bind
    apply (ih fun f' hf' => hfs f' (List.mem_cons_of_mem _ hf')).mono
    rintro rest _ ⟨rfl, rfl⟩
    exact Ends.ret ⟨rfl, by rw [List.map_cons, List.sum_cons]⟩

/-- The bits of the first fields of a chunk, counted field by field. -/
theorem sum_countOnes (v : ℕ → BitVec 64) (m : ℕ) :
    ((List.range m).map fun f => countOnes (v f)).sum =
      (List.range (m * 64)).countP fun j => (v (j / 64)).getLsbD (j % 64) := by
  induction m with
  | zero => simp
  | succ m ih =>
    rw [List.range_succ, List.map_append, List.sum_append, ih, Nat.succ_mul, List.range_add,
      List.countP_append, List.countP_map]
    simp only [List.map_cons, List.map_nil, List.sum_singleton, Nat.add_left_cancel_iff]
    apply List.countP_congr
    intro i hi
    have hlt := List.mem_range.mp hi
    have hdiv : (m * 64 + i) / 64 = m := by omega
    have hmod : (m * 64 + i) % 64 = i := by omega
    simp [hdiv, hmod]

/-- A predicate that holds on a run of `n` indices holds at least `n` times. -/
theorem le_countP_range {p : ℕ → Bool} {b n m : ℕ} (hm : b + n ≤ m)
    (h : ∀ i < n, p (b + i) = true) : n ≤ (List.range m).countP p := by
  have hrun : (List.range (b + n)).countP p = (List.range b).countP p + n := by
    rw [List.range_add, List.countP_append, List.countP_map]
    congr 1
    rw [List.countP_eq_length.mpr, List.length_range]
    intro i hi
    exact h i (List.mem_range.mp hi)
  have hsub : (List.range (b + n)).countP p ≤ (List.range m).countP p :=
    (List.range_sublist.mpr hm).countP_le
  omega

/-- A chunk with fewer than `n` set bits has no run of `n`. -/
theorem noRun_of_count
    (h : ((List.range chunkFields).map fun f => countOnes (w (.chunk c f))).sum < n) :
    NoRun cc w c n := by
  intro b hb hset
  rw [sum_countOnes fun f => w (.chunk c f)] at h
  apply h.not_ge
  apply le_countP_range (b := b)
  · rw [chunkFields_eq]
    exact hb
  · intro i hi
    have hbit := (hset (show c * 512 + b + i ∈ bitRange (c * 512 + b) n by
      rw [mem_bitRange]; omega)).2
    have hc : (c * 512 + b + i) / 512 = c := by omega
    have hf : (c * 512 + b + i) % 512 / 64 = (b + i) / 64 := by omega
    have hm : (c * 512 + b + i) % 64 = (b + i) % 64 := by omega
    rwa [hc, hf, hm] at hbit

theorem findAcross_ends (hc : c < cc) (hn : 0 < n) :
    BitEnds cc panics (findAcross (.chunk c) n) w fun r w' =>
      match r with
      | some b => b + n ≤ 512 ∧ bitRange (c * 512 + b) n ⊆ bitsOf cc w ∧
        bitsOf cc w' = bitsOf cc w \ bitRange (c * 512 + b) n
      | none => w' = w ∧ NoRun cc w c n := by
  apply Ends.bind
  apply (countFree_ends hc fun f hf => List.mem_range.mp hf).mono
  rintro free _ ⟨rfl, rfl⟩
  split
  · next hfree => exact Ends.ret ⟨rfl, noRun_of_count hfree⟩
  · exact findAndClearNSpanning_ends hc hn

/-- A run found in a chunk was set, and has been cleared; a run of the chunk is found. -/
theorem findAndClearN_ends (hc : c < cc) (hn : 0 < n) :
    BitEnds cc panics (findAndClearN (.chunk c) n) w fun r w' =>
      match r with
      | some b => b + n ≤ 512 ∧ bitRange (c * 512 + b) n ⊆ bitsOf cc w ∧
        bitsOf cc w' = bitsOf cc w \ bitRange (c * 512 + b) n
      | none => w' = w ∧ NoRun cc w c n := by
  unfold findAndClearN
  split
  · next hout =>
    rw [chunkBits_eq] at hout
    exact Ends.ret ⟨rfl, fun b hb => (by omega)⟩
  · split
    · apply Ends.bind
      apply (findInField_ends hc).mono
      intro r w₁ hr
      cases r with
      | some b => exact Ends.ret hr
      | none =>
        rw [hr]
        exact findAcross_ends hc hn
    · exact findAcross_ends hc hn

/-- A chunk that is found clear has no set bit. -/
theorem isAllClear_ends (hc : c < cc) :
    BitEnds cc panics (isAllClear (.chunk c)) w fun r w' =>
      w' = w ∧ (r = true → ∀ j ∈ bitsOf cc w, j / 512 ≠ c) := by
  refine Ends.allOf (fun l w' => (∀ f ∈ l, f < 8) ∧ w' = w ∧
    ∀ f < 8, f ∈ l ∨ w (.chunk c f) = 0#64) ?_ ?_
    ⟨fun f hf => List.mem_range.mp hf, rfl, fun f hf => Or.inl (List.mem_range.mpr hf)⟩
  · rintro f l _ ⟨hf, rfl, hclear⟩
    apply BitEnds.load (valid_field hc (hf f List.mem_cons_self))
    apply Ends.ret
    split
    · next hzero =>
      refine ⟨fun f' hf' => hf f' (List.mem_cons_of_mem _ hf'), rfl, fun f' hf' => ?_⟩
      rcases hclear f' hf' with hmem | hz
      · rcases List.mem_cons.mp hmem with rfl | hmem
        · exact Or.inr (beq_iff_eq.mp hzero)
        · exact Or.inl hmem
      · exact Or.inr hz
    · exact ⟨rfl, fun h => by cases h⟩
  · rintro _ ⟨-, rfl, hclear⟩
    refine ⟨rfl, fun _ j hj hjc => ?_⟩
    rcases hclear (j % 512 / 64) (by omega) with hmem | hz
    · cases hmem
    · have hbit := hj.2
      rw [hjc, hz] at hbit
      simp at hbit

end BChunk

end MimallocRs
