import MimallocRs.Bitmap.Whole
import MimallocRs.Bitmap.Chunkmap
import MimallocRs.Foundations.Interleave.Serial

/-!
# The search of a bitmap is sound and complete

The search for a run rejects early: it skips the chunks that the chunkmap does not mark and the
chunks with too few set bits. Neither hides a run from it. In a bitmap used by whole calls one
after the other, the chunkmap marks every chunk that has a set bit (`Covered`): each call keeps
this, also when it panics or fails, and so it holds in every bitmap that calls have made out of the
empty one. In such a bitmap the search finds a run whenever there is one (`bitmap_search`).
-/

namespace MimallocRs

open Interleave Prog

variable {cc : ℕ} {panics : Prop} {w : Words} {l : Loc} {mask : BitVec 64} {α : Type}

/-- The chunks that the chunkmap marks. -/
def marked (w : Words) : Set ℕ := {c | (w (.map (c / 64))).getLsbD (c % 64) = true}

/-- The chunkmap marks every chunk that has a set bit. -/
def Covered (cc : ℕ) (w : Words) : Prop := ∀ j ∈ bitsOf cc w, j / 512 ∈ marked w

theorem Covered.mono {w' : Words} (h : Covered cc w) (hbits : bitsOf cc w' ⊆ bitsOf cc w)
    (hmarks : marked w ⊆ marked w') : Covered cc w' :=
  fun j hj => hmarks (h j (hbits hj))

theorem covered_zero : Covered cc fun _ => 0#64 := by
  intro j hj
  have hbit := hj.2
  simp at hbit

/-! ## Chunks leave the chunkmap alone -/

/-- A program that accesses only chunks leaves the marks as they are. -/
theorem marked_of_onChunk {p : Prog BitAct α} {Q : α → Words → Prop}
    (hp : p.Every BitAct.OnChunk) (h : BitEnds cc panics p w Q) :
    BitEnds cc panics p w fun a w' => Q a w' ∧ marked w' = marked w := by
  refine h.keeps (J := fun w' => marked w' = marked w) ?_ hp rfl
  intro β e he s choice b s' hs hex
  have hex : wordExec cc e s = some (b, s') := hex
  rw [← hs]
  cases e with
  | load l =>
    simp only [wordExec, Option.ite_none_right_eq_some, Option.some.injEq, Prod.mk.injEq] at hex
    rw [hex.2.2]
  | cas l old new =>
    obtain ⟨c, f, rfl⟩ := he
    simp only [wordExec] at hex
    split at hex
    · cases hex
    · split at hex
      · cases hex
        rfl
      · cases hex
        rfl

/-- The event is on a word of chunk `c`. -/
def BitAct.OnOne (c : ℕ) : {β : Type} → BitAct β → Prop
  | _, .load l | _, .cas l _ _ => ∃ f, l = .chunk c f

/-- A program that accesses only chunk `c` sets bits only there. -/
theorem bits_of_onOne {c : ℕ} {p : Prog BitAct α} {Q : α → Words → Prop}
    (hp : p.Every (BitAct.OnOne c)) (h : BitEnds cc panics p w Q) :
    BitEnds cc panics p w fun a w' => Q a w' ∧ ∀ j ∈ bitsOf cc w', j ∈ bitsOf cc w ∨ j / 512 = c := by
  refine h.keeps (J := fun w' => ∀ j ∈ bitsOf cc w', j ∈ bitsOf cc w ∨ j / 512 = c) ?_ hp
    fun j hj => Or.inl hj
  intro β e he s choice b s' hs hex
  have hex : wordExec cc e s = some (b, s') := hex
  cases e with
  | load l =>
    simp only [wordExec, Option.ite_none_right_eq_some, Option.some.injEq, Prod.mk.injEq] at hex
    rwa [← hex.2.2]
  | cas l old new =>
    obtain ⟨f, rfl⟩ := he
    simp only [wordExec] at hex
    split at hex
    · cases hex
    · next hl =>
      rw [not_not] at hl
      split at hex
      · cases hex
        intro j hj
        rw [bitsOf_update hl] at hj
        rcases hj with hj | hj
        · exact hs j hj.1
        · exact Or.inr hj.1
      · cases hex
        exact hs

/-! ## The chunkmap -/

theorem bfSetMask_word (hl : l.Valid cc) :
    BitEnds cc panics (bfSetMask l mask) w fun _ w' =>
      w' = Function.update w l (w l ||| mask) := by
  simp only [bfSetMask, Prog.bind_eq, Prog.pure_eq, Prog.perform_bind]
  apply BitEnds.load hl
  apply Ends.loop_once
  split
  · next h =>
    apply Ends.ret
    apply Ends.ret
    rw [h, Function.update_eq_self]
  · apply BitEnds.cas hl rfl
    exact Ends.ret (Ends.ret rfl)

theorem bfTryClearMask_word (hl : l.Valid cc) :
    BitEnds cc panics (bfTryClearMask l mask) w fun r w' =>
      w' = if r then Function.update w l (w l &&& ~~~mask) else w := by
  simp only [bfTryClearMask, Prog.bind_eq, Prog.pure_eq, Prog.perform_bind]
  apply BitEnds.load hl
  apply Ends.loop_once
  split
  · exact Ends.ret (Ends.ret rfl)
  · apply BitEnds.cas hl rfl
    exact Ends.ret (Ends.ret rfl)

theorem bitsOf_update_map {f : ℕ} {v : BitVec 64} :
    bitsOf cc (Function.update w (.map f) v) = bitsOf cc w := by
  ext j
  simp [bitsOf, Function.update_of_ne]

theorem mem_marked_update {c f : ℕ} {v : BitVec 64} :
    c ∈ marked (Function.update w (.map f) v) ↔
      if c / 64 = f then v.getLsbD (c % 64) = true else c ∈ marked w := by
  by_cases h : c / 64 = f
  · subst h
    simp [marked]
  · simp [marked, h]

namespace Bitmap

variable {c idx n : ℕ}

theorem marked_set :
    marked (Function.update w (.map (c / fieldBits))
      (w (.map (c / fieldBits)) ||| fieldMask (c % fieldBits) 1)) = insert c (marked w) := by
  ext c'
  rw [fieldBits_eq, mem_marked_update, Set.mem_insert_iff, BitVec.getLsbD_or,
    fieldMask_getLsbD (by omega), Bool.or_eq_true, decide_eq_true_eq]
  split
  · next h =>
    rw [← h]
    have heq : c % 64 ≤ c' % 64 ∧ c' % 64 < c % 64 + 1 ↔ c' = c := by omega
    rw [heq, or_comm]
    exact Iff.rfl
  · next h =>
    have hne : c' ≠ c := fun heq => h (by rw [heq])
    simp [hne]

theorem marked_clear :
    marked w \ {c} ⊆ marked (Function.update w (.map (c / fieldBits))
      (w (.map (c / fieldBits)) &&& ~~~fieldMask (c % fieldBits) 1)) := by
  rintro c' ⟨hm, hne⟩
  have hne : c' ≠ c := hne
  rw [fieldBits_eq, mem_marked_update]
  split
  · next h =>
    have hlt : c' % 64 < 64 := Nat.mod_lt _ (by omega)
    rw [BitVec.getLsbD_and, BitVec.getLsbD_not, fieldMask_getLsbD (by omega), Bool.and_eq_true,
      ← h]
    refine ⟨hm, ?_⟩
    simp only [hlt, decide_true, Bool.true_and, Bool.not_eq_true', decide_eq_false_iff_not]
    omega
  · exact hm

/-- A chunk is marked; in the chunkmap of fewer chunks this panics. -/
theorem chunkmapSet_marks :
    BitEnds cc True (chunkmapSet c) w fun _ w' =>
      bitsOf cc w' = bitsOf cc w ∧ marked w' = insert c (marked w) := by
  apply Ends.bind
  by_cases hl : (Loc.map (c / fieldBits)).Valid cc
  · apply (bfSetMask_word hl).mono
    rintro _ _ rfl
    apply Ends.ret
    exact ⟨bitsOf_update_map, marked_set⟩
  · exact BitEnds.load_panics hl

/-- The mark of a chunk is dropped only if the chunk has no set bit. -/
theorem chunkmapClearIfEmpty_covers (hcc : cc ≤ 512) (h : Covered cc w) :
    BitEnds cc True (chunkmapClearIfEmpty c) w fun _ w' => Covered cc w' := by
  simp only [chunkmapClearIfEmpty, Prog.bind_eq, Prog.pure_eq]
  apply Ends.bind
  by_cases hc : c < cc
  · apply (BChunk.isAllClear_ends hc).mono
    rintro r w₁ ⟨rfl, hclear⟩
    cases r with
    | false => exact Ends.ret h
    | true =>
      apply Ends.bind
      apply (bfTryClearMask_word (valid_map hcc hc)).mono
      intro r w₂ hw₂
      subst hw₂
      cases r with
      | false => exact Ends.ret h
      | true =>
        have hcov : Covered cc (Function.update w₁ (.map (c / fieldBits))
            (w₁ (.map (c / fieldBits)) &&& ~~~fieldMask (c % fieldBits) 1)) := by
          intro j hj
          rw [bitsOf_update_map] at hj
          exact marked_clear ⟨h j hj, hclear rfl j hj⟩
        apply Ends.bind
        apply (BChunk.isAllClear_ends hc).mono
        rintro r w₂ ⟨rfl, -⟩
        cases r with
        | true => exact Ends.ret hcov
        | false =>
          apply chunkmapSet_marks.mono
          rintro _ w₃ ⟨hbits, hmarks⟩
          apply hcov.mono hbits.le
          rw [hmarks]
          exact Set.subset_insert _ _
  · exact BitEnds.load_panics fun hl => hc hl.1

end Bitmap

/-! ## Each call keeps the chunks covered -/

namespace BChunk

variable {c cbit n : ℕ}

/-- Setting a run comes to an end, though it may come to a field that does not exist. -/
theorem setN_ends_or_panics : BitEnds cc True (setN (.chunk c) cbit n) w fun _ _ => True := by
  refine Ends.loop_measure (fun b => b.2) (fun _ _ => True) ?_ trivial
  rintro ⟨bit, remaining⟩ w₁ -
  simp only [Prog.bind_eq, Prog.pure_eq]
  split
  · exact Ends.ret (Ends.ret trivial)
  · next hrem =>
    have hpos := here_pos bit hrem
    have hlt : remaining - here bit remaining < remaining := by omega
    apply Ends.bind
    by_cases hl : (Loc.chunk c (bit / fieldBits)).Valid cc
    · apply (bfSetMask_ends hl).mono
      intro _ w₂ _
      exact Ends.ret ⟨trivial, hlt⟩
    · exact BitEnds.load_panics hl

/-- What the clearing loop has cleared it remembers, whatever the range. -/
theorem clearFields_back :
    BitEnds cc True (clearFields (.chunk c) cbit n) w fun r w' =>
      (∀ p ∈ r.2, (Loc.chunk c p.1).Valid cc) ∧ bitsOf cc w' ∪ listBits c r.2 = bitsOf cc w := by
  refine Ends.loop_measure (fun b => b.2.1) (fun b w' =>
    (∀ p ∈ b.2.2, (Loc.chunk c p.1).Valid cc) ∧ bitsOf cc w' ∪ listBits c b.2.2 = bitsOf cc w) ?_
    ⟨fun p hp => (by cases hp), by rw [listBits_nil, Set.union_empty]⟩
  rintro ⟨bit, remaining, cleared⟩ w₁ ⟨hvalid, hback⟩
  simp only [Prog.bind_eq, Prog.pure_eq] at hvalid hback ⊢
  split
  · exact Ends.ret (Ends.ret ⟨hvalid, hback⟩)
  · next hrem =>
    have hpos := here_pos bit hrem
    have hlt : remaining - here bit remaining < remaining := by omega
    apply Ends.bind
    by_cases hl : (Loc.chunk c (bit / fieldBits)).Valid cc
    · apply (bfTryClearMask_ends hl).mono
      rintro r w₂ ⟨hr, hbits⟩
      cases r with
      | false =>
        have hbits : bitsOf cc w₂ = bitsOf cc w₁ := hbits
        exact Ends.ret (Ends.ret ⟨hvalid, by rw [hbits, hback]⟩)
      | true =>
        have hset := (maskBits_subset_iff hl).mpr (hr.mp rfl)
        have hbits : bitsOf cc w₂ = bitsOf cc w₁ \ maskBits c (bit / fieldBits)
          (fieldMask (bit % fieldBits) (here bit remaining)) := hbits
        apply Ends.ret
        refine ⟨⟨fun p hp => ?_, ?_⟩, hlt⟩
        · rcases List.mem_append.mp hp with hp | hp
          · exact hvalid p hp
          · rw [List.mem_singleton.mp hp]
            exact hl
        · rw [listBits_append, listBits_cons, listBits_nil, Set.union_empty, hbits,
            Set.union_comm (listBits c cleared), ← Set.union_assoc,
            Set.sdiff_union_of_subset hset]
          exact hback
    · exact BitEnds.load_panics hl

/-- A claim within a chunk, of whatever range, sets no bit. -/
theorem tryClearN_shrinks :
    BitEnds cc True (tryClearN (.chunk c) cbit n) w fun _ w' => bitsOf cc w' ⊆ bitsOf cc w := by
  simp only [tryClearN, Prog.bind_eq, Prog.pure_eq]
  split
  · by_cases hl : (Loc.chunk c (cbit / fieldBits)).Valid cc
    · apply (bfTryClearMask_ends hl).mono
      rintro r w' ⟨-, hbits⟩
      cases r with
      | false => exact hbits.le
      | true => exact hbits.le.trans Set.sdiff_subset
    · exact BitEnds.load_panics hl
  · apply Ends.bind
    apply clearFields_back.mono
    rintro ⟨ok, cleared⟩ w₁ ⟨hvalid, hback⟩
    cases ok with
    | true => exact Ends.ret (hback ▸ Set.subset_union_left)
    | false =>
      apply Ends.bind
      apply (rollBack_ends hvalid).mono
      intro _ w₂ hw₂
      apply Ends.ret
      rw [hw₂]
      exact hback.le

end BChunk

namespace Bitmap

variable {c idx n tseq : ℕ}

/-- Bits set in chunk `c` are covered once the chunk is marked. -/
theorem chunkmapSet_covers {w₀ : Words} (h : Covered cc w₀)
    (hbits : ∀ j ∈ bitsOf cc w, j ∈ bitsOf cc w₀ ∨ j / 512 = c) (hmarks : marked w = marked w₀) :
    BitEnds cc True (chunkmapSet c) w fun _ w' => Covered cc w' := by
  apply chunkmapSet_marks.mono
  rintro _ w' ⟨hbits', hmarks'⟩ j hj
  rw [hbits'] at hj
  rw [hmarks', hmarks]
  rcases hbits j hj with hj | hj
  · exact Set.mem_insert_of_mem _ (h j hj)
  · rw [hj]
    exact Set.mem_insert _ _

theorem onOne_load (c f : ℕ) : BitAct.OnOne c (.load (.chunk c f)) := ⟨f, rfl⟩

theorem onOne_cas (c f : ℕ) (old new : BitVec 64) :
    BitAct.OnOne c (.cas (.chunk c f) old new) := ⟨f, rfl⟩

theorem setN_covers (h : Covered cc w) :
    BitEnds cc True (setN idx n) w fun _ w' => Covered cc w' := by
  simp only [setN, Prog.bind_eq, Prog.pure_eq]
  apply Ends.bind
  apply (marked_of_onChunk (BChunk.isClearN_every (onChunk_load _) _ _)
    (bits_of_onOne (BChunk.isClearN_every (onOne_load _) _ _)
      BChunk.isClearN_ends_or_panics)).mono
  rintro beforeClear w₁ ⟨⟨-, hbits₁⟩, hmarks₁⟩
  apply Ends.bind
  apply (marked_of_onChunk (BChunk.setN_every (onChunk_load _) (onChunk_cas _) _ _)
    (bits_of_onOne (BChunk.setN_every (onOne_load _) (onOne_cas _) _ _)
      BChunk.setN_ends_or_panics)).mono
  rintro _ w₂ ⟨⟨-, hbits₂⟩, hmarks₂⟩
  apply Ends.bind
  have hbits : ∀ j ∈ bitsOf cc w₂, j ∈ bitsOf cc w ∨ j / 512 = idx / chunkBits :=
    fun j hj => (hbits₂ j hj).elim (hbits₁ j) Or.inr
  apply (chunkmapSet_covers h hbits (hmarks₂.trans hmarks₁)).mono
  intro _ w₃ hw₃
  exact Ends.ret hw₃

theorem unsafeSetN_covers (h : Covered cc w) :
    BitEnds cc True (unsafeSetN idx n) w fun _ w' => Covered cc w' := by
  refine Ends.loop_measure (fun b => b.2) (fun _ w' => Covered cc w') ?_ h
  rintro ⟨bit, remaining⟩ w₁ h₁
  simp only [Prog.bind_eq, Prog.pure_eq]
  split
  · exact Ends.ret (Ends.ret h₁)
  · next hrem =>
    have hpos := here_pos bit hrem
    have hlt : remaining - here bit remaining < remaining := by omega
    apply Ends.bind
    apply (marked_of_onChunk (BChunk.setN_every (onChunk_load _) (onChunk_cas _) _ _)
      (bits_of_onOne (BChunk.setN_every (onOne_load _) (onOne_cas _) _ _)
        BChunk.setN_ends_or_panics)).mono
    rintro _ w₂ ⟨⟨-, hbits₂⟩, hmarks₂⟩
    apply Ends.bind
    apply (chunkmapSet_covers h₁ hbits₂ hmarks₂).mono
    intro _ w₃ hw₃
    exact Ends.ret ⟨hw₃, hlt⟩

theorem clearN_covers (hcc : cc ≤ 512) (h : Covered cc w) :
    BitEnds cc True (clearN idx n) w fun _ w' => Covered cc w' := by
  simp only [clearN, Prog.bind_eq, Prog.pure_eq]
  apply Ends.bind
  apply (marked_of_onChunk (BChunk.tryClearN_every (onChunk_load _) (onChunk_cas _) _ _)
    BChunk.tryClearN_shrinks).mono
  rintro r w₁ ⟨hbits, hmarks⟩
  have h₁ : Covered cc w₁ := h.mono hbits hmarks.symm.le
  cases r with
  | false => exact Ends.ret h₁
  | true =>
    apply Ends.bind
    apply (chunkmapClearIfEmpty_covers hcc h₁).mono
    intro _ w₂ hw₂
    exact Ends.ret hw₂

/-! ## The search for a run -/

theorem isMarked_ends (hcc : cc ≤ 512) (hc : c < cc) :
    BitEnds cc panics (BChunk.isSet .map c) w fun r w' => w' = w ∧ (r = true ↔ c ∈ marked w) := by
  apply BitEnds.load (valid_map hcc hc)
  apply Ends.ret
  refine ⟨rfl, ?_⟩
  rw [beq_iff_eq, and_eq_iff]
  constructor
  · intro h
    apply h
    rw [fieldMask_getLsbD (by rw [fieldBits_eq]; omega), fieldBits_eq]
    simp
  · intro h i hi
    rw [fieldBits_eq, fieldMask_getLsbD (by omega), decide_eq_true_eq] at hi
    rw [fieldBits_eq, show i = c % 64 by omega]
    exact h

theorem findInChunk_covers (hcc : cc ≤ 512) (hc : c < cc) (hn : 0 < n) (h : Covered cc w) :
    BitEnds cc True (findInChunk n c) w fun _ w' => Covered cc w' := by
  simp only [findInChunk, Prog.bind_eq, Prog.pure_eq]
  apply Ends.bind
  apply (isMarked_ends hcc hc).mono
  rintro r w₀ ⟨rfl, -⟩
  cases r with
  | false => exact Ends.ret h
  | true =>
    apply Ends.bind
    apply (marked_of_onChunk (BChunk.findAndClearN_every (onChunk_load _) (onChunk_cas _) _)
      (BChunk.findAndClearN_ends hc hn)).mono
    rintro r w₁ ⟨hr, hmarks⟩
    cases r with
    | none => exact Ends.ret (h.mono (by rw [hr.1]) hmarks.symm.le)
    | some b =>
      have h₁ : Covered cc w₁ := by
        apply h.mono _ hmarks.symm.le
        rw [hr.2.2]
        exact Set.sdiff_subset
      apply Ends.bind
      apply (chunkmapClearIfEmpty_covers hcc h₁).mono
      intro _ w₂ hw₂
      exact Ends.ret hw₂

/-- A chunk in which no run is found has none, also when it is skipped. -/
theorem findInChunk_none (hcc : cc ≤ 512) (hc : c < cc) (hn : 0 < n) (h : Covered cc w) :
    BitEnds cc panics (findInChunk n c) w fun r _ => r = none → BChunk.NoRun cc w c n := by
  simp only [findInChunk, Prog.bind_eq, Prog.pure_eq]
  apply Ends.bind
  apply (isMarked_ends hcc hc).mono
  rintro r w₀ ⟨rfl, hmark⟩
  cases r with
  | false =>
    -- the first bit of a run would be in a chunk that is not marked
    apply Ends.ret
    intro _ b hb hset
    have hfirst : c * 512 + b ∈ bitsOf cc w₀ := hset ⟨le_rfl, by omega⟩
    have hmem := h _ hfirst
    rw [show (c * 512 + b) / 512 = c by omega] at hmem
    cases hmark.mpr hmem
  | true =>
    apply Ends.bind
    apply (BChunk.findAndClearN_ends hc hn).mono
    intro r w₁ hr
    cases r with
    | none => exact Ends.ret fun _ => hr.2
    | some b =>
      apply Ends.bind
      apply (chunkmapClearIfEmpty_ends hcc hc).mono
      intro _ w₂ _
      exact Ends.ret fun hnone => by cases hnone

theorem rangeTryClear_covers (hcc : cc ≤ 512) (hn : idx + n ≤ cc * 512)
    (hset : bitRange idx n ⊆ bitsOf cc w) (h : Covered cc w) :
    BitEnds cc True (rangeTryClear cc idx n) w fun r w' => r = true ∧ Covered cc w' := by
  simp only [rangeTryClear, Prog.bind_eq, Prog.pure_eq]
  apply Ends.bind
  apply (marked_of_onChunk (clearChunks_every (fun _ => onChunk_load _) (fun _ => onChunk_cas _) _ _)
    (clearChunks_ends hn)).mono
  rintro ⟨ok, done⟩ w₁ ⟨⟨-, -, hiff, hdone⟩, hmarks⟩
  obtain rfl : ok = true := hiff.mpr hset
  have hw₁ := hdone rfl
  have h₁ : Covered cc w₁ := by
    apply h.mono _ hmarks.symm.le
    rw [hw₁]
    exact Set.sdiff_subset
  apply Ends.bind
  refine Ends.forEach (fun _ w' => Covered cc w') ?_ (fun _ h => Ends.ret ⟨rfl, h⟩) h₁
  intro off l w₂ h₂
  split
  · exact chunkmapClearIfEmpty_covers hcc h₂
  · exact Ends.ret h₂

theorem tryFindAndClearNHuge_covers (hcc : cc ≤ 512) (h : Covered cc w) :
    BitEnds cc True (tryFindAndClearNHuge cc n) w fun _ w' => Covered cc w' := by
  refine Ends.loop_measure (fun start => cc * 512 + 1 - start) (fun _ w' => Covered cc w') ?_ h
  intro start w₁ h₁
  simp only [Prog.bind_eq, Prog.pure_eq]
  split
  · next hle =>
    rw [chunkBits_eq] at hle
    apply Ends.bind
    apply (rangeIsSet_ends hle).mono
    rintro r w₂ ⟨rfl, hr⟩
    cases r with
    | false =>
      apply Ends.ret
      have hlt : cc * 512 + 1 - (start + 1) < cc * 512 + 1 - start := by omega
      exact ⟨h₁, hlt⟩
    | true =>
      apply Ends.bind
      apply (rangeTryClear_covers hcc hle (hr.mp rfl) h₁).mono
      rintro r w₃ ⟨rfl, h₃⟩
      exact Ends.ret (Ends.ret h₃)
  · exact Ends.ret (Ends.ret h₁)

theorem tryFindAndClearN_covers (hcc : cc ≤ 512) (h : Covered cc w) :
    BitEnds cc True (tryFindAndClearN cc n tseq) w fun _ w' => Covered cc w' := by
  unfold tryFindAndClearN
  split
  · exact Ends.ret h
  · next hn =>
    split
    · by_cases hcc0 : cc = 0
      · subst hcc0
        exact Ends.ret h
      · refine Ends.firstSome (fun _ w' => Covered cc w') ?_ (fun _ h => h) h
        intro k l w₁ h₁
        have hc : (tseq % cc + k) % cc < cc := Nat.mod_lt _ (Nat.pos_of_ne_zero hcc0)
        apply (findInChunk_covers hcc hc (Nat.pos_of_ne_zero hn) h₁).mono
        intro r w₂ h₂
        cases r <;> exact h₂
    · exact tryFindAndClearNHuge_covers hcc h

/-- The chunks visited from `start` on, in a circle, are all chunks. -/
theorem exists_rotated {start : ℕ} (hstart : start < cc) (hc : c < cc) :
    ∃ k < cc, (start + k) % cc = c := by
  by_cases hle : start ≤ c
  · refine ⟨c - start, by omega, ?_⟩
    rw [Nat.add_sub_cancel' hle, Nat.mod_eq_of_lt hc]
  · refine ⟨c + cc - start, by omega, ?_⟩
    have hsum : start + (c + cc - start) = c + cc := by omega
    rw [hsum, Nat.add_mod_right, Nat.mod_eq_of_lt hc]

/-- A search within chunks that finds nothing has visited every chunk. -/
theorem tryFindAndClearN_none (hcc : cc ≤ 512) (hn : n ≤ 512) (h : Covered cc w) :
    BitEnds cc panics (tryFindAndClearN cc n tseq) w fun r _ =>
      r = none → 0 < n → ∀ c < cc, BChunk.NoRun cc w c n := by
  unfold tryFindAndClearN
  split
  · next hn0 => exact Ends.ret fun _ hpos => (by omega)
  · next hn0 =>
    have hpos : 0 < n := Nat.pos_of_ne_zero hn0
    rw [if_pos (by rwa [chunkBits_eq])]
    by_cases hcc0 : cc = 0
    · subst hcc0
      exact Ends.ret fun _ _ c hc => (by omega)
    · have hcpos : 0 < cc := Nat.pos_of_ne_zero hcc0
      refine Ends.firstSome (fun l w' => w' = w ∧
        ∀ k < cc, k ∈ l ∨ BChunk.NoRun cc w ((tseq % cc + k) % cc) n) ?_ ?_
        ⟨rfl, fun k hk => Or.inl (List.mem_range.mpr hk)⟩
      · rintro k l w₁ ⟨rfl, hnone⟩
        have hc : (tseq % cc + k) % cc < cc := Nat.mod_lt _ hcpos
        apply ((findInChunk_ends hcc hc hpos).and (findInChunk_none hcc hc hpos h)).mono
        rintro r w₂ ⟨hr, hr'⟩
        cases r with
        | some idx => exact fun hnone => by cases hnone
        | none =>
          refine ⟨hr, fun k' hk' => ?_⟩
          rcases hnone k' hk' with hmem | hrun
          · rcases List.mem_cons.mp hmem with rfl | hmem
            · exact Or.inr (hr' rfl)
            · exact Or.inl hmem
          · exact Or.inr hrun
      · rintro w₁ ⟨rfl, hnone⟩ - - c hc
        obtain ⟨k, hk, rfl⟩ := exists_rotated (Nat.mod_lt tseq hcpos) hc
        exact (hnone k hk).resolve_left (by simp)

end Bitmap

/-! ## Sequences of calls -/

/-- The events of a bitmap, and the callback of `try_find_and_claim`. -/
inductive ClaimAct : Type → Type
  | load (l : Loc) : ClaimAct (BitVec 64)
  | cas (l : Loc) (old new : BitVec 64) : ClaimAct (Option (BitVec 64))
  /-- `claim(idx)`. -/
  | claim (idx : ℕ) : ClaimAct Bool

/-- The events of the bitmap. -/
def ClaimAct.bit {β : Type} : BitAct β → ClaimAct β
  | .load l => .load l
  | .cas l old new => .cas l old new

/-- A bitmap of `cc` chunks used by one thread. The callback may give any answer. -/
def claimMachine (cc : ℕ) : Machine ClaimAct Unit Words where
  exec
    | _, .load l, w, _ => wordExec cc (.load l) w
    | _, .cas l old new, w, _ => wordExec cc (.cas l old new) w
    | _, .claim _, w, choice => some (decide (choice ≠ 0), w)

/-- The calls on a bitmap. -/
inductive SearchOp
  | setN (idx n : ℕ) | unsafeSetN (idx n : ℕ) | clearN (idx n : ℕ) | find (n tseq : ℕ)
  | claim (tseq : ℕ)
  deriving DecidableEq

/-- What the calls return. -/
abbrev SearchOp.Res : SearchOp → Type
  | .setN _ _ | .clearN _ _ => Bool
  | .unsafeSetN _ _ => Unit
  | .find _ _ | .claim _ => Option ℕ

/-- What the calls run. -/
def SearchOp.prog (cc : ℕ) : (o : SearchOp) → Prog ClaimAct o.Res
  | .setN idx n => (Bitmap.setN idx n).hoist ClaimAct.bit
  | .unsafeSetN idx n => (Bitmap.unsafeSetN idx n).hoist ClaimAct.bit
  | .clearN idx n => (Bitmap.clearN idx n).hoist ClaimAct.bit
  | .find n tseq => (Bitmap.tryFindAndClearN cc n tseq).hoist ClaimAct.bit
  | .claim tseq => Bitmap.tryFindAndClaim ClaimAct.bit (fun idx => perform (.claim idx)) cc tseq

/-- Calls on a bitmap of `cc` chunks, one after the other. -/
def searchSystem (cc : ℕ) : System ClaimAct Unit SearchOp SearchOp.Res Words where
  toMachine := claimMachine cc
  prog _ o := o.prog cc
  start _ _ w := some w
  finish _ _ _ w := w

/-- What has been shown of a bitmap program holds of it with a callback around. -/
theorem BitEnds.hoist {p : Prog BitAct α} {Q : α → Words → Prop} (h : BitEnds cc panics p w Q) :
    Ends (claimMachine cc) () panics (p.hoist ClaimAct.bit) w Q := by
  have hexec : ∀ {β : Type} (e : BitAct β) (s : Words) (choice : ℕ),
      (claimMachine cc).exec () (ClaimAct.bit e) s choice =
        ((wordMachine cc).exec () e (id s) choice).map fun r => (r.1, r.2) := by
    intro β e s choice
    cases e <;> exact Option.map_id'.symm
  apply (Ends.hoist (N := claimMachine cc) ClaimAct.bit id (fun w _ => w) (fun _ _ _ => rfl)
    (fun _ _ => rfl) (fun _ => rfl) hexec h).mono
  exact fun _ _ h => h.1

/-- A bit whose claim succeeds is cleared. -/
theorem claimBit_covers {c b : ℕ} (hcc : cc ≤ 512) (hc : c < cc) (hb : b < 512)
    (h : Covered cc w) :
    Ends (claimMachine cc) () True (Bitmap.claimBit ClaimAct.bit (fun idx => perform (.claim idx)) c b) w
      fun _ w' => Covered cc w' := by
  simp only [Bitmap.claimBit, Prog.bind_eq, Prog.pure_eq, Prog.perform_bind]
  apply Ends.bind
  apply (BChunk.isSet_ends hc hb).hoist.mono
  rintro r w₁ ⟨rfl, -⟩
  cases r with
  | false => exact Ends.ret h
  | true =>
    apply Ends.act (fun choice hnone => (by cases hnone))
    intro choice r w₂ hex
    cases hex
    split
    · apply Ends.bind
      apply (Bitmap.clearN_covers hcc h).hoist.mono
      intro _ w₃ hw₃
      exact Ends.ret hw₃
    · exact Ends.ret h

theorem tryFindAndClaim_covers {tseq : ℕ} (hcc : cc ≤ 512) (h : Covered cc w) :
    Ends (claimMachine cc) () True
      (Bitmap.tryFindAndClaim ClaimAct.bit (fun idx => perform (.claim idx)) cc tseq) w
      fun _ w' => Covered cc w' := by
  by_cases hcc0 : cc = 0
  · subst hcc0
    exact Ends.ret h
  refine Ends.firstSome (fun _ w' => Covered cc w') ?_ (fun _ h => h) h
  intro k l w₁ h₁
  have hc : (tseq % cc + k) % cc < cc := Nat.mod_lt _ (Nat.pos_of_ne_zero hcc0)
  simp only [Bitmap.claimInChunk, Prog.bind_eq, Prog.pure_eq]
  apply Ends.bind
  apply (Bitmap.isMarked_ends hcc hc).hoist.mono
  rintro r w₂ ⟨rfl, -⟩
  cases r with
  | false => exact Ends.ret h₁
  | true =>
    rw [if_pos rfl]
    refine Ends.firstSome (fun l w' => (∀ b ∈ l, b < 512) ∧ Covered cc w') ?_ (fun _ h => h.2)
      ⟨fun b hb => (by simpa using hb), h₁⟩
    rintro b l w₃ ⟨hl, h₃⟩
    apply (claimBit_covers hcc hc (hl b List.mem_cons_self) h₃).mono
    intro r w₄ h₄
    cases r with
    | some idx => exact h₄
    | none => exact ⟨fun b hb => hl b (List.mem_cons_of_mem _ hb), h₄⟩

/-- Every call keeps the chunks covered. -/
theorem SearchOp.prog_covers (hcc : cc ≤ 512) (h : Covered cc w) (o : SearchOp) :
    Ends (claimMachine cc) () True (o.prog cc) w fun _ w' => Covered cc w' := by
  cases o with
  | setN idx n => exact (Bitmap.setN_covers h).hoist
  | unsafeSetN idx n => exact (Bitmap.unsafeSetN_covers h).hoist
  | clearN idx n => exact (Bitmap.clearN_covers hcc h).hoist
  | find n tseq => exact (Bitmap.tryFindAndClearN_covers hcc h).hoist
  | claim tseq => exact tryFindAndClaim_covers hcc h

/-- In every bitmap that calls have made out of the empty one, the chunkmap marks every chunk that
has a set bit. -/
theorem searchSystem_covered (hcc : cc ≤ 512)
    {c : Config ClaimAct Unit SearchOp SearchOp.Res Words}
    (hc : (searchSystem cc).Reachable (· = fun _ => 0#64) System.anyMove c) (hq : c.Quiescent) :
    Covered cc c.mem := by
  have hrun : Serial (searchSystem cc) (claimMachine cc) True (Covered cc)
      (fun _ _ _ w' => Covered cc w') c := by
    apply System.Reachable.serial (fun _ _ _ _ _ _ _ _ _ h => h) _ _ _ hc
    · rintro s rfl
      exact covered_zero
    · intro o s s' hs hstart
      cases hstart
      exact SearchOp.prog_covers hcc hs o
    · exact fun _ _ _ _ _ _ _ h => h
  exact hrun.idle (hq ())

/-- **The search is sound and complete.** In a bitmap that calls have made out of the empty one,
`try_find_and_clear_n` comes to an end. If it returns an index, the bits of the run were all set and
exactly these have been cleared; if it returns nothing, the bitmap is as it was and has no run of
`n` set bits, within a chunk for `n ≤ 512` and anywhere for larger `n`. -/
theorem bitmap_search (hcc : cc ≤ 512) {c : Config ClaimAct Unit SearchOp SearchOp.Res Words}
    (hc : (searchSystem cc).Reachable (· = fun _ => 0#64) System.anyMove c) (hq : c.Quiescent)
    {n : ℕ} (hn : 1 ≤ n) (tseq : ℕ) :
    BitEnds cc False (Bitmap.tryFindAndClearN cc n tseq) c.mem fun r w' =>
      match r with
      | some i => bitRange i n ⊆ bitsOf cc c.mem ∧ bitsOf cc w' = bitsOf cc c.mem \ bitRange i n
      | none => w' = c.mem ∧
        (n ≤ 512 → ∀ i, i % 512 + n ≤ 512 → ¬ bitRange i n ⊆ bitsOf cc c.mem) ∧
        (512 < n → ∀ i, ¬ bitRange i n ⊆ bitsOf cc c.mem) := by
  have hcov := searchSystem_covered hcc hc hq
  by_cases hle : n ≤ 512
  · apply ((Bitmap.tryFindAndClearN_ends hcc).and (Bitmap.tryFindAndClearN_none hcc hle hcov)).mono
    rintro r w' ⟨hr, hnone⟩
    cases r with
    | some i => exact hr.2.2
    | none =>
      refine ⟨hr.1, fun _ i hi hset => ?_, hr.2⟩
      -- the chunk of the run is one of the bitmap, as its first bit is set
      have hfirst : i ∈ bitsOf cc c.mem := hset ⟨le_rfl, by omega⟩
      apply hnone rfl hn (i / 512) hfirst.1 (i % 512) hi
      rwa [Nat.div_add_mod']
  · apply (Bitmap.tryFindAndClearN_ends hcc).mono
    intro r w' hr
    cases r with
    | some i => exact hr.2.2
    | none => exact ⟨hr.1, fun h => (hle h).elim, hr.2⟩

/-- After `set_n(3, 5)` on the empty bitmap of one chunk, the search for two bits finds two. -/
theorem bitmap_search_setN :
    ∃ w : Words, bitRange 3 5 ⊆ bitsOf 1 w ∧
      BitEnds 1 False (Bitmap.tryFindAndClearN 1 2 0) w fun r w' =>
        match r with
        | some i => bitRange i 2 ⊆ bitsOf 1 w ∧ bitsOf 1 w' = bitsOf 1 w \ bitRange i 2
        | none => w' = w ∧ (2 ≤ 512 → ∀ i, i % 512 + 2 ≤ 512 → ¬ bitRange i 2 ⊆ bitsOf 1 w) ∧
          (512 < 2 → ∀ i, ¬ bitRange i 2 ⊆ bitsOf 1 w) := by
  obtain ⟨c, hc, htest⟩ : ∃ c : Config ClaimAct Unit SearchOp SearchOp.Res Words,
      (searchSystem 1).run (Move.call () (.setN 3 5) 11 0) ⟨fun _ => 0#64, fun _ => none⟩ =
        some c ∧
      ((c.thread ()).isNone && (c.mem (.chunk 0 0) == 248#64)) = true :=
    System.exists_run (by decide +kernel)
  rw [Bool.and_eq_true, Option.isNone_iff_eq_none, beq_iff_eq] at htest
  have hset : bitRange 3 5 ⊆ bitsOf 1 c.mem := by
    have hmask : fieldMask 3 5 = 248#64 := by decide
    rw [← maskBits_mask (c := 0) (f := 0) (by omega) (by omega : 3 + 5 ≤ 64),
      maskBits_subset_iff ⟨by omega, by decide⟩, htest.2, hmask]
    rfl
  have hreach : (searchSystem 1).Reachable (· = fun _ => 0#64) System.anyMove c := by
    apply System.reachable_of_run _ hc
    rfl
  exact ⟨c.mem, hset, bitmap_search (by omega) hreach (fun _ => htest.1) (by omega) 0⟩

end MimallocRs
