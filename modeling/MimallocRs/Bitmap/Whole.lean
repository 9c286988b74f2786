import MimallocRs.Bitmap.Alone

/-!
# Whole calls on a bitmap, across its chunks

`set_n` and `clear_n` work on a range that lies in one chunk; on a range that leaves its chunk
`set_n` panics (`Bitmap.setN_panics`). The search finds a run of at most 512 bits within a chunk,
and a longer run wherever it lies (`Bitmap.tryFindAndClearN_ends`).
-/

namespace MimallocRs

open Interleave

variable {cc : ℕ} {panics : Prop} {w : Words}

namespace Bitmap

variable {c idx n : ℕ}

/-- The word of the chunkmap for a chunk exists: a bitmap has at most 512 chunks. -/
theorem valid_map (hcc : cc ≤ 512) (hc : c < cc) : (Loc.map (c / fieldBits)).Valid cc := by
  rw [Loc.Valid, fieldBits_eq, chunkFields_eq]
  omega

theorem chunkmapSet_ends (hcc : cc ≤ 512) (hc : c < cc) :
    BitEnds cc panics (chunkmapSet c) w fun _ w' => bitsOf cc w' = bitsOf cc w := by
  apply Ends.bind
  apply (bfSetMask_ends (valid_map hcc hc)).mono
  intro _ w' hw'
  apply Ends.ret
  rw [hw', Loc.bits, Set.union_empty]

theorem chunkmapClearIfEmpty_ends (hcc : cc ≤ 512) (hc : c < cc) :
    BitEnds cc panics (chunkmapClearIfEmpty c) w fun _ w' => bitsOf cc w' = bitsOf cc w := by
  simp only [chunkmapClearIfEmpty, Prog.bind_eq, Prog.pure_eq]
  apply Ends.bind
  apply (BChunk.isAllClear_ends hc).mono
  rintro r _ ⟨rfl, -⟩
  cases r with
  | false => exact Ends.ret rfl
  | true =>
    apply Ends.bind
    apply (bfTryClearMask_ends (valid_map hcc hc)).mono
    rintro r w₁ ⟨-, hw₁⟩
    rw [Loc.bits, Set.sdiff_empty, ite_self] at hw₁
    cases r with
    | false => exact Ends.ret hw₁
    | true =>
      apply Ends.bind
      apply (BChunk.isAllClear_ends hc).mono
      rintro r _ ⟨rfl, -⟩
      cases r with
      | true => exact Ends.ret hw₁
      | false =>
        apply (chunkmapSet_ends hcc hc).mono
        intro _ w₂ hw₂
        rw [hw₂, hw₁]

/-- The range lies in one chunk of a bitmap of `cc` chunks. -/
def InChunk (cc idx n : ℕ) : Prop := idx / 512 < cc ∧ idx % 512 + n ≤ 512

/-- `set_n` sets a range that lies in one chunk. -/
theorem setN_ends (hcc : cc ≤ 512) (hin : InChunk cc idx n) :
    BitEnds cc panics (setN idx n) w fun _ w' =>
      bitsOf cc w' = bitsOf cc w ∪ bitRange idx n := by
  simp only [setN, Prog.bind_eq, Prog.pure_eq]
  apply Ends.bind
  apply (BChunk.isClearN_ends hin.1 hin.2).mono
  rintro beforeClear _ ⟨rfl, -⟩
  apply Ends.bind
  apply (BChunk.setN_ends hin.1 hin.2).mono
  intro _ w₁ hw₁
  apply Ends.bind
  apply (chunkmapSet_ends hcc hin.1).mono
  intro _ w₂ hw₂
  apply Ends.ret
  rw [hw₂, hw₁, Nat.div_add_mod']

/-- `set_n` panics on a range that leaves its chunk. -/
theorem setN_panics (hn : 512 < idx % 512 + n) :
    BitEnds cc True (setN idx n) w fun _ _ => False := by
  simp only [setN, Prog.bind_eq, Prog.pure_eq]
  apply Ends.bind
  apply BChunk.isClearN_ends_or_panics.mono
  intro beforeClear w₁ _
  apply Ends.bind
  apply (BChunk.setN_panics (Nat.mod_lt _ (by decide)) hn).mono
  exact fun _ _ h => h.elim

/-- `clear_n` clears a range that lies in one chunk if all of it is set. -/
theorem clearN_ends (hcc : cc ≤ 512) (hin : InChunk cc idx n) :
    BitEnds cc panics (clearN idx n) w fun r w' =>
      (r = true ↔ bitRange idx n ⊆ bitsOf cc w) ∧
        bitsOf cc w' = if r then bitsOf cc w \ bitRange idx n else bitsOf cc w := by
  simp only [clearN, Prog.bind_eq, Prog.pure_eq]
  apply Ends.bind
  apply (BChunk.tryClearN_ends hin.1 (Nat.mod_lt _ (by decide)) hin.2).mono
  rintro r w₁ ⟨hr, hw₁⟩
  rw [Nat.div_add_mod'] at hr hw₁
  cases r with
  | false => exact Ends.ret ⟨hr, hw₁⟩
  | true =>
    apply Ends.bind
    apply (chunkmapClearIfEmpty_ends hcc hin.1).mono
    intro _ w₂ hw₂
    apply Ends.ret
    rw [hw₂]
    exact ⟨hr, hw₁⟩

theorem isSet_ends (hidx : idx / 512 < cc) :
    BitEnds cc panics (isSet idx) w fun r w' => w' = w ∧ (r = true ↔ idx ∈ bitsOf cc w) := by
  apply (BChunk.isSet_ends hidx (Nat.mod_lt _ (by decide))).mono
  rintro r w' ⟨rfl, hr⟩
  rw [Nat.div_add_mod'] at hr
  exact ⟨rfl, hr⟩

theorem isSetN_ends (hidx : idx / 512 < cc) :
    BitEnds cc panics (isSetN idx n) w fun r w' =>
      w' = w ∧ (r = true ↔ idx % 512 + n ≤ 512 ∧ bitRange idx n ⊆ bitsOf cc w) := by
  unfold isSetN
  split
  · next h =>
    rw [chunkBits_eq] at h
    apply Ends.ret
    exact ⟨rfl, by simp; omega⟩
  · next h =>
    rw [chunkBits_eq, not_lt] at h
    apply (BChunk.isSetN_ends hidx h).mono
    rintro r w' ⟨rfl, hr⟩
    rw [Nat.div_add_mod'] at hr
    exact ⟨rfl, hr.trans ⟨fun hset => ⟨h, hset⟩, fun hset => hset.2⟩⟩

theorem isClearN_ends (hidx : idx / 512 < cc) :
    BitEnds cc panics (isClearN idx n) w fun r w' =>
      w' = w ∧ (r = true ↔ idx % 512 + n ≤ 512 ∧ Disjoint (bitRange idx n) (bitsOf cc w)) := by
  unfold isClearN
  split
  · next h =>
    rw [chunkBits_eq] at h
    apply Ends.ret
    exact ⟨rfl, by simp; omega⟩
  · next h =>
    rw [chunkBits_eq, not_lt] at h
    apply (BChunk.isClearN_ends hidx h).mono
    rintro r w' ⟨rfl, hr⟩
    rw [Nat.div_add_mod'] at hr
    exact ⟨rfl, hr.trans ⟨fun hset => ⟨h, hset⟩, fun hset => hset.2⟩⟩

theorem here_pos (bit : ℕ) {remaining : ℕ} (h : remaining ≠ 0) : 0 < here bit remaining := by
  rw [here, chunkBits_eq]
  omega

theorem here_in {bit remaining : ℕ} : bit % chunkBits + here bit remaining ≤ 512 := by
  rw [here, chunkBits_eq]
  omega

/-- A loop that sets a range chunk by chunk sets the range. -/
theorem fill_ends {p : ℕ → ℕ → Prog BitAct Unit}
    (hp : ∀ {bit m w}, bit / chunkBits < cc → bit % chunkBits + m ≤ 512 →
      BitEnds cc panics (p bit m) w fun _ w' => bitsOf cc w' = bitsOf cc w ∪ bitRange bit m)
    (hn : idx + n ≤ cc * 512) :
    BitEnds cc panics (Prog.iterate (fun b : ℕ × ℕ =>
      if b.2 = 0 then .ret (.inr ())
      else (p b.1 (here b.1 b.2)).bind fun _ =>
        .ret (.inl (b.1 + here b.1 b.2, b.2 - here b.1 b.2))) (idx, n)) w fun _ w' =>
      bitsOf cc w' = bitsOf cc w ∪ bitRange idx n := by
  refine Ends.loop_measure (fun b => b.2) (fun b w' => b.1 + b.2 ≤ cc * 512 ∧
    bitsOf cc w' ∪ bitRange b.1 b.2 = bitsOf cc w ∪ bitRange idx n) ?_ ⟨hn, rfl⟩
  rintro ⟨bit, remaining⟩ w₁ ⟨hle, hbits⟩
  dsimp only at hle hbits ⊢
  split
  · next hrem =>
    apply Ends.ret
    apply Ends.ret
    rwa [hrem, bitRange_zero, Set.union_empty] at hbits
  · next hrem =>
    have hpos := here_pos bit hrem
    have hhere := here_le bit remaining
    rw [bitRange_split hhere, ← Set.union_assoc] at hbits
    apply Ends.bind
    apply (hp (by rw [chunkBits_eq]; omega) here_in).mono
    intro _ w₂ hw₂
    apply Ends.ret
    have hlt : remaining - here bit remaining < remaining := by omega
    have hle' : bit + here bit remaining + (remaining - here bit remaining) ≤ cc * 512 := by omega
    refine ⟨⟨hle', ?_⟩, hlt⟩
    rw [hw₂]
    exact hbits

/-- The bulk set of a bitmap that is not shared yet. -/
theorem unsafeSetN_ends (hcc : cc ≤ 512) (hn : idx + n ≤ cc * 512) :
    BitEnds cc panics (unsafeSetN idx n) w fun _ w' =>
      bitsOf cc w' = bitsOf cc w ∪ bitRange idx n := by
  apply fill_ends (p := fun bit m =>
    (BChunk.setN (.chunk (bit / chunkBits)) (bit % chunkBits) m).bind fun _ =>
      chunkmapSet (bit / chunkBits)) _ hn
  intro bit m w₁ hc hm
  apply Ends.bind
  apply (BChunk.setN_ends hc hm).mono
  intro _ w₂ hw₂
  rw [chunk_add_mod] at hw₂
  apply (chunkmapSet_ends hcc hc).mono
  intro _ w₃ hw₃
  rw [hw₃, hw₂]

/-- The roll-back of a claim sets the chunks that it has cleared. -/
theorem rollBack_ends (hn : idx + n ≤ cc * 512) :
    BitEnds cc panics (rollBack idx n) w fun _ w' =>
      bitsOf cc w' = bitsOf cc w ∪ bitRange idx n := by
  apply fill_ends (p := fun bit m =>
    BChunk.setN (.chunk (bit / chunkBits)) (bit % chunkBits) m) _ hn
  intro bit m w₁ hc hm
  apply (BChunk.setN_ends hc hm).mono
  intro _ w₂ hw₂
  rw [hw₂, chunk_add_mod]

/-- The whole range is tested, chunk by chunk. -/
theorem rangeIsSet_ends (hn : idx + n ≤ cc * 512) :
    BitEnds cc panics (rangeIsSet idx n) w fun r w' =>
      w' = w ∧ (r = true ↔ bitRange idx n ⊆ bitsOf cc w) := by
  refine Ends.loop_measure (fun b => b.2) (fun b w' => w' = w ∧ b.1 + b.2 ≤ cc * 512 ∧
    (bitRange idx n ⊆ bitsOf cc w ↔ bitRange b.1 b.2 ⊆ bitsOf cc w)) ?_ ⟨rfl, hn, Iff.rfl⟩
  rintro ⟨bit, remaining⟩ _ ⟨rfl, hle, hiff⟩
  simp only [Prog.bind_eq, Prog.pure_eq] at hle hiff ⊢
  split
  · next hrem =>
    apply Ends.ret
    apply Ends.ret
    rw [hiff, hrem, bitRange_zero]
    exact ⟨rfl, by simp⟩
  · next hrem =>
    have hpos := here_pos bit hrem
    have hhere := here_le bit remaining
    rw [bitRange_split hhere, Set.union_subset_iff] at hiff
    apply Ends.bind
    apply (BChunk.isSetN_ends (by rw [chunkBits_eq]; omega) here_in).mono
    rintro r _ ⟨rfl, hr⟩
    rw [chunk_add_mod] at hr
    rw [← hr] at hiff
    cases r with
    | false => exact Ends.ret (Ends.ret ⟨rfl, by simp [hiff]⟩)
    | true =>
      apply Ends.ret
      have hlt : remaining - here bit remaining < remaining := by omega
      have hle' : bit + here bit remaining + (remaining - here bit remaining) ≤ cc * 512 := by
        omega
      exact ⟨⟨rfl, hle', by simpa using hiff⟩, hlt⟩

/-- The clearing loop of a claim takes the range chunk by chunk while it is set. -/
theorem clearChunks_ends (hn : idx + n ≤ cc * 512) :
    BitEnds cc panics (clearChunks idx n) w fun r w' =>
      r.2 ≤ n ∧ bitsOf cc w' ∪ bitRange idx r.2 = bitsOf cc w ∧
        (r.1 = true ↔ bitRange idx n ⊆ bitsOf cc w) ∧
        (r.1 = true → bitsOf cc w' = bitsOf cc w \ bitRange idx n) := by
  refine Ends.loop_measure (fun b => b.2.1) (fun b w' => b.1 = idx + b.2.2 ∧ b.2.2 + b.2.1 = n ∧
    bitRange idx b.2.2 ⊆ bitsOf cc w ∧ bitsOf cc w' = bitsOf cc w \ bitRange idx b.2.2) ?_ ?_
  · rintro ⟨bit, remaining, done⟩ w₁ ⟨hbit, hsum, hset, hbits⟩
    simp only [Prog.bind_eq, Prog.pure_eq] at hbit hsum hset hbits ⊢
    subst hbit
    have hback : bitsOf cc w₁ ∪ bitRange idx done = bitsOf cc w := by
      rw [hbits, Set.sdiff_union_of_subset hset]
    split
    · next hrem =>
      obtain rfl : done = n := by omega
      apply Ends.ret
      apply Ends.ret
      exact ⟨le_rfl, hback, by simp [hset], fun _ => hbits⟩
    · next hrem =>
      have hpos := here_pos (idx + done) hrem
      have hhere := here_le (idx + done) remaining
      generalize hh : here (idx + done) remaining = h at hpos hhere
      have hin : (idx + done) % chunkBits + h ≤ 512 := hh ▸ here_in
      have hsub : bitRange (idx + done) h ⊆ bitsOf cc w₁ ↔
          bitRange idx (done + h) ⊆ bitsOf cc w := by
        rw [bitRange_add, Set.union_subset_iff, hbits, Set.subset_sdiff]
        exact ⟨fun h => ⟨hset, h.1⟩, fun h => ⟨h.2, disjoint_bitRange.symm⟩⟩
      apply Ends.bind
      have hmod : (idx + done) % chunkBits < 512 := Nat.mod_lt _ (by decide)
      apply (BChunk.tryClearN_ends (by rw [chunkBits_eq]; omega) hmod hin).mono
      intro r w₂ hr
      rw [chunk_add_mod, hsub] at hr
      cases r with
      | false =>
        apply Ends.ret
        apply Ends.ret
        have hnot : ¬ bitRange idx n ⊆ bitsOf cc w := by
          intro hall
          apply Bool.false_ne_true
          apply hr.1.mpr
          intro j hj
          apply hall
          rw [mem_bitRange] at hj ⊢
          omega
        have hkeep : bitsOf cc w₂ = bitsOf cc w₁ := by simpa using hr.2
        refine ⟨by omega, ?_, by simp [hnot], fun h => by cases h⟩
        rw [hkeep, hback]
      | true =>
        apply Ends.ret
        have hmeasure : remaining - h < remaining := by omega
        have hsum' : done + h + (remaining - h) = n := by omega
        refine ⟨⟨Nat.add_assoc .., hsum', hr.1.mp rfl, ?_⟩, hmeasure⟩
        have hw₂ : bitsOf cc w₂ = bitsOf cc w₁ \ bitRange (idx + done) h := hr.2
        rw [hw₂, hbits, bitRange_add, Set.sdiff_sdiff]
  · refine ⟨rfl, Nat.zero_add n, ?_, ?_⟩
    · rw [bitRange_zero]
      exact Set.empty_subset _
    · rw [bitRange_zero, Set.sdiff_empty]

/-- **The claim of a range that may span chunks** succeeds if all bits are set. -/
theorem rangeTryClear_ends (hcc : cc ≤ 512) (hn : idx + n ≤ cc * 512) :
    BitEnds cc panics (rangeTryClear cc idx n) w fun r w' =>
      (r = true ↔ bitRange idx n ⊆ bitsOf cc w) ∧
        bitsOf cc w' = if r then bitsOf cc w \ bitRange idx n else bitsOf cc w := by
  simp only [rangeTryClear, Prog.bind_eq, Prog.pure_eq]
  apply Ends.bind
  apply (clearChunks_ends hn).mono
  rintro ⟨ok, done⟩ w₁ ⟨hle, hback, hiff, hdone⟩
  cases ok with
  | false =>
    apply Ends.bind
    have hle : idx + done ≤ cc * 512 := Nat.le_trans (Nat.add_le_add_left hle idx) hn
    apply (rollBack_ends hle).mono
    intro _ w₂ hw₂
    apply Ends.ret
    exact ⟨hiff, hw₂.trans hback⟩
  | true =>
    apply Ends.bind
    have hforget : BitEnds cc panics (Prog.forEach (fun off =>
        if idx / chunkBits + off < cc then chunkmapClearIfEmpty (idx / chunkBits + off)
        else .ret ()) (List.range ((n + chunkBits - 1) / chunkBits + 1))) w₁
        fun _ w' => bitsOf cc w' = bitsOf cc w₁ := by
      refine Ends.forEach (fun _ w' => bitsOf cc w' = bitsOf cc w₁) ?_ (fun _ h => h) rfl
      intro off l w₂ hw₂
      split
      · next hoff =>
        apply (chunkmapClearIfEmpty_ends hcc hoff).mono
        intro _ w₃ hw₃
        rw [hw₃, hw₂]
      · exact Ends.ret hw₂
    apply hforget.mono
    intro _ w₂ hw₂
    apply Ends.ret
    exact ⟨hiff, hw₂.trans (hdone rfl)⟩

/-- The search for a run across chunks finds one if there is one. -/
theorem tryFindAndClearNHuge_ends (hcc : cc ≤ 512) (hn : 0 < n) :
    BitEnds cc panics (tryFindAndClearNHuge cc n) w fun r w' =>
      match r with
      | some idx => idx + n ≤ cc * 512 ∧ bitRange idx n ⊆ bitsOf cc w ∧
        bitsOf cc w' = bitsOf cc w \ bitRange idx n
      | none => w' = w ∧ ∀ idx, ¬ bitRange idx n ⊆ bitsOf cc w := by
  refine Ends.loop_measure (fun start => cc * 512 - start)
    (fun start w' => w' = w ∧ ∀ idx, idx < start → ¬ bitRange idx n ⊆ bitsOf cc w) ?_
    ⟨rfl, fun idx hidx => (by omega)⟩
  rintro start _ ⟨rfl, hnone⟩
  simp only [Prog.bind_eq, Prog.pure_eq]
  split
  · next hle =>
    rw [chunkBits_eq] at hle
    apply Ends.bind
    apply (rangeIsSet_ends hle).mono
    rintro r _ ⟨rfl, hr⟩
    cases r with
    | false =>
      apply Ends.ret
      have hlt : cc * 512 - (start + 1) < cc * 512 - start := by omega
      refine ⟨⟨rfl, fun idx hidx => ?_⟩, hlt⟩
      rcases Nat.lt_succ_iff_lt_or_eq.mp hidx with hidx | rfl
      · exact hnone idx hidx
      · exact fun hset => by cases hr.mpr hset
    | true =>
      have hset := hr.mp rfl
      apply Ends.bind
      apply (rangeTryClear_ends hcc hle).mono
      rintro r w₁ ⟨hr₁, hw₁⟩
      obtain rfl : r = true := hr₁.mpr hset
      exact Ends.ret (Ends.ret ⟨hle, hset, hw₁⟩)
  · next hle =>
    rw [chunkBits_eq] at hle
    apply Ends.ret
    apply Ends.ret
    refine ⟨rfl, fun idx hset => ?_⟩
    -- a run beyond `start` would leave the bitmap
    by_cases hidx : idx < start
    · exact hnone idx hidx hset
    · have hlast := (hset (show idx + n - 1 ∈ bitRange idx n by rw [mem_bitRange]; omega)).1
      omega

theorem findInChunk_ends (hcc : cc ≤ 512) (hc : c < cc) (hn : 0 < n) :
    BitEnds cc panics (findInChunk n c) w fun r w' =>
      match r with
      | some idx => InChunk cc idx n ∧ bitRange idx n ⊆ bitsOf cc w ∧
        bitsOf cc w' = bitsOf cc w \ bitRange idx n
      | none => w' = w := by
  simp only [findInChunk, Prog.bind_eq, Prog.pure_eq]
  apply Ends.bind
  have hmark : BitEnds cc panics (BChunk.isSet .map c) w fun _ w' => w' = w :=
    BitEnds.load (valid_map hcc hc) (Ends.ret rfl)
  apply hmark.mono
  rintro r _ rfl
  cases r with
  | false => exact Ends.ret rfl
  | true =>
    apply Ends.bind
    apply (BChunk.findAndClearN_ends hc hn).mono
    intro r w₁ hr
    cases r with
    | none => exact Ends.ret hr.1
    | some b =>
      obtain ⟨hb, hset, hw₁⟩ := hr
      apply Ends.bind
      apply (chunkmapClearIfEmpty_ends hcc hc).mono
      intro _ w₂ hw₂
      apply Ends.ret
      refine ⟨⟨?_, ?_⟩, hset, by rw [hw₂, hw₁]; rfl⟩
      · rw [chunkBits_eq]
        omega
      · rw [chunkBits_eq]
        omega

/-- **The search**: a run of at most 512 bits is found within a chunk; a longer one is found
whenever there is one. -/
theorem tryFindAndClearN_ends {tseq : ℕ} (hcc : cc ≤ 512) :
    BitEnds cc panics (tryFindAndClearN cc n tseq) w fun r w' =>
      match r with
      | some idx => idx + n ≤ cc * 512 ∧ (n ≤ 512 → InChunk cc idx n) ∧
        bitRange idx n ⊆ bitsOf cc w ∧ bitsOf cc w' = bitsOf cc w \ bitRange idx n
      | none => w' = w ∧ (512 < n → ∀ idx, ¬ bitRange idx n ⊆ bitsOf cc w) := by
  unfold tryFindAndClearN
  split
  · next hn => exact Ends.ret ⟨rfl, fun h => (by omega)⟩
  · next hn =>
    have hpos : 0 < n := Nat.pos_of_ne_zero hn
    split
    · next hle =>
      rw [chunkBits_eq] at hle
      by_cases hcc0 : cc = 0
      · subst hcc0
        exact Ends.ret ⟨rfl, fun h => (by omega)⟩
      · refine Ends.firstSome (fun _ w' => w' = w) ?_ (fun _ h => ⟨h, fun h' => (by omega)⟩) rfl
        rintro k l _ rfl
        have hc : (tseq % cc + k) % cc < cc := Nat.mod_lt _ (Nat.pos_of_ne_zero hcc0)
        apply (findInChunk_ends hcc hc hpos).mono
        intro r w₁ hr
        cases r with
        | none => exact hr
        | some idx =>
          obtain ⟨hin, hset, hw₁⟩ := hr
          have h₁ := hin.1
          have h₂ := hin.2
          exact ⟨by omega, fun _ => hin, hset, hw₁⟩
    · next hgt =>
      apply (tryFindAndClearNHuge_ends hcc hpos).mono
      intro r w₁ hr
      rw [chunkBits_eq] at hgt
      cases r with
      | none => exact ⟨hr.1, fun _ => hr.2⟩
      | some idx => exact ⟨hr.1, fun h => (by omega), hr.2⟩

end Bitmap

end MimallocRs
