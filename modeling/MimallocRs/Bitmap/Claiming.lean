import MimallocRs.Bitmap.Invariant
import MimallocRs.Bitmap.Words

/-!
# What a call takes

For each function of a bitmap, what a call that had taken the bits `g` has taken when the function
returns. A claim that succeeds has taken exactly its range, one that fails has put back all it
cleared (`Took`).
-/

namespace MimallocRs

open Interleave

/-- The bits `R` have been taken in addition to `g`. -/
def Took (g R g' : Set ℕ) : Prop := g' = g ∪ R ∧ Disjoint g R

namespace Took

variable {g g' g'' R A B : Set ℕ}

theorem refl : Took g ∅ g := ⟨by simp, by simp⟩

theorem trans (h : Took g A g') (h' : Took g' B g'') : Took g (A ∪ B) g'' := by
  obtain ⟨rfl, hA⟩ := h
  obtain ⟨rfl, hB⟩ := h'
  rw [Set.disjoint_union_left] at hB
  refine ⟨by rw [Set.union_assoc], ?_⟩
  rw [Set.disjoint_union_right]
  exact ⟨hA, hB.1⟩

/-- What was taken is split into what is put back first and the rest. -/
theorem split (h : Took g (A ∪ B) g') (hAB : Disjoint A B) :
    Took (g ∪ B) A g' ∧ Took g B (g ∪ B) := by
  obtain ⟨rfl, hd⟩ := h
  rw [Set.disjoint_union_right] at hd
  refine ⟨⟨?_, ?_⟩, rfl, hd.2⟩
  · rw [Set.union_comm A, Set.union_assoc]
  · rw [Set.disjoint_union_left]
    exact ⟨hd.1, hAB.symm⟩

theorem subset (h : Took g R g') : R ⊆ g' := by
  rw [h.1]
  exact Set.subset_union_right

/-- Putting back what was taken. -/
theorem diff_eq (h : Took g R g') : g' \ R = g := by
  rw [h.1, Set.union_sdiff_right, h.2.sdiff_eq_left]

end Took

/-- The event takes no bits, whatever the word. -/
def BitAct.TakesNothing : {β : Type} → BitAct β → Prop
  | _, .load _ => True
  | _, .cas l _ _ => ∃ f, l = .map f

variable {Tid : Type} [DecidableEq Tid] {cc : ℕ} {free₀ : Set ℕ} {t : Tid} {g g₀ : Set ℕ}
variable {l : Loc} {mask : BitVec 64} {α : Type}

/-- A program that only reads, or writes the chunkmap, takes nothing. -/
theorem ClaimSafe.of_every {p : Prog BitAct α} (hp : p.Every BitAct.TakesNothing) :
    ClaimSafe cc free₀ t p g fun _ g' => g' = g := by
  refine Safe.of_every (P := BitAct.TakesNothing) (J := (· = g)) ?_ hp rfl
  rintro β e he s γ choice b s' hi rfl - hex
  have keep : ∀ k : β → Prog BitAct β, (∀ b, k b = .ret b) →
      ClaimSafe cc free₀ t (.act e k) (γ t) (fun _ g' => g' = γ t) := by
    intro k hk
    cases e with
    | load l => exact ClaimSafe.load fun w _ _ => by rw [hk]; exact Safe.ret rfl
    | cas l old new =>
      obtain ⟨f, rfl⟩ := he
      refine ClaimSafe.cas (Set.empty_subset _) (fun _ _ => ?_) fun w _ => ?_
      · rw [hk]
        exact Safe.ret (by simp [Loc.bits])
      · rw [hk]
        exact Safe.ret rfl
  obtain ⟨ha, g', hi', hr⟩ := (keep .ret fun _ => rfl).step s γ choice b s' hi rfl trivial hex
  exact ⟨ha, g', hi', hr.of_ret⟩

/-! ## Fields -/

theorem bfSetMask_safe (hm : l.Valid cc → Took g₀ (l.bits mask) g) :
    ClaimSafe cc free₀ t (bfSetMask l mask) g fun _ g' => l.Valid cc ∧ g' = g₀ := by
  simp only [bfSetMask, Prog.bind_eq, Prog.pure_eq, Prog.perform_bind]
  apply ClaimSafe.load
  intro w hl hw
  have htook := hm hl
  refine Safe.loop (fun old g' => g' = g ∧ Disjoint g (l.bits old)) ?_ ⟨rfl, hw⟩
  rintro old _ ⟨rfl, hold⟩
  have hdis : Disjoint (l.bits mask) (l.bits old) := hold.mono_left htook.subset
  split
  · next h =>
    -- the bits are taken, so they are not set: there are none
    apply Safe.ret
    apply Safe.ret
    refine ⟨hl, ?_⟩
    rw [← h, Loc.bits_or, Set.disjoint_union_right] at hdis
    rw [htook.1, disjoint_self.mp hdis.2]
    simp
  · have hclear : l.bits (old &&& ~~~(old ||| mask)) = ∅ := by
      rw [Loc.bits_and_not, Loc.bits_or, Set.sdiff_eq_empty]
      exact Set.subset_union_left
    have hset : l.bits ((old ||| mask) &&& ~~~old) = l.bits mask := by
      rw [Loc.bits_and_not, Loc.bits_or, Set.union_sdiff_left, hdis.sdiff_eq_left]
    apply ClaimSafe.cas
    · rw [hset]
      exact htook.subset
    · intro _ _
      apply Safe.ret
      apply Safe.ret
      refine ⟨hl, ?_⟩
      rw [hclear, hset, Set.union_empty, htook.diff_eq]
    · intro seen hseen
      exact Safe.ret ⟨rfl, hseen⟩

/-- What a clearing exchange takes. -/
theorem took_of_clear {old : BitVec 64} (hmask : old &&& mask = mask)
    (hold : Disjoint g (l.bits old)) :
    Took g (l.bits mask) ((g ∪ l.bits (old &&& ~~~(old &&& ~~~mask))) \
      l.bits ((old &&& ~~~mask) &&& ~~~old)) := by
  have hsub : l.bits mask ⊆ l.bits old := Loc.bits_subset hmask
  rw [clear_sets_nothing, Set.sdiff_empty, Loc.bits_and_not, Loc.bits_and_not, sdiff_sdiff_right_self]
  exact ⟨by rw [inf_eq_right.mpr hsub], hold.mono_right hsub⟩

theorem bfTryClearMask_safe :
    ClaimSafe cc free₀ t (bfTryClearMask l mask) g fun r g' =>
      if r then l.Valid cc ∧ Took g (l.bits mask) g' else g' = g := by
  simp only [bfTryClearMask, Prog.bind_eq, Prog.pure_eq, Prog.perform_bind]
  apply ClaimSafe.load
  intro w hl hw
  refine Safe.loop (fun old g' => g' = g ∧ Disjoint g (l.bits old)) ?_ ⟨rfl, hw⟩
  rintro old _ ⟨rfl, hold⟩
  split
  · exact Safe.ret (Safe.ret rfl)
  · next h =>
    rw [not_not] at h
    have htook := took_of_clear h hold
    apply ClaimSafe.cas
    · rw [clear_sets_nothing]
      exact Set.empty_subset _
    · intro _ _
      exact Safe.ret (Safe.ret ⟨hl, htook⟩)
    · intro seen hseen
      exact Safe.ret ⟨rfl, hseen⟩

theorem bfFindAndClearRun_safe {n : ℕ} :
    ClaimSafe cc free₀ t (bfFindAndClearRun l n) g fun r g' =>
      match r with
      | some b => l.Valid cc ∧ b + n ≤ 64 ∧ Took g (l.bits (fieldMask b n)) g'
      | none => g' = g := by
  unfold bfFindAndClearRun
  split
  · exact Safe.ret rfl
  · next hn =>
    have hn64 : n ≤ 64 := by
      rw [fieldBits_eq] at hn
      omega
    simp only [Prog.bind_eq, Prog.pure_eq, Prog.perform_bind]
    apply ClaimSafe.load
    intro w hl hw
    refine Safe.loop (fun old g' => g' = g ∧ Disjoint g (l.bits old)) ?_ ⟨rfl, hw⟩
    rintro old _ ⟨rfl, hold⟩
    split
    · exact Safe.ret (Safe.ret rfl)
    · split
      · exact Safe.ret (Safe.ret rfl)
      · next shift hshift =>
        obtain ⟨hb, hmask⟩ := findShift_eq_some hshift hn64
        have htook := took_of_clear hmask hold
        apply ClaimSafe.cas
        · rw [clear_sets_nothing]
          exact Set.empty_subset _
        · intro _ _
          exact Safe.ret (Safe.ret ⟨hl, hb, htook⟩)
        · intro seen hseen
          exact Safe.ret ⟨rfl, hseen⟩

/-! ## Chunks -/

namespace BChunk

variable {c cbit n : ℕ}

/-- What was taken of the field of `bit`, as the bits of a mask. -/
theorem took_here {bit remaining : ℕ} (h : Took g₀ (bitRange (c * 512 + bit) (here bit remaining)) g)
    (hl : (Loc.chunk c (bit / fieldBits)).Valid cc) :
    Took g₀ ((Loc.chunk c (bit / fieldBits)).bits
      (fieldMask (bit % fieldBits) (here bit remaining))) g := by
  rw [Loc.bits, maskBits_here (lt_of_valid hl)]
  exact h

theorem setN_safe (h : Took g₀ (bitRange (c * 512 + cbit) n) g) :
    ClaimSafe cc free₀ t (setN (.chunk c) cbit n) g fun _ g' => g' = g₀ := by
  refine Safe.loop (fun b g' => Took g₀ (bitRange (c * 512 + b.1) b.2) g') ?_ h
  rintro ⟨bit, remaining⟩ g₁ h₁
  simp only [Prog.bind_eq, Prog.pure_eq] at h₁ ⊢
  split
  · next hrem =>
    apply Safe.ret
    apply Safe.ret
    rw [hrem, bitRange_zero] at h₁
    simpa using h₁.1
  · rw [bitRange_split (here_le bit remaining)] at h₁
    obtain ⟨hhere, hrest⟩ := h₁.split disjoint_bitRange
    rw [Nat.add_assoc] at hhere hrest
    apply Safe.bind
    apply (bfSetMask_safe (took_here hhere)).mono
    rintro _ g₂ ⟨-, rfl⟩
    exact Safe.ret hrest

/-- The fields and masks of a list stand for disjoint sets of bits. -/
def Apart (c : ℕ) (l : List (ℕ × BitVec 64)) : Prop :=
  l.Pairwise fun p q => Disjoint (maskBits c p.1 p.2) (maskBits c q.1 q.2)

theorem Apart.disjoint_head {p : ℕ × BitVec 64} {l : List (ℕ × BitVec 64)}
    (h : Apart c (p :: l)) : Disjoint (maskBits c p.1 p.2) (listBits c l) := by
  rw [Set.disjoint_right]
  rintro j ⟨q, hq, hj⟩
  exact Set.disjoint_right.mp ((List.pairwise_cons.mp h).1 q hq) hj

theorem Apart.snoc {p : ℕ × BitVec 64} {l : List (ℕ × BitVec 64)} (h : Apart c l)
    (hp : Disjoint (listBits c l) (maskBits c p.1 p.2)) : Apart c (l ++ [p]) := by
  rw [Apart, List.pairwise_append]
  refine ⟨h, List.pairwise_singleton _ _, ?_⟩
  intro q hq p' hp'
  rw [List.mem_singleton.mp hp']
  have hsub : maskBits c q.1 q.2 ⊆ listBits c l := fun j hj => ⟨q, hq, hj⟩
  exact hp.mono_left hsub

/-- What the clearing loop of a claim has done when it comes to `bit`. -/
structure Clearing (c cbit n : ℕ) (g : Set ℕ) (bit remaining : ℕ) (cleared : List (ℕ × BitVec 64))
    (g' : Set ℕ) : Prop where
  le : cbit ≤ bit
  sum : bit + remaining = cbit + n
  apart : Apart c cleared
  took : Took g (listBits c cleared) g'
  bits : listBits c cleared = bitRange (c * 512 + cbit) (bit - cbit)

theorem Clearing.start : Clearing c cbit n g cbit n [] g where
  le := le_rfl
  sum := rfl
  apart := List.Pairwise.nil
  took := by
    rw [listBits_nil]
    exact Took.refl
  bits := by rw [listBits_nil, Nat.sub_self, bitRange_zero]

theorem Clearing.next {bit remaining : ℕ} {cleared : List (ℕ × BitVec 64)} {g₁ g₂ : Set ℕ}
    (h : Clearing c cbit n g bit remaining cleared g₁) (hbit : bit < 512)
    (hnew : Took g₁ (bitRange (c * 512 + bit) (here bit remaining)) g₂) :
    Clearing c cbit n g (bit + here bit remaining) (remaining - here bit remaining)
      (cleared ++ [(bit / fieldBits, fieldMask (bit % fieldBits) (here bit remaining))]) g₂ := by
  have hle := here_le bit remaining
  have hsum := h.sum
  have hcbit := h.le
  have hlist : listBits c [(bit / fieldBits, fieldMask (bit % fieldBits) (here bit remaining))] =
      bitRange (c * 512 + bit) (here bit remaining) := by
    rw [listBits_cons, listBits_nil, Set.union_empty, maskBits_here hbit]
  refine ⟨by omega, by omega, h.apart.snoc ?_, ?_, ?_⟩
  · rw [maskBits_here hbit]
    exact hnew.2.mono_left h.took.subset
  · rw [listBits_append, hlist]
    exact h.took.trans hnew
  · rw [listBits_append, hlist, h.bits]
    have hstart : c * 512 + bit = c * 512 + cbit + (bit - cbit) := by omega
    rw [hstart, ← bitRange_add]
    congr 1
    omega

theorem clearFields_safe :
    ClaimSafe cc free₀ t (clearFields (.chunk c) cbit n) g fun r g' =>
      Apart c r.2 ∧ Took g (listBits c r.2) g' ∧
        (r.1 = true → listBits c r.2 = bitRange (c * 512 + cbit) n) := by
  refine Safe.loop (fun b g' => Clearing c cbit n g b.1 b.2.1 b.2.2 g') ?_ Clearing.start
  rintro ⟨bit, remaining, cleared⟩ g₁ h₁
  simp only [Prog.bind_eq, Prog.pure_eq] at h₁ ⊢
  split
  · next hrem =>
    apply Safe.ret
    apply Safe.ret
    refine ⟨h₁.apart, h₁.took, fun _ => ?_⟩
    have hsum := h₁.sum
    rw [h₁.bits]
    congr 1
    omega
  · apply Safe.bind
    apply bfTryClearMask_safe.mono
    intro r g₂ hg₂
    cases r with
    | false =>
      rw [hg₂]
      exact Safe.ret (Safe.ret ⟨h₁.apart, h₁.took, fun h => by cases h⟩)
    | true =>
      obtain ⟨hl, hnew⟩ := hg₂
      have hlt : bit < 512 := lt_of_valid hl
      rw [Loc.bits, maskBits_here hlt] at hnew
      apply Safe.ret
      exact h₁.next hlt hnew

theorem rollBack_safe {cleared : List (ℕ × BitVec 64)} (hap : Apart c cleared)
    (h : Took g₀ (listBits c cleared) g) :
    ClaimSafe cc free₀ t (rollBack (.chunk c) cleared) g fun _ g' => g' = g₀ := by
  refine Safe.forEach (fun l g' => Apart c l ∧ Took g₀ (listBits c l) g') ?_ ?_ ⟨hap, h⟩
  · rintro ⟨f, mask⟩ l g₁ ⟨hap₁, h₁⟩
    rw [listBits_cons] at h₁
    obtain ⟨hhere, hrest⟩ := h₁.split hap₁.disjoint_head
    apply Safe.bind
    apply (bfSetMask_safe (l := .chunk c f) fun _ => hhere).mono
    rintro _ g₂ ⟨-, rfl⟩
    exact Safe.ret ⟨hap₁.of_cons, hrest⟩
  · rintro g₁ ⟨-, h₁⟩
    rw [listBits_nil] at h₁
    simpa using h₁.1

/-- **A claim within a chunk** takes its range, or nothing. -/
theorem tryClearN_safe :
    ClaimSafe cc free₀ t (tryClearN (.chunk c) cbit n) g fun r g' =>
      if r then Took g (bitRange (c * 512 + cbit) n) g' else g' = g := by
  simp only [tryClearN, Prog.bind_eq, Prog.pure_eq]
  split
  · next hone =>
    refine bfTryClearMask_safe.mono fun r g' hg' => ?_
    cases r with
    | false => exact hg'
    | true =>
      obtain ⟨hl, htook⟩ := hg'
      rw [fieldBits_eq] at hl hone
      rw [Loc.bits, fieldBits_eq, maskBits_mask hl.2 hone, Nat.mul_comm (cbit / 64),
        Nat.div_add_mod] at htook
      exact htook
  · apply Safe.bind
    refine clearFields_safe.mono fun r g₁ hg₁ => ?_
    obtain ⟨ok, cleared⟩ := r
    obtain ⟨hap, htook, hbits⟩ := hg₁
    cases ok with
    | true =>
      apply Safe.ret
      have htook : Took g (listBits c cleared) g₁ := htook
      rw [hbits rfl] at htook
      exact htook
    | false =>
      apply Safe.bind
      refine (rollBack_safe hap htook).mono fun _ g₂ hg₂ => ?_
      exact Safe.ret hg₂

theorem isSetN_safe : ClaimSafe cc free₀ t (isSetN (.chunk c) cbit n) g fun _ g' => g' = g :=
  ClaimSafe.of_every (isSetN_every (fun _ => trivial) cbit n)

theorem findAndClearNSpanning_safe :
    ClaimSafe cc free₀ t (findAndClearNSpanning (.chunk c) n) g fun r g' =>
      match r with
      | some b => Took g (bitRange (c * 512 + b) n) g'
      | none => g' = g := by
  refine Safe.loop (fun _ g' => g' = g) ?_ rfl
  rintro start _ rfl
  simp only [Prog.bind_eq, Prog.pure_eq]
  split
  · apply Safe.bind
    refine isSetN_safe.mono fun r g₁ hg₁ => ?_
    cases r with
    | false => exact Safe.ret hg₁
    | true =>
      rw [hg₁]
      apply Safe.bind
      refine tryClearN_safe.mono fun r g₂ hg₂ => ?_
      cases r with
      | true => exact Safe.ret (Safe.ret hg₂)
      | false => exact Safe.ret hg₂
  · exact Safe.ret (Safe.ret rfl)

theorem findInField_safe :
    ClaimSafe cc free₀ t (findInField (.chunk c) n) g fun r g' =>
      match r with
      | some b => Took g (bitRange (c * 512 + b) n) g'
      | none => g' = g := by
  refine Safe.firstSome (fun _ g' => g' = g) ?_ (fun _ h => h) rfl
  rintro f l _ rfl
  apply Safe.bind
  refine bfFindAndClearRun_safe.mono fun r g₁ hg₁ => ?_
  cases r with
  | none => exact Safe.ret hg₁
  | some b =>
    obtain ⟨hl, hb, htook⟩ := hg₁
    apply Safe.ret
    rw [Loc.bits, maskBits_mask hl.2 hb] at htook
    exact htook

theorem findAcross_safe :
    ClaimSafe cc free₀ t (findAcross (.chunk c) n) g fun r g' =>
      match r with
      | some b => Took g (bitRange (c * 512 + b) n) g'
      | none => g' = g := by
  apply Safe.bind
  apply (ClaimSafe.of_every (countFree_every (fun _ => trivial) _)).mono
  rintro free _ rfl
  split
  · exact Safe.ret rfl
  · exact findAndClearNSpanning_safe

theorem findAndClearN_safe :
    ClaimSafe cc free₀ t (findAndClearN (.chunk c) n) g fun r g' =>
      match r with
      | some b => Took g (bitRange (c * 512 + b) n) g'
      | none => g' = g := by
  unfold findAndClearN
  split
  · exact Safe.ret rfl
  · split
    · apply Safe.bind
      apply findInField_safe.mono
      intro r g₁ hg₁
      cases r with
      | some b => exact Safe.ret hg₁
      | none =>
        rw [hg₁]
        exact findAcross_safe
    · exact findAcross_safe

end BChunk

/-! ## Bitmaps -/

namespace Bitmap

variable {idx n : ℕ}

theorem chunkmapClearIfEmpty_safe {c : ℕ} :
    ClaimSafe cc free₀ t (chunkmapClearIfEmpty c) g fun _ g' => g' = g :=
  ClaimSafe.of_every (chunkmapClearIfEmpty_every (fun _ => trivial) (fun _ _ _ => ⟨_, rfl⟩)
    fun _ => trivial)

/-- `set_n` puts back what the caller gives it. -/
theorem setN_safe (h : Took g₀ (bitRange idx n) g) :
    ClaimSafe cc free₀ t (setN idx n) g fun _ g' => g' = g₀ := by
  simp only [setN, Prog.bind_eq, Prog.pure_eq]
  apply Safe.bind
  apply (ClaimSafe.of_every (BChunk.isClearN_every (fun _ => trivial) _ _)).mono
  rintro beforeClear _ rfl
  rw [← chunk_add_mod idx] at h
  apply Safe.bind
  apply (BChunk.setN_safe h).mono
  rintro _ _ rfl
  apply Safe.bind
  apply (ClaimSafe.of_every (chunkmapSet_every (fun _ => trivial) (fun _ _ _ => ⟨_, rfl⟩) _)).mono
  intro _ g₁ hg₁
  exact Safe.ret hg₁

/-- `clear_n` takes its range, or nothing. -/
theorem clearN_safe :
    ClaimSafe cc free₀ t (clearN idx n) g fun r g' =>
      if r then Took g (bitRange idx n) g' else g' = g := by
  simp only [clearN, Prog.bind_eq, Prog.pure_eq]
  apply Safe.bind
  apply BChunk.tryClearN_safe.mono
  intro r g₁ hg₁
  cases r with
  | false => exact Safe.ret hg₁
  | true =>
    rw [chunk_add_mod] at hg₁
    apply Safe.bind
    apply chunkmapClearIfEmpty_safe.mono
    rintro _ _ rfl
    exact Safe.ret hg₁

theorem clearChunks_safe :
    ClaimSafe cc free₀ t (clearChunks idx n) g fun r g' =>
      Took g (bitRange idx r.2) g' ∧ (r.1 = true → r.2 = n) := by
  refine Safe.loop (fun b g' => b.1 = idx + b.2.2 ∧ b.2.2 + b.2.1 = n ∧
    Took g (bitRange idx b.2.2) g') ?_ ⟨rfl, Nat.zero_add n, by rw [bitRange_zero]; exact Took.refl⟩
  rintro ⟨bit, remaining, done⟩ g₁ ⟨hbit, hn, htook⟩
  simp only [Prog.bind_eq, Prog.pure_eq] at hbit hn htook ⊢
  split
  · next hrem =>
    apply Safe.ret
    apply Safe.ret
    exact ⟨htook, fun _ => by rw [← hn, hrem, Nat.add_zero]⟩
  · apply Safe.bind
    apply BChunk.tryClearN_safe.mono
    intro r g₂ hg₂
    cases r with
    | false =>
      rw [hg₂]
      exact Safe.ret (Safe.ret ⟨htook, fun h => by cases h⟩)
    | true =>
      have hle := here_le bit remaining
      rw [chunk_add_mod] at hg₂
      have hall := htook.trans hg₂
      rw [hbit, ← bitRange_add, ← hbit] at hall
      have hsum : done + here bit remaining + (remaining - here bit remaining) = n := by omega
      apply Safe.ret
      exact ⟨by rw [hbit, Nat.add_assoc], hsum, hall⟩

theorem rollBack_safe {done : ℕ} (h : Took g₀ (bitRange idx done) g) :
    ClaimSafe cc free₀ t (rollBack idx done) g fun _ g' => g' = g₀ := by
  refine Safe.loop (fun b g' => Took g₀ (bitRange b.1 b.2) g') ?_ h
  rintro ⟨rbit, rb⟩ g₁ h₁
  simp only [Prog.bind_eq, Prog.pure_eq] at h₁ ⊢
  split
  · next hrb =>
    apply Safe.ret
    apply Safe.ret
    rw [hrb, bitRange_zero] at h₁
    simpa using h₁.1
  · rw [bitRange_split (here_le rbit rb)] at h₁
    obtain ⟨hhere, hrest⟩ := h₁.split disjoint_bitRange
    have hrange : bitRange rbit (here rbit rb) =
        bitRange (rbit / chunkBits * 512 + rbit % chunkBits) (here rbit rb) := by
      rw [chunk_add_mod]
    rw [hrange] at hhere
    apply Safe.bind
    apply (BChunk.setN_safe hhere).mono
    rintro _ _ rfl
    exact Safe.ret hrest

/-- **A claim across chunks** takes its range, or nothing. -/
theorem rangeTryClear_safe :
    ClaimSafe cc free₀ t (rangeTryClear cc idx n) g fun r g' =>
      if r then Took g (bitRange idx n) g' else g' = g := by
  simp only [rangeTryClear, Prog.bind_eq, Prog.pure_eq]
  apply Safe.bind
  apply clearChunks_safe.mono
  rintro ⟨ok, done⟩ g₁ ⟨htook, hdone⟩
  cases ok with
  | true =>
    apply Safe.bind
    have hforget : ClaimSafe cc free₀ t (Prog.forEach (fun off =>
        if idx / chunkBits + off < cc then chunkmapClearIfEmpty (idx / chunkBits + off)
        else .ret ()) (List.range ((n + chunkBits - 1) / chunkBits + 1))) g₁
        fun _ g' => g' = g₁ := by
      refine Safe.forEach (fun _ g' => g' = g₁) ?_ (fun _ h => h) rfl
      rintro off l _ rfl
      split
      · exact chunkmapClearIfEmpty_safe
      · exact Safe.ret rfl
    apply hforget.mono
    rintro _ _ rfl
    apply Safe.ret
    rw [← hdone rfl]
    exact htook
  | false =>
    apply Safe.bind
    apply (rollBack_safe htook).mono
    intro _ g₂ hg₂
    exact Safe.ret hg₂

theorem tryFindAndClearNHuge_safe :
    ClaimSafe cc free₀ t (tryFindAndClearNHuge cc n) g fun r g' =>
      match r with
      | some idx => Took g (bitRange idx n) g'
      | none => g' = g := by
  refine Safe.loop (fun _ g' => g' = g) ?_ rfl
  rintro start _ rfl
  simp only [Prog.bind_eq, Prog.pure_eq]
  split
  · apply Safe.bind
    apply (ClaimSafe.of_every (rangeIsSet_every (fun _ _ => trivial) start n)).mono
    rintro r _ rfl
    cases r with
    | false => exact Safe.ret rfl
    | true =>
      apply Safe.bind
      apply rangeTryClear_safe.mono
      intro r g₂ hg₂
      cases r with
      | true => exact Safe.ret (Safe.ret hg₂)
      | false => exact Safe.ret hg₂
  · exact Safe.ret (Safe.ret rfl)

theorem findInChunk_safe {c : ℕ} :
    ClaimSafe cc free₀ t (findInChunk n c) g fun r g' =>
      match r with
      | some idx => Took g (bitRange idx n) g'
      | none => g' = g := by
  simp only [findInChunk, Prog.bind_eq, Prog.pure_eq]
  apply Safe.bind
  apply (ClaimSafe.of_every (BChunk.isSet_every (fun _ => trivial) c)).mono
  rintro r _ rfl
  cases r with
  | false => exact Safe.ret rfl
  | true =>
    apply Safe.bind
    apply BChunk.findAndClearN_safe.mono
    intro r g₁ hg₁
    cases r with
    | none => exact Safe.ret hg₁
    | some b =>
      apply Safe.bind
      apply chunkmapClearIfEmpty_safe.mono
      rintro _ _ rfl
      exact Safe.ret hg₁

/-- `try_find_and_clear_n` takes the range it returns, or nothing. -/
theorem tryFindAndClearN_safe {tseq : ℕ} :
    ClaimSafe cc free₀ t (tryFindAndClearN cc n tseq) g fun r g' =>
      match r with
      | some idx => Took g (bitRange idx n) g'
      | none => g' = g := by
  unfold tryFindAndClearN
  split
  · exact Safe.ret rfl
  · split
    · refine Safe.firstSome (fun _ g' => g' = g) ?_ (fun _ h => h) rfl
      rintro k l _ rfl
      apply findInChunk_safe.mono
      intro r g₁ hg₁
      cases r with
      | none => exact hg₁
      | some idx => exact hg₁
    · exact tryFindAndClearNHuge_safe

end Bitmap

end MimallocRs
