import MimallocRs.Page.Basic
import Mathlib.Data.Finset.Card
import Mathlib.Data.List.Range
import Mathlib.Tactic.Common

/-!
# What the owner's code does to the free lists

`Lists p captured fr lo xs cap` reads the memory of a page as lists: `fr`, `lo` and `xs` are the
blocks on `free`, on `local_free` and on the cross-thread list, `cap` those of a chain the owner
has taken off the cross-thread list and is moving to `free`. No block is on two of them or twice
on one, all are below `capacity`, and `used` counts the blocks that are on neither owner list.
Each function of `Page/Basic.lean` has one lemma that says which lists it leaves.
-/

namespace MimallocRs

open Interleave

/-- The free lists of a page, as lists of blocks. -/
structure Lists (p : Page) (captured : Option Blk) (fr lo xs cap : List Blk) : Prop where
  free : Chain p.next p.free fr
  localFree : Chain p.next p.localFree lo
  queue : Chain p.next p.xthreadFree.block xs
  captured : Chain p.next captured cap
  nodup : (fr ++ lo ++ xs ++ cap).Nodup
  lt : ∀ b : ℕ, b ∈ fr ++ lo ++ xs ++ cap → b < p.capacity
  used : p.used + fr.length + lo.length = p.capacity
  capacity_le : p.capacity ≤ p.reserved

/-- Distinct numbers below `n` are at most `n` many. -/
theorem length_le_of_nodup_of_lt {l : List ℕ} {n : ℕ} (hn : l.Nodup) (hl : ∀ b : ℕ, b ∈ l → b < n) :
    l.length ≤ n := by
  have hsub : l.toFinset ⊆ Finset.range n := fun b hb => by
    simpa using hl b (by simpa using hb)
  have := Finset.card_le_card hsub
  rwa [List.toFinset_card_of_nodup hn, Finset.card_range] at this

namespace Lists

variable {p : Page} {captured : Option Blk} {fr lo xs cap : List Blk}

theorem length_le (h : Lists p captured fr lo xs cap) :
    fr.length + lo.length + xs.length + cap.length ≤ p.capacity := by
  have := length_le_of_nodup_of_lt h.nodup h.lt
  simp only [List.length_append] at this
  omega

/-- A block on no list leaves room in `used`. -/
theorem used_pos (h : Lists p captured fr lo xs cap) {b : Blk} (hb : b < p.capacity)
    (hn : b ∉ fr ++ lo ++ xs ++ cap) : xs.length + cap.length < p.used := by
  have hl := length_le_of_nodup_of_lt (List.nodup_cons.mpr ⟨hn, h.nodup⟩)
    (List.forall_mem_cons.mpr ⟨hb, h.lt⟩)
  simp only [List.length_cons, List.length_append] at hl
  have := h.used
  omega

/-- A write to the link of a block on no list. -/
theorem setNext (h : Lists p captured fr lo xs cap) {b : Blk} (hn : b ∉ fr ++ lo ++ xs ++ cap)
    (v : Option Blk) :
    Lists { p with next := Function.update p.next b v } captured fr lo xs cap := by
  simp only [List.mem_append, not_or] at hn
  exact ⟨h.free.update hn.1.1.1, h.localFree.update hn.1.1.2, h.queue.update hn.1.2,
    h.captured.update hn.2, h.nodup, h.lt, h.used, h.capacity_le⟩

/-- The head word is exchanged for a block linked in front of it. -/
theorem push (h : Lists p captured fr lo xs cap) {b : Blk} (hb : b < p.capacity)
    (hn : b ∉ fr ++ lo ++ xs ++ cap) (hl : p.next b = p.xthreadFree.block) (owned : Bool) :
    Lists { p with xthreadFree := ⟨some b, owned⟩ } captured fr lo (b :: xs) cap := by
  refine ⟨h.free, h.localFree, ⟨rfl, hl ▸ h.queue⟩, h.captured, ?_, ?_, h.used, h.capacity_le⟩
  · have := h.nodup
    grind
  · intro c hc
    rcases eq_or_ne c b with rfl | hcb
    · exact hb
    · exact h.lt c (by grind)

/-- The head word is exchanged for an empty one. -/
theorem capture (h : Lists p captured fr lo xs []) (owned : Bool) :
    Lists { p with xthreadFree := ⟨none, owned⟩ } p.xthreadFree.block fr lo [] xs := by
  refine ⟨h.free, h.localFree, rfl, h.queue, ?_, ?_, h.used, h.capacity_le⟩
  · simpa using h.nodup
  · simpa using h.lt

/-- Only the ownership bit of the head word changes. -/
theorem setOwned (h : Lists p captured fr lo xs cap) {owned : Bool} :
    Lists { p with xthreadFree := ⟨p.xthreadFree.block, owned⟩ } captured fr lo xs cap :=
  ⟨h.free, h.localFree, h.queue, h.captured, h.nodup, h.lt, h.used, h.capacity_le⟩

theorem clearZero (h : Lists p captured fr lo xs cap) :
    Lists { p with freeIsZero := false } captured fr lo xs cap :=
  ⟨h.free, h.localFree, h.queue, h.captured, h.nodup, h.lt, h.used, h.capacity_le⟩

/-- A round of the splicing loop moves the first captured block to `free`. -/
theorem splice {tf : Blk} (h : Lists p captured fr lo xs (tf :: cap)) :
    Lists (p.splice tf).2 (p.splice tf).1 (tf :: fr) lo xs cap := by
  have hlen := h.length_le
  have hused := h.used
  have hnd := h.nodup
  have hmem : tf ∉ fr ∧ tf ∉ lo ∧ tf ∉ xs ∧ tf ∉ cap := by grind
  refine ⟨h.free.push hmem.1, h.localFree.update hmem.2.1, h.queue.update hmem.2.2.1,
    h.captured.2.update hmem.2.2.2, ?_, ?_, ?_, h.capacity_le⟩
  · grind
  · intro b hb
    exact h.lt b (by grind)
  · simp only [Page.splice, List.length_cons] at hlen ⊢
    omega

/-- `local_free` goes in front of `free`. -/
theorem adoptLocal (h : Lists p captured fr lo xs cap) :
    Lists p.adoptLocal captured (lo ++ fr) [] xs cap := by
  have hnd := h.nodup
  have hnd' : (lo ++ fr ++ [] ++ xs ++ cap).Nodup := by grind
  have hlt' : ∀ b : ℕ, b ∈ lo ++ fr ++ [] ++ xs ++ cap → b < p.capacity :=
    fun b hb => h.lt b (by grind)
  have hused : p.used + (lo ++ fr).length + ([] : List Blk).length = p.capacity := by
    have := h.used
    simp only [List.length_append, List.length_nil]
    omega
  have hlo := h.localFree
  unfold Page.adoptLocal
  split
  · next hnone =>
    rw [hnone, Chain.none_iff] at hlo
    subst hlo
    exact ⟨h.free, hnone, h.queue, h.captured, hnd', hlt', hused, h.capacity_le⟩
  · next lf hsome =>
    rw [hsome] at hlo
    split
    · next hnone =>
      have hfr := h.free
      rw [hnone, Chain.none_iff] at hfr
      subst hfr
      exact ⟨by simpa using hlo, rfl, h.queue, h.captured, hnd', hlt', hused, h.capacity_le⟩
    · next b hb =>
      -- the walk to the end of `local_free` finds its last block
      obtain ⟨l, rfl, hl⟩ := hlo.of_some
      have hlen : l.length ≤ p.capacity := by
        have := h.length_le
        simp only [List.length_cons] at this
        omega
      have hlast := lastOf_eq hlo hlen
      have hsplit := List.dropLast_append_getLast (l := lf :: l) (by simp)
      set last := (lf :: l).getLast (by simp) with hlastdef
      have hin : last ∈ lf :: l := List.getLast_mem (by simp)
      have hmem : last ∉ fr ∧ last ∉ xs ∧ last ∉ cap := by grind
      simp only [hlast]
      refine ⟨?_, rfl, h.queue.update hmem.2.1, h.captured.update hmem.2.2, hnd', hlt', hused,
        h.capacity_le⟩
      have := Chain.append (l := (lf :: l).dropLast) (b := last) (hsplit.symm ▸ hlo) h.free
        (hsplit.symm ▸ (by grind)) hmem.1
      rwa [hsplit] at this

/-- The head of `free` is handed out. -/
theorem pop {b : Blk} (h : Lists p captured fr lo xs cap) (hb : p.free = some b) :
    ∃ fr', fr = b :: fr' ∧ Lists (p.pop b) captured fr' lo xs cap := by
  have hfr := h.free
  rw [hb] at hfr
  obtain ⟨fr', rfl, hfr'⟩ := hfr.of_some
  refine ⟨fr', rfl, hfr', h.localFree, h.queue, h.captured, ?_, ?_, ?_, h.capacity_le⟩
  · have := h.nodup
    grind
  · exact fun c hc => h.lt c (by grind)
  · have := h.used
    simp only [Page.pop, List.length_cons] at this ⊢
    omega

/-- A block on no list goes on `local_free`. -/
theorem freeLocal {b : Blk} (h : Lists p captured fr lo xs cap) (hb : b < p.capacity)
    (hn : b ∉ fr ++ lo ++ xs ++ cap) :
    Lists (p.freeLocal b) captured fr (b :: lo) xs cap := by
  have hpos := h.used_pos hb hn
  have hnd := h.nodup
  have hused := h.used
  have hmem : b ∉ fr ∧ b ∉ lo ∧ b ∉ xs ∧ b ∉ cap := by grind
  refine ⟨h.free.update hmem.1, h.localFree.push hmem.2.1, h.queue.update hmem.2.2.1,
    h.captured.update hmem.2.2.2, ?_, ?_, ?_, h.capacity_le⟩
  · grind
  · intro c hc
    rcases eq_or_ne c b with rfl | hcb
    · exact hb
    · exact h.lt c (by grind)
  · simp only [Page.freeLocal, List.length_cons]
    omega

/-! ## Extension -/

/-- The blocks `[c, c + n)` are linked in front of a list that holds none of them. -/
theorem threadBlocks_spec {c n : ℕ} {next : Blk → Option Blk} {head : Option Blk} {l : List Blk}
    (hl : Chain next head l) (hout : ∀ b : ℕ, b ∈ l → b < c ∨ c + n ≤ b) :
    Chain (Page.threadBlocks c n next head).1 (Page.threadBlocks c n next head).2
        (List.range' c n ++ l) ∧
      ∀ b : ℕ, b < c ∨ c + n ≤ b → (Page.threadBlocks c n next head).1 b = next b := by
  induction n generalizing next head l with
  | zero => exact ⟨by simpa [Page.threadBlocks] using hl, fun _ _ => rfl⟩
  | succ n ih =>
    have hnot : c + n ∉ l := fun hmem => by
      have := hout _ hmem
      omega
    obtain ⟨hchain, hrest⟩ := ih (hl.push hnot) (fun b hb => by
      rcases List.mem_cons.mp hb with rfl | hb
      · exact Or.inr le_rfl
      · have := hout b hb
        omega)
    refine ⟨?_, fun b hb => ?_⟩
    · rw [List.range'_1_concat, List.append_assoc]
      exact hchain
    · rw [Page.threadBlocks, hrest b (by omega), Function.update_of_ne (by omega : (b : ℕ) ≠ c + n)]

/-- The number of blocks that `extend_free` adds. -/
def extended (p : Page) : ℕ := if p.reserved ≤ p.capacity then 0 else p.extendCount

/-- Fresh blocks go in front of `free`, in the order of their addresses. -/
theorem extendFree (h : Lists p captured fr lo xs cap) :
    Lists p.extendFree captured (List.range' p.capacity (extended p) ++ fr) lo xs cap ∧
      p.extendFree.capacity = p.capacity + extended p := by
  have hcap := h.capacity_le
  unfold Page.extendFree extended
  split
  · exact ⟨by simpa using h, rfl⟩
  · next hlt =>
    set n := p.extendCount with hn
    have hle : p.capacity + n ≤ p.reserved := by
      have : n ≤ p.reserved - p.capacity := min_le_left _ _
      omega
    have hold : ∀ {l : List Blk}, (∀ b ∈ l, b ∈ fr ++ lo ++ xs ++ cap) →
        ∀ b : ℕ, b ∈ l → b < p.capacity ∨ p.capacity + n ≤ b := fun hl b hb => Or.inl (h.lt b (hl b hb))
    obtain ⟨hchain, hrest⟩ := threadBlocks_spec (n := n) h.free (hold (by grind))
    have hkeep : ∀ {q : Option Blk} {l : List Blk}, (∀ b ∈ l, b ∈ fr ++ lo ++ xs ++ cap) →
        Chain p.next q l → Chain (Page.threadBlocks p.capacity n p.next p.free).1 q l :=
      fun hl hc => hc.congr fun b hb => hrest b (hold hl b hb)
    refine ⟨⟨hchain, hkeep (by grind) h.localFree, hkeep (by grind) h.queue,
      hkeep (by grind) h.captured, ?_, ?_, ?_, hle⟩, rfl⟩
    · have hnd := h.nodup
      have hfresh : ∀ b ∈ List.range' p.capacity n, b ∉ fr ++ lo ++ xs ++ cap := fun b hb hm => by
        have := h.lt b hm
        have := (List.mem_range'_1.mp hb).1
        omega
      have hrange : (List.range' p.capacity n).Nodup := List.nodup_range'
      simp only [List.append_assoc] at hnd hfresh ⊢
      exact List.nodup_append'.mpr ⟨hrange, hnd, fun b hb hb' => hfresh b hb hb'⟩
    · intro b hb
      simp only [List.append_assoc, List.mem_append, List.mem_range'_1] at hb
      have := h.lt b
      grind
    · have := h.used
      simp only [List.length_append, List.length_range']
      omega

/-! ## The partial collect -/

/-- What is queued behind `head` goes to the owner's lists, `head` stays queued. -/
theorem collectBehind {head : Blk} {pre rest : List Blk}
    (h : Lists p captured fr lo (pre ++ head :: rest) cap) :
    ∃ fr' lo', Lists (p.collectBehind head) captured fr' lo' (pre ++ [head]) cap ∧
      (fr' ++ lo').Perm (fr ++ (rest ++ lo)) := by
  have hnd := h.nodup
  have hbehind := h.queue.behind
  unfold Page.collectBehind
  split
  · next hnone =>
    rw [hnone, Chain.none_iff] at hbehind
    subst hbehind
    exact ⟨fr, lo, h, by simp⟩
  · next b hb =>
    rw [hb] at hbehind
    obtain ⟨l, rfl, -⟩ := hbehind.of_some
    have hmem : head ∉ fr ∧ head ∉ lo ∧ head ∉ pre ∧ head ∉ b :: l ∧ head ∉ cap := by grind
    have hnd' : (fr ++ (b :: l ++ lo) ++ (pre ++ [head]) ++ cap).Nodup := by
      refine List.Perm.nodup_iff (List.perm_iff_count.mpr fun c => ?_) |>.mp hnd
      simp only [List.count_append, List.count_cons, List.count_nil]
      omega
    -- the queue is cut behind `head`, and the walk finds the end of what was behind it
    have hcut := h.queue.cut (by grind)
    have hmoved := hbehind.update (v := none) hmem.2.2.2.1
    have hlen : l.length ≤ p.capacity := by
      have := h.length_le
      simp only [List.length_append, List.length_cons] at this
      omega
    have hlast := lastOf_eq hmoved hlen
    have hwalk := walkLength_eq hmoved hlen
    have hsplit := List.dropLast_append_getLast (l := b :: l) (by simp)
    set last := (b :: l).getLast (by simp) with hlastdef
    have hin : last ∈ b :: l := List.getLast_mem (by simp)
    have hlastmem : last ∉ fr ∧ last ∉ lo ∧ last ∉ pre ++ [head] ∧ last ∉ cap := by grind
    have hmoved' : Chain (Function.update p.next head none) (some b)
        ((b :: l).dropLast ++ last :: []) := hsplit.symm ▸ hmoved
    have hlo := hmoved'.append (h.localFree.update (v := none) hmem.2.1)
      (hsplit.symm ▸ (by grind)) hlastmem.2.1
    rw [hsplit] at hlo
    have hq : Lists { p with
        next := Function.update (Function.update p.next head none) last p.localFree
        localFree := some b
        used := p.used - (l.length + 1) } captured fr (b :: l ++ lo) (pre ++ [head]) cap := by
      refine ⟨(h.free.update hmem.1).update hlastmem.1, hlo, hcut.update hlastmem.2.2.1,
        (h.captured.update hmem.2.2.2.2).update hlastmem.2.2.2, hnd',
        fun c hc => h.lt c (by grind), ?_, h.capacity_le⟩
      have hlen := h.length_le
      have hused := h.used
      simp only [List.length_append, List.length_cons] at hlen ⊢
      omega
    simp only [hlast, hwalk]
    split
    · next hnone =>
      have hfr : Chain _ p.free fr := h.free
      rw [show p.free = none from hnone, Chain.none_iff] at hfr
      subst hfr
      exact ⟨b :: l ++ lo, [], ⟨hq.localFree, rfl, hq.queue, hq.captured, by simpa using hq.nodup,
        by simpa using hq.lt, by simpa using hq.used, hq.capacity_le⟩, by simp⟩
    · exact ⟨fr, b :: l ++ lo, hq, by simp⟩

/-! ## What stays as it is -/

/-- The last block of a non-empty chain of the page is found by the walk of `collect`. -/
theorem lastOf_mem {next : Blk → Option Blk} {h : Option Blk} {b : Blk} {l : List Blk} {n : ℕ}
    (hl : Chain next h l) (hb : h = some b) (hn : l.length ≤ n + 1) : lastOf next n b ∈ l := by
  subst hb
  obtain ⟨l, rfl, hl'⟩ := hl.of_some
  rw [lastOf_eq ⟨rfl, hl'⟩ (by simpa using hn)]
  exact List.getLast_mem _

theorem adoptLocal_next (h : Lists p captured fr lo xs cap) {b : Blk} (hb : b ∉ lo) :
    p.adoptLocal.next b = p.next b := by
  have hlen := h.length_le
  unfold Page.adoptLocal
  split
  · rfl
  · next lf hlf =>
    split
    · rfl
    · have hlast := lastOf_mem h.localFree hlf (n := p.capacity) (by omega)
      have hne : b ≠ lastOf p.next p.capacity lf := fun heq => hb (heq ▸ hlast)
      simp [hne]

theorem extendFree_next (h : Lists p captured fr lo xs cap) {b : Blk} (hb : b < p.capacity) :
    p.extendFree.next b = p.next b := by
  unfold Page.extendFree
  split
  · rfl
  · refine (threadBlocks_spec (l := fr) h.free fun c hc => Or.inl ?_).2 b (Or.inl hb)
    exact h.lt c (by simp [hc])

/-- The last block queued behind `head`, which the partial collect links to `local_free`. -/
theorem lastOf_behind_mem {head c : Blk} {pre rest : List Blk}
    (h : Lists p captured fr lo (pre ++ head :: rest) cap) (hc : p.next head = some c) :
    lastOf (Function.update p.next head none) p.capacity c ∈ rest := by
  have hnd := h.nodup
  have hlen := h.length_le
  simp only [List.length_append, List.length_cons] at hlen
  exact lastOf_mem (h.queue.behind.update (b := head) (v := none) (by grind)) hc (by omega)

theorem collectBehind_next {head : Blk} {pre rest : List Blk}
    (h : Lists p captured fr lo (pre ++ head :: rest) cap) {b : Blk} (hb : b ∉ head :: rest) :
    (p.collectBehind head).next b = p.next b := by
  simp only [List.mem_cons, not_or] at hb
  obtain ⟨hne, hb⟩ := hb
  unfold Page.collectBehind
  split
  · rfl
  · next c hc =>
    have hlast : b ≠ lastOf (Function.update p.next head none) p.capacity c :=
      fun heq => hb (heq ▸ h.lastOf_behind_mem hc)
    dsimp only
    split <;> simp [hlast, hne]

theorem adoptLocal_xthreadFree : p.adoptLocal.xthreadFree = p.xthreadFree := by
  unfold Page.adoptLocal
  split
  · rfl
  · split <;> rfl

theorem extendFree_xthreadFree : p.extendFree.xthreadFree = p.xthreadFree := by
  unfold Page.extendFree
  split <;> rfl

theorem collectBehind_xthreadFree {head : Blk} :
    (p.collectBehind head).xthreadFree = p.xthreadFree := by
  unfold Page.collectBehind
  split
  · rfl
  · dsimp only
    split <;> rfl

/-- The fields that the owner's code leaves alone. -/
structure SameFields (p q : Page) : Prop where
  xthreadId : q.xthreadId = p.xthreadId
  reserved : q.reserved = p.reserved
  freeIsZero : q.freeIsZero = true → p.freeIsZero = true

theorem adoptLocal_sameFields : SameFields p p.adoptLocal := by
  unfold Page.adoptLocal
  split
  · exact ⟨rfl, rfl, id⟩
  · split <;> exact ⟨rfl, rfl, fun h => by cases h⟩

theorem extendFree_sameFields : SameFields p p.extendFree := by
  unfold Page.extendFree
  split <;> exact ⟨rfl, rfl, id⟩

theorem collectBehind_sameFields {head : Blk} : SameFields p (p.collectBehind head) := by
  unfold Page.collectBehind
  split
  · exact ⟨rfl, rfl, id⟩
  · dsimp only
    split <;> exact ⟨rfl, rfl, id⟩

theorem adoptLocal_used : p.adoptLocal.used = p.used := by
  unfold Page.adoptLocal
  split
  · rfl
  · split <;> rfl

theorem extendFree_used : p.extendFree.used = p.used := by
  unfold Page.extendFree
  split <;> rfl

theorem adoptLocal_capacity : p.adoptLocal.capacity = p.capacity := by
  unfold Page.adoptLocal
  split
  · rfl
  · split <;> rfl

theorem collectBehind_capacity {head : Blk} :
    (p.collectBehind head).capacity = p.capacity := by
  unfold Page.collectBehind
  split
  · rfl
  · dsimp only
    split <;> rfl

end Lists

end MimallocRs
