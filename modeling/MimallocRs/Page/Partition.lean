import MimallocRs.Page.Lists
import MimallocRs.Page.Shared

/-!
# Where the blocks of a page are

`Partition s fr lo` is the part of the page invariant that speaks of blocks: the memory of the page
spells out `free` as `fr`, `local_free` as `lo`, the cross-thread list as the queue of the history
and the chain being spliced as the captured list of the history; a block is on one of these lists
once, or outstanding, and never both. Each event that moves a block has one lemma here.
-/

namespace MimallocRs

open Interleave

variable {Tid : Type}

/-- The blocks below `capacity` are outstanding or on a list, each in one place. -/
structure Partition (s : Shared Tid) (fr lo : List Blk) : Prop where
  lists : Lists s.page s.captured.head? fr lo s.queue s.captured
  live_nodup : s.live.Nodup
  out_lt : ∀ b : ℕ, s.Outstanding b → b < s.page.capacity
  out_off : ∀ b, s.Outstanding b → b ∉ fr ++ lo ++ s.queue ++ s.captured
  freeing_live : ∀ t b, s.freeing t = some b → b ∉ s.live
  freeing_inj : ∀ t u b, s.freeing t = some b → s.freeing u = some b → t = u
  cover : ∀ b : ℕ, b < s.page.capacity → s.Outstanding b ∨ b ∈ fr ++ lo ++ s.queue ++ s.captured

namespace Partition

variable {s : Shared Tid} {fr lo : List Blk} {t : Tid} {b : Blk}

/-- The blocks of a state depend on the lists and on who frees what. -/
theorem of_lists {s' : Shared Tid} {fr' lo' : List Blk} (h : Partition s fr lo)
    (hl : Lists s'.page s'.captured.head? fr' lo' s'.queue s'.captured)
    (hcap : s'.page.capacity = s.page.capacity) (hlive : s'.live = s.live)
    (hfreeing : s'.freeing = s.freeing)
    (hperm : ∀ b, b ∈ fr' ++ lo' ++ s'.queue ++ s'.captured ↔
      b ∈ fr ++ lo ++ s.queue ++ s.captured) : Partition s' fr' lo' := by
  have hout : ∀ b, s'.Outstanding b ↔ s.Outstanding b := fun b => by
    simp only [Shared.Outstanding, hlive, hfreeing]
  exact {
    lists := hl
    live_nodup := hlive ▸ h.live_nodup
    out_lt := fun b hb => hcap ▸ h.out_lt b ((hout b).mp hb)
    out_off := fun b hb hm => h.out_off b ((hout b).mp hb) ((hperm b).mp hm)
    freeing_live := hlive ▸ hfreeing ▸ h.freeing_live
    freeing_inj := hfreeing ▸ h.freeing_inj
    cover := fun b hb => (h.cover b (hcap ▸ hb)).imp (hout b).mpr (hperm b).mpr }

/-- A thread that frees `b` writes its link. -/
theorem setNext (h : Partition s fr lo) (hb : s.freeing t = some b) (v : Option Blk) :
    Partition { s with page := { s.page with next := Function.update s.page.next b v } } fr lo :=
  h.of_lists (h.lists.setNext (h.out_off b (Or.inr ⟨t, hb⟩)) v) rfl rfl rfl fun _ => Iff.rfl

/-! ## Counting -/

/-- A page that is not all free, while nothing is captured, has a block that is outstanding or
queued. -/
theorem exists_of_used (h : Partition s fr lo) (hc : s.captured = []) (hused : s.page.used ≠ 0) :
    ∃ b, s.Outstanding b ∨ b ∈ s.queue := by
  by_contra hno
  push Not at hno
  have hsub : Finset.range s.page.capacity ⊆ (fr ++ lo).toFinset := fun b hb => by
    have := h.cover b (Finset.mem_range.mp hb)
    simp only [hc, List.mem_append, List.not_mem_nil, or_false] at this
    have := hno b
    simp only [List.mem_toFinset, List.mem_append]
    tauto
  have hcard := (Finset.card_le_card hsub).trans (List.toFinset_card_le _)
  rw [Finset.card_range, List.length_append] at hcard
  have := h.lists.used
  omega

/-! ## The owner's moves -/

/-- A successful capture. -/
theorem capture (h : Partition s fr lo) (hc : s.captured = []) (owned : Bool) :
    Partition (s.setWord ⟨none, owned⟩).capture fr lo := by
  have hl := h.lists
  rw [hc] at hl
  refine h.of_lists ?_ rfl rfl rfl fun b => by simp [hc, Shared.capture, Shared.setWord]
  have hhead : s.page.xthreadFree.block = s.queue.head? := by
    have hq := hl.queue
    cases hs : s.queue with
    | nil => simpa [hs] using hq
    | cons b l => simpa [hs] using (hs ▸ hq : Chain _ _ (b :: l)).1
  exact hhead ▸ hl.capture owned

/-- Only the ownership bit changes. -/
theorem setOwned (h : Partition s fr lo) (owned : Bool) :
    Partition (s.setWord ⟨s.page.xthreadFree.block, owned⟩) fr lo :=
  h.of_lists h.lists.setOwned rfl rfl rfl fun _ => Iff.rfl

/-- A captured block goes on `free`. -/
theorem splice {tf : Blk} {l : List Blk} (h : Partition s fr lo) (hc : s.captured = tf :: l) :
    (s.page.splice tf).1 = l.head? ∧
      Partition { s with page := (s.page.splice tf).2, captured := s.captured.tail }
        (tf :: fr) lo := by
  have hl := h.lists
  rw [hc] at hl
  have hnext : (s.page.splice tf).1 = l.head? := by
    have hcap : Chain s.page.next (s.page.next tf) l := hl.captured.2
    cases l with
    | nil => exact hcap
    | cons b l => exact hcap.1
  refine ⟨hnext, h.of_lists ?_ rfl rfl rfl fun b => by simp [hc]; tauto⟩
  simp only [hc, List.tail_cons]
  exact hnext ▸ hl.splice

/-- `local_free` goes on `free`. -/
theorem adoptLocal (h : Partition s fr lo) :
    Partition { s with page := s.page.adoptLocal } (lo ++ fr) [] :=
  h.of_lists h.lists.adoptLocal Lists.adoptLocal_capacity rfl rfl fun b => by
    simp only [List.mem_append, List.not_mem_nil]
    tauto

/-- Fresh blocks go on `free`. -/
theorem extendFree (h : Partition s fr lo) :
    Partition { s with page := s.page.extendFree }
      (List.range' s.page.capacity (Lists.extended s.page) ++ fr) lo := by
  obtain ⟨hl, hcap⟩ := h.lists.extendFree
  have hle : s.page.capacity ≤ s.page.extendFree.capacity := by omega
  exact {
    lists := hl
    live_nodup := h.live_nodup
    out_lt := fun b hb => (h.out_lt b hb).trans_le hle
    out_off := fun b hb hm => by
      have hlt := h.out_lt b hb
      simp only [List.append_assoc, List.mem_append, List.mem_range'_1] at hm
      rcases hm with hm | hm
      · omega
      · exact h.out_off b hb (by simpa only [List.append_assoc, List.mem_append] using hm)
    freeing_live := h.freeing_live
    freeing_inj := h.freeing_inj
    cover := fun b hb => by
      by_cases hlt : b < s.page.capacity
      · exact (h.cover b hlt).imp_right fun hm => by
          simp only [List.append_assoc, List.mem_append] at hm ⊢
          exact Or.inr hm
      · right
        have hb : b < s.page.extendFree.capacity := hb
        simp only [List.append_assoc, List.mem_append, List.mem_range'_1]
        exact Or.inl ⟨by omega, by omega⟩ }

/-- The head of `free` is handed out: it was on no other list and not outstanding. -/
theorem pop (h : Partition s fr lo) (hb : s.page.free = some b) :
    ¬ s.Outstanding b ∧ ∃ fr', fr = b :: fr' ∧
      Partition { s with page := s.page.pop b, live := b :: s.live } fr' lo := by
  obtain ⟨fr', rfl, hl⟩ := h.lists.pop hb
  have hnot : ¬ s.Outstanding b := fun hout => h.out_off b hout (by simp)
  have hoff : b ∉ fr' ++ lo ++ s.queue ++ s.captured :=
    (List.nodup_cons.mp (by simpa using h.lists.nodup)).1
  have hlt : b < s.page.capacity := h.lists.lt b (by simp)
  have hsplit : ∀ c, Shared.Outstanding { s with page := s.page.pop b, live := b :: s.live } c ↔
      c = b ∨ s.Outstanding c := fun c => by
    simp only [Shared.Outstanding, List.mem_cons, or_assoc]
  refine ⟨hnot, fr', rfl, ?_⟩
  exact {
    lists := hl
    live_nodup := List.nodup_cons.mpr ⟨fun hm => hnot (Or.inl hm), h.live_nodup⟩
    out_lt := fun c hc => by
      rcases (hsplit c).mp hc with rfl | hc
      · exact hlt
      · exact h.out_lt c hc
    out_off := fun c hc => by
      rcases (hsplit c).mp hc with rfl | hc
      · exact hoff
      · exact fun hm => h.out_off c hc (by simpa using Or.inr hm)
    freeing_live := fun u c hu hm => by
      rcases List.mem_cons.mp hm with rfl | hm
      · exact hnot (Or.inr ⟨u, hu⟩)
      · exact h.freeing_live u c hu hm
    freeing_inj := h.freeing_inj
    cover := fun c hc => by
      rw [hsplit]
      rcases eq_or_ne c b with rfl | hcb
      · exact Or.inl (Or.inl rfl)
      · exact (h.cover c hc).imp Or.inr fun hm => by simpa [hcb] using hm }

/-- What is queued behind the block `head` goes to the owner's lists. -/
theorem collectBehind {head : Blk} (h : Partition s fr lo) (hb : head ∈ s.queue)
    (tested : Tid → Bool) :
    ∃ fr' lo', Partition { s with
      page := s.page.collectBehind head
      queue := s.queue.takeWhile (· ≠ head) ++ [head]
      tested := tested } fr' lo' := by
  obtain ⟨pre, rest, hq, hpre⟩ := List.eq_append_cons_of_mem hb
  have htake : s.queue.takeWhile (· ≠ head) = pre := by
    rw [hq, List.takeWhile_append_of_pos (fun c hc => by
      simpa using fun hch : c = head => hpre (hch ▸ hc))]
    simp
  have hl := h.lists
  rw [hq] at hl
  obtain ⟨fr', lo', hl', hperm⟩ := hl.collectBehind
  refine ⟨fr', lo', h.of_lists (htake ▸ hl') Lists.collectBehind_capacity rfl rfl fun b => ?_⟩
  have hmem : b ∈ fr' ++ lo' ↔ b ∈ fr ++ (rest ++ lo) := hperm.mem_iff
  show b ∈ fr' ++ lo' ++ (s.queue.takeWhile (· ≠ head) ++ [head]) ++ s.captured ↔ _
  rw [htake, hq]
  simp only [List.mem_append, List.mem_cons, List.not_mem_nil] at hmem ⊢
  tauto

/-- The links of blocks that are not queued stay as they are. -/
theorem collectBehind_next {head b : Blk} (h : Partition s fr lo) (hhead : head ∈ s.queue)
    (hb : b ∉ s.queue) : (s.page.collectBehind head).next b = s.page.next b := by
  obtain ⟨pre, rest, hq, -⟩ := List.eq_append_cons_of_mem hhead
  have hl := h.lists
  rw [hq] at hl hb
  exact hl.collectBehind_next fun hm => hb (List.mem_append_right pre hm)

/-! ## Freeing a block -/

variable [DecidableEq Tid]

/-- Once `t` has put its block on a list, the other blocks are outstanding as before. -/
theorem outstanding_freed (h : Partition s fr lo) (hb : s.freeing t = some b) (s' : Shared Tid)
    (hlive : s'.live = s.live) (hfreeing : s'.freeing = Function.update s.freeing t none) (c : Blk) :
    s'.Outstanding c ↔ s.Outstanding c ∧ c ≠ b := by
  simp only [Shared.Outstanding, hlive, hfreeing]
  constructor
  · rintro (hc | ⟨u, hu⟩)
    · exact ⟨Or.inl hc, fun hcb => h.freeing_live t b hb (hcb ▸ hc)⟩
    · have hut : u ≠ t := by
        rintro rfl
        simp at hu
      rw [Function.update_of_ne hut] at hu
      exact ⟨Or.inr ⟨u, hu⟩, fun hcb => hut (h.freeing_inj u t b (hcb ▸ hu) hb)⟩
  · rintro ⟨hc | ⟨u, hu⟩, hcb⟩
    · exact Or.inl hc
    · have hut : u ≠ t := by
        rintro rfl
        exact hcb (Option.some.inj (hu.symm.trans hb))
      exact Or.inr ⟨u, by rwa [Function.update_of_ne hut]⟩

/-- A block that is being freed goes on a list. -/
theorem of_freed {s' : Shared Tid} {fr' lo' : List Blk} (h : Partition s fr lo)
    (hb : s.freeing t = some b)
    (hl : Lists s'.page s'.captured.head? fr' lo' s'.queue s'.captured)
    (hcap : s'.page.capacity = s.page.capacity) (hlive : s'.live = s.live)
    (hfreeing : s'.freeing = Function.update s.freeing t none)
    (hperm : ∀ c, c ∈ fr' ++ lo' ++ s'.queue ++ s'.captured ↔
      c = b ∨ c ∈ fr ++ lo ++ s.queue ++ s.captured) : Partition s' fr' lo' := by
  have hout := h.outstanding_freed hb s' hlive hfreeing
  have hmono : ∀ u c, s'.freeing u = some c → s.freeing u = some c := fun u c hu => by
    rw [hfreeing] at hu
    by_cases hut : u = t
    · subst hut
      simp at hu
    · rwa [Function.update_of_ne hut] at hu
  exact {
    lists := hl
    live_nodup := hlive ▸ h.live_nodup
    out_lt := fun c hc => hcap ▸ h.out_lt c ((hout c).mp hc).1
    out_off := fun c hc hm => by
      obtain ⟨hc, hcb⟩ := (hout c).mp hc
      exact h.out_off c hc (((hperm c).mp hm).resolve_left hcb)
    freeing_live := fun u c hu => hlive ▸ h.freeing_live u c (hmono u c hu)
    freeing_inj := fun u v c hu hv => h.freeing_inj u v c (hmono u c hu) (hmono v c hv)
    cover := fun c hc => by
      rw [hperm, hout]
      rcases eq_or_ne c b with rfl | hcb
      · exact Or.inr (Or.inl rfl)
      · exact (h.cover c (hcap ▸ hc)).imp (⟨·, hcb⟩) Or.inr }

/-- A successful push. -/
theorem push (h : Partition s fr lo) (hb : s.freeing t = some b)
    (hl : s.page.next b = s.page.xthreadFree.block) (owned : Bool) :
    Partition ((s.setWord ⟨some b, owned⟩).publish t b) fr lo :=
  have hout : s.Outstanding b := Or.inr ⟨t, hb⟩
  h.of_freed hb (h.lists.push (h.out_lt b hout) (h.out_off b hout) hl owned) rfl rfl rfl fun c => by
    simp only [Shared.publish, Shared.setWord, List.mem_append, List.mem_cons]
    tauto

/-- The owner puts the block it frees on `local_free`. -/
theorem freeLocal (h : Partition s fr lo) (hb : s.freeing t = some b) (tested : Tid → Bool) :
    Partition { s with
      page := s.page.freeLocal b
      freeing := Function.update s.freeing t none
      tested := tested } fr (b :: lo) :=
  have hout : s.Outstanding b := Or.inr ⟨t, hb⟩
  h.of_freed hb (h.lists.freeLocal (h.out_lt b hout) (h.out_off b hout)) rfl rfl rfl fun c => by
    simp only [List.mem_append, List.mem_cons]
    tauto

/-- Taking a live block to free it leaves the same blocks outstanding. -/
theorem outstanding_take {s' : Shared Tid} (h : Partition s fr lo) (hidle : s.freeing t = none)
    (ht : s.take t b = some s') (c : Blk) : s'.Outstanding c ↔ s.Outstanding c := by
  unfold Shared.take at ht
  split at ht
  · next hb =>
    cases ht
    simp only [Shared.Outstanding, h.live_nodup.mem_erase_iff]
    constructor
    · rintro (⟨-, hc⟩ | ⟨u, hu⟩)
      · exact Or.inl hc
      · by_cases hut : u = t
        · subst hut
          simp only [Function.update_self, Option.some.injEq] at hu
          exact Or.inl (hu ▸ hb)
        · exact Or.inr ⟨u, by rwa [Function.update_of_ne hut] at hu⟩
    · rintro (hc | ⟨u, hu⟩)
      · rcases eq_or_ne c b with rfl | hcb
        · exact Or.inr ⟨t, by simp⟩
        · exact Or.inl ⟨hcb, hc⟩
      · have hut : u ≠ t := by
          rintro rfl
          rw [hidle] at hu
          cases hu
        exact Or.inr ⟨u, by rwa [Function.update_of_ne hut]⟩
  · cases ht

/-- A live block is taken to be freed. -/
theorem take {s' : Shared Tid} (h : Partition s fr lo) (hidle : s.freeing t = none)
    (ht : s.take t b = some s') : Partition s' fr lo := by
  have hsame := h.outstanding_take hidle ht
  unfold Shared.take at ht
  split at ht
  · next hb =>
    cases ht
    have hcases : ∀ u c, Function.update s.freeing t (some b) u = some c →
        (u = t ∧ c = b) ∨ (u ≠ t ∧ s.freeing u = some c) := fun u c hu => by
      by_cases hut : u = t
      · subst hut
        simp only [Function.update_self, Option.some.injEq] at hu
        exact Or.inl ⟨rfl, hu.symm⟩
      · rw [Function.update_of_ne hut] at hu
        exact Or.inr ⟨hut, hu⟩
    have hother : ∀ u, s.freeing u ≠ some b := fun u hu => h.freeing_live u b hu hb
    exact {
      lists := h.lists
      live_nodup := h.live_nodup.erase b
      out_lt := fun c hc => h.out_lt c ((hsame c).mp hc)
      out_off := fun c hc => h.out_off c ((hsame c).mp hc)
      freeing_live := fun u c hu hm => by
        rw [h.live_nodup.mem_erase_iff] at hm
        rcases hcases u c hu with ⟨-, rfl⟩ | ⟨-, hu⟩
        · exact hm.1 rfl
        · exact h.freeing_live u c hu hm.2
      freeing_inj := fun u v c hu hv => by
        rcases hcases u c hu with ⟨hut, hcb⟩ | ⟨-, hu⟩ <;>
          rcases hcases v c hv with ⟨hvt, hcb'⟩ | ⟨-, hv⟩
        · rw [hut, hvt]
        · exact absurd (hcb ▸ hv) (hother v)
        · exact absurd (hcb' ▸ hu) (hother u)
        · exact h.freeing_inj u v c hu hv
      cover := fun c hc => (h.cover c hc).imp_left (hsame c).mpr }
  · cases ht

end Partition

end MimallocRs
