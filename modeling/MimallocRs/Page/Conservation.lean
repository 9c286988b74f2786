import MimallocRs.Page.Runs

/-!
# Blocks and ownership over all runs of a page

Two consequences of the invariant of a page, for any number of threads and any order of their
steps. `page_blocks_conserved`: a block below `capacity` is in exactly one of five places, `used`
counts the blocks that the owner has not got back, and a block that is handed out was in nobody's
hands. `page_ownership_exclusive`: every change of the ownership bit from clear to set is reported
to exactly one caller, and no change of the word loses or repeats a queued block.
-/

namespace MimallocRs

open Interleave

variable {Tid : Type} [DecidableEq Tid]

/-! ## The places of a block -/

/-- How often block `b` occurs in the five places a block can be in: in somebody's hands, on
`free`, on `local_free`, on the cross-thread list, in a captured chain. -/
noncomputable def Shared.places (s : Shared Tid) (fr lo : List Blk) (b : Blk) : ℕ :=
  open Classical in
  (if s.Outstanding b then 1 else 0) + fr.count b + lo.count b + s.queue.count b +
    s.captured.count b

section Places

omit [DecidableEq Tid]

variable {s : Shared Tid} {fr lo : List Blk}

theorem Partition.places_eq (h : Partition s fr lo) (b : Blk) :
    s.places fr lo b = if b < s.page.capacity then 1 else 0 := by
  have hsum : (fr ++ lo ++ s.queue ++ s.captured).count b =
      fr.count b + lo.count b + s.queue.count b + s.captured.count b := by
    simp only [List.count_append]
  unfold Shared.places
  by_cases ho : s.Outstanding b
  · have hzero := List.count_eq_zero.mpr (h.out_off b ho)
    rw [if_pos ho, if_pos (h.out_lt b ho)]
    omega
  · rw [if_neg ho]
    by_cases hm : b ∈ fr ++ lo ++ s.queue ++ s.captured
    · have hone := List.count_eq_one_of_mem h.lists.nodup hm
      rw [if_pos (h.lists.lt b hm)]
      omega
    · have hzero := List.count_eq_zero.mpr hm
      rw [if_neg fun hb => (h.cover b hb).elim ho hm]
      omega

open Classical in
/-- `used` counts the blocks in somebody's hands, queued or captured. -/
theorem Partition.used_eq (h : Partition s fr lo) :
    s.page.used = ((Finset.range s.page.capacity).filter fun b =>
      s.Outstanding b ∨ b ∈ s.queue ∨ b ∈ s.captured).card := by
  have hsplit : (Finset.range s.page.capacity).filter (fun b =>
      s.Outstanding b ∨ b ∈ s.queue ∨ b ∈ s.captured) =
      Finset.range s.page.capacity \ (fr ++ lo).toFinset := by
    ext b
    have hcover := h.cover b
    have hoff := h.out_off b
    have hnd := h.lists.nodup
    simp only [Finset.mem_filter, Finset.mem_range, Finset.mem_sdiff, List.mem_toFinset,
      List.mem_append] at hcover hoff ⊢
    refine and_congr_right fun hb => ?_
    grind
  have hsub : (fr ++ lo).toFinset ⊆ Finset.range s.page.capacity := fun b hb => by
    have := h.lists.lt b (by simp only [List.mem_append, List.mem_toFinset] at hb ⊢; tauto)
    simpa using this
  have hcard : (fr ++ lo).toFinset.card = fr.length + lo.length := by
    rw [List.toFinset_card_of_nodup, List.length_append]
    exact (List.nodup_append'.mp (List.nodup_append'.mp h.lists.nodup).1).1
  rw [hsplit, Finset.card_sdiff_of_subset hsub, hcard, Finset.card_range]
  have := h.lists.used
  omega

end Places

/-! ## What an allocation returns -/

/-- The block that an event hands out. -/
def PageAct.popped : {β : Type} → PageAct β → Option Blk
  | _, .pop b => some b
  | _, _ => none

/-- A program whose result stands for a block, by `res`, only if its last step has handed that
block out. -/
def HandsOut : {α : Type} → (α → Option Blk) → Prog PageAct α → Prop
  | _, res, .ret a => res a = none
  | _, res, .act e k => e.popped.elim (∀ x, HandsOut res (k x))
      fun b => ∀ x, ∃ a, k x = .ret a ∧ res a = some b
  | _, res, .loop body _ k =>
      (∀ b, (body b).Every fun e => e.popped = none) ∧ ∀ c, HandsOut res (k c)

section HandsOut

variable {α β γ : Type} {res : β → Option Blk}

theorem HandsOut.bind {p : Prog PageAct α} {f : α → Prog PageAct β}
    (hp : p.Every fun e => e.popped = none) (hf : ∀ a, HandsOut res (f a)) :
    HandsOut res (p.bind f) := by
  induction p with
  | ret a => exact hf a
  | act e k ih =>
    simp only [Prog.act_bind, HandsOut, hp.1, Option.elim]
    exact fun x => ih x (hp.2 x) hf
  | loop body b k _ ih => exact ⟨hp.1, fun c => ih c (hp.2 c) hf⟩

theorem HandsOut.unfold {body : α → Prog PageAct (α ⊕ γ)} {b : α} {k : γ → Prog PageAct β}
    (h : HandsOut res (.loop body b k)) : HandsOut res (Prog.unfold body b k) := by
  refine HandsOut.bind (h.1 b) fun r => ?_
  cases r with
  | inl b => exact h
  | inr c => exact h.2 c

end HandsOut

theorem capture_every : Page.capture.Every fun e => e.popped = none := by
  refine ⟨fun _ => ⟨rfl, fun w => ?_⟩, fun _ => trivial⟩
  obtain ⟨_ | tf, o⟩ := w
  · trivial
  · refine ⟨rfl, fun r => ?_⟩
    cases r <;> trivial

theorem collect_every : Page.collect.Every fun e => e.popped = none := by
  simp only [Page.collect, Prog.bind_eq, Prog.perform_bind]
  refine capture_every.bind fun r => ?_
  cases r with
  | none => exact ⟨rfl, fun _ => trivial⟩
  | some tf =>
    refine ⟨rfl, fun _ => Prog.Every.bind ⟨fun tf => ⟨rfl, fun r => ?_⟩, fun _ => trivial⟩ fun _ =>
      ⟨rfl, fun _ => trivial⟩⟩
    cases r <;> trivial

theorem alloc_handsOut : HandsOut id Page.alloc := by
  have hpop : ∀ b, HandsOut id (.act (.pop b) fun _ => .ret (some b)) := fun b _ => ⟨_, rfl, rfl⟩
  simp only [Page.alloc, Page.allocSlow, Prog.bind_eq, Prog.pure_eq, Prog.perform_bind]
  intro v
  cases v with
  | some b => exact hpop b
  | none =>
    refine HandsOut.bind collect_every fun _ v => ?_
    cases v with
    | some b => exact hpop b
    | none =>
      intro _ v
      cases v with
      | some b => exact hpop b
      | none => exact rfl

/-- What is left of a running allocation. -/
def AllocShape : (o : PageOp) → Prog PageAct o.Res → Prop
  | .alloc, p => HandsOut id p ∨ ∃ b, p = .ret (some b)
  | _, _ => True

theorem allocShape_reachable {c : Config PageAct Tid PageOp PageOp.Res (Shared Tid)}
    (h : (pageSystem Tid).Reachable Shared.Init System.anyMove c) :
    ∀ t o p, c.thread t = some ⟨o, p⟩ → AllocShape o p := by
  refine h.prog_invariant (P := AllocShape) (fun t o => ?_) (fun o β e k b hp => ?_)
    fun o β γ body b k hp => ?_ <;> cases o <;> try trivial
  · exact Or.inl alloc_handsOut
  · rcases hp with hp | ⟨b', hp⟩
    · cases hpop : e.popped with
      | none =>
        simp only [HandsOut, hpop, Option.elim] at hp
        exact Or.inl (hp b)
      | some b' =>
        simp only [HandsOut, hpop, Option.elim] at hp
        obtain ⟨a, ha, rfl⟩ := hp b
        exact Or.inr ⟨b', ha⟩
    · cases hp
  · rcases hp with hp | ⟨b', hp⟩
    · exact Or.inl hp.unfold
    · cases hp

/-- The step that makes an allocation's result `some b` hands `b` out. -/
theorem alloc_step {c c' : Config PageAct Tid PageOp PageOp.Res (Shared Tid)}
    (h : (pageSystem Tid).Reachable Shared.Init System.anyMove c) {t : Tid} {choice : ℕ} {b : Blk}
    (hm : (pageSystem Tid).next (.step t choice) c = some c')
    (ht : c'.thread t = some ⟨.alloc, .ret (some b)⟩) :
    c'.mem = { c.mem with page := c.mem.page.pop b, live := b :: c.mem.live } := by
  obtain ⟨o, p, s, p', hp, hs, rfl⟩ := System.next_step hm
  simp only [Function.update_self, Option.some.injEq] at ht
  cases ht
  have hnot : ¬ HandsOut id (.ret (some b) : Prog PageAct (Option Blk)) := fun h => by cases h
  have hshape := allocShape_reachable h t _ _ hp
  cases p with
  | ret a => cases hs
  | act e k =>
    obtain ⟨⟨x, s'⟩, hx, he⟩ := Option.map_eq_some_iff.mp hs
    simp only [Prod.mk.injEq] at he
    obtain ⟨rfl, hk⟩ := he
    obtain hshape | ⟨b', hshape⟩ := hshape
    · cases hpop : e.popped with
      | none =>
        simp only [HandsOut, hpop, Option.elim] at hshape
        exact absurd (hk ▸ hshape x) hnot
      | some b' =>
        simp only [HandsOut, hpop, Option.elim] at hshape
        obtain ⟨a, ha, rfl⟩ := hshape x
        rw [hk] at ha
        cases ha
        cases e <;> cases hpop
        cases hx
        rfl
    · cases hshape
  | loop body b₀ k =>
    simp only [System.advance, Option.some.injEq, Prod.mk.injEq] at hs
    obtain ⟨rfl, hk⟩ := hs
    obtain hshape | ⟨b', hshape⟩ := hshape
    · exact absurd (hk ▸ hshape.unfold) hnot
    · cases hshape

/-! ## The conservation theorem -/

open Classical in
/-- **No block of a page is lost, repeated or handed out twice.** In every reachable
configuration each block below `capacity` is in exactly one place, and no other block is in any;
the captured chain is the one that the holder's collect is splicing; `used` counts the blocks that are in somebody's hands, queued or captured, so that there are none
when it is `0`; a block that an allocation returns was in nobody's hands. -/
theorem page_blocks_conserved {c : Config PageAct Tid PageOp PageOp.Res (Shared Tid)}
    (h : (pageSystem Tid).Reachable Shared.Init System.anyMove c) :
    (∃ fr lo, Chain c.mem.page.next c.mem.page.free fr ∧
      Chain c.mem.page.next c.mem.page.localFree lo ∧
      Chain c.mem.page.next c.mem.page.xthreadFree.block c.mem.queue ∧
      Chain c.mem.page.next c.mem.captured.head? c.mem.captured ∧
      ∀ b, c.mem.places fr lo b = if b < c.mem.page.capacity then 1 else 0) ∧
    (∀ t o tf k, c.thread t = some ⟨o, .act (.splice tf) k⟩ →
      c.mem.holder = some t ∧ c.mem.captured.head? = some tf) ∧
    (c.mem.live.Nodup ∧ (∀ t b, c.mem.freeing t = some b → b ∉ c.mem.live) ∧
      ∀ t u b, c.mem.freeing t = some b → c.mem.freeing u = some b → t = u) ∧
    (c.mem.page.used = ((Finset.range c.mem.page.capacity).filter fun b =>
      c.mem.Outstanding b ∨ b ∈ c.mem.queue ∨ b ∈ c.mem.captured).card) ∧
    (c.mem.page.used = 0 →
      (∀ b, ¬ c.mem.Outstanding b) ∧ c.mem.queue = [] ∧ c.mem.captured = []) ∧
    ∀ t choice c' b, (pageSystem Tid).next (.step t choice) c = some c' →
      c'.thread t = some ⟨.alloc, .ret (some b)⟩ → ¬ c.mem.Outstanding b ∧ b ∈ c'.mem.live := by
  obtain ⟨γ, hi, -⟩ := pageSystem_reachable h
  obtain ⟨fr, lo, hp⟩ := hi.partition
  refine ⟨⟨fr, lo, hp.lists.free, hp.lists.localFree, hp.lists.queue, hp.lists.captured,
    hp.places_eq⟩, fun t o tf k ht => pageSystem_asserts h ht, ⟨hp.live_nodup, hp.freeing_live, hp.freeing_inj⟩, hp.used_eq, fun hused => ?_,
    fun t choice c' b hm ht => ?_⟩
  · have hlt := hp.out_lt
    have hlists := hp.lists.lt
    have hempty := hp.used_eq
    rw [hused, eq_comm, Finset.card_eq_zero, Finset.filter_eq_empty_iff] at hempty
    have hno : ∀ b, b < c.mem.page.capacity → ¬ (c.mem.Outstanding b ∨ b ∈ c.mem.queue ∨
        b ∈ c.mem.captured) := fun b hb => hempty (Finset.mem_range.mpr hb)
    refine ⟨fun b hb => hno b (hlt b hb) (Or.inl hb), ?_, ?_⟩
    · refine List.eq_nil_iff_forall_not_mem.mpr fun b hb => ?_
      exact hno b (hlists b (by simp [hb])) (Or.inr (Or.inl hb))
    · refine List.eq_nil_iff_forall_not_mem.mpr fun b hb => ?_
      exact hno b (hlists b (by simp [hb])) (Or.inr (Or.inr hb))
  · have hmem := alloc_step h hm ht
    obtain ⟨γ', hi', -⟩ := pageSystem_reachable (h.next trivial hm)
    obtain ⟨fr', lo', hp'⟩ := hi'.partition
    have hnd := hp'.live_nodup
    have hfreeing := hp'.freeing_live
    rw [hmem] at hnd hfreeing ⊢
    refine ⟨fun ho => ?_, List.mem_cons_self⟩
    rcases ho with ho | ⟨u, hu⟩
    · exact (List.nodup_cons.mp hnd).1 ho
    · exact hfreeing u b hu List.mem_cons_self

/-- A thread frees the block of a huge page that another thread holds. -/
theorem page_blocks_conserved_push :
    ∃ c, hugeRun [.start false (.push 0), .step false 0, .step false 0, .step false 0,
        .step false 0, .finish false] = some c ∧
      c.mem.queue = [0] ∧ c.mem.page.used = 1 ∧
      ∃ fr lo, ∀ b, c.mem.places fr lo b = if b < c.mem.page.capacity then 1 else 0 := by
  obtain ⟨c, hc⟩ : ∃ c, hugeRun [.start false (.push 0), .step false 0, .step false 0,
      .step false 0, .step false 0, .finish false] = some c := ⟨_, rfl⟩
  obtain ⟨⟨fr, lo, -, -, -, -, h⟩, -⟩ := page_blocks_conserved (hugeRun_reachable hc)
  refine ⟨c, hc, ?_, ?_, fr, lo, h⟩ <;>
  · cases hc
    rfl

end MimallocRs
