import MimallocRs.Page.Lists
import MimallocRs.Page.Prog
import MimallocRs.Foundations.Interleave.Alone

/-!
# A page used by one call at a time

The page functions as they run while no other thread touches the page: no compare-exchange fails.
`Blocks s captured fr lo xs cap` is the state of the free lists together with the history of the
blocks handed out: every threaded block is either live or on exactly one list. Each page function
has a specification over it, which says what becomes of the live blocks. A page is full when all the
blocks it can ever hold are live; that is what `is_full` answers (`isFull_ends`), and `alloc` serves
a block of every page that is not full (`alloc_ends`).
-/

namespace MimallocRs

open Interleave Prog

/-- A page and the history of its blocks. -/
structure LivePage where
  page : Page
  /-- History: the blocks handed out and not freed. -/
  live : Finset Blk

namespace LivePage

/-- The events on a page. A block that is queued or put on `local_free` is no longer live. The page
has no part in being registered, unregistered or released. -/
def exec {β : Type} (e : PageAct β) (s : LivePage) : Option (β × LivePage) :=
  match e with
  | .load => some (s.page.xthreadFree, s)
  | .cas _ e n =>
    if s.page.xthreadFree = e then
      some (true, ⟨{ s.page with xthreadFree := n }, n.block.elim s.live s.live.erase⟩)
    else some (false, s)
  | .setNext b n => some ((), { s with page := { s.page with next := Function.update s.page.next b n } })
  | .loadId => some (s.page.xthreadId, s)
  | .casId e n =>
    if s.page.xthreadId = e then some (none, { s with page := { s.page with xthreadId := n } })
    else some (some s.page.xthreadId, s)
  | .free => some (s.page.free, s)
  | .isAllFree => some (s.page.used == 0, s)
  | .usedIsOne => some (s.page.used == 1, s)
  | .atCapacity => some (s.page.atCapacity, s)
  | .clearZero => some ((), { s with page := { s.page with freeIsZero := false } })
  | .splice tf => some ((s.page.splice tf).1, { s with page := (s.page.splice tf).2 })
  | .adoptLocal => some ((), { s with page := s.page.adoptLocal })
  | .extendFree => some ((), { s with page := s.page.extendFree })
  | .pop b => some ((), ⟨s.page.pop b, insert b s.live⟩)
  | .freeLocal b => some ((), ⟨s.page.freeLocal b, s.live.erase b⟩)
  | .collectBehind head => some ((), { s with page := s.page.collectBehind head })
  | .register | .unregister | .release => none

/-- The free lists of a page as lists, and its live blocks. -/
structure Blocks (s : LivePage) (captured : Option Blk) (fr lo xs cap : List Blk) : Prop where
  lists : Lists s.page captured fr lo xs cap
  live : ∀ b : ℕ, b ∈ s.live ↔ b < s.page.capacity ∧ b ∉ fr ++ lo ++ xs ++ cap

/-- All blocks that the page can ever hold are live. -/
def Full (s : LivePage) : Prop := s.live = Finset.range s.page.reserved

instance (s : LivePage) : Decidable s.Full := inferInstanceAs (Decidable (_ = _))

/-- What the calls of the owner leave alone. -/
structure Kept (s s' : LivePage) : Prop where
  blockSize : s'.page.blockSize = s.page.blockSize
  reserved : s'.page.reserved = s.page.reserved
  xthreadId : s'.page.xthreadId = s.page.xthreadId
  owned : s'.page.xthreadFree.owned = s.page.xthreadFree.owned

theorem Kept.refl (s : LivePage) : Kept s s := ⟨rfl, rfl, rfl, rfl⟩

theorem Kept.trans {s s' s'' : LivePage} (h : Kept s s') (h' : Kept s' s'') : Kept s s'' :=
  ⟨h'.blockSize.trans h.blockSize, h'.reserved.trans h.reserved, h'.xthreadId.trans h.xthreadId,
    h'.owned.trans h.owned⟩

variable {s : LivePage} {captured : Option Blk} {fr lo xs cap : List Blk}

namespace Blocks

theorem lt_reserved (h : Blocks s captured fr lo xs cap) {b : Blk} (hb : b ∈ s.live) :
    b < s.page.reserved :=
  Nat.lt_of_lt_of_le ((h.live b).mp hb).1 h.lists.capacity_le

theorem notMem (h : Blocks s captured fr lo xs cap) {b : Blk} (hb : b ∈ s.live) :
    b ∉ fr ++ lo ++ xs ++ cap :=
  ((h.live b).mp hb).2

/-- `used` counts the live blocks and those that are queued or captured. -/
theorem used_eq (h : Blocks s captured fr lo xs cap) :
    s.page.used = s.live.card + xs.length + cap.length := by
  have hlive : s.live = Finset.range s.page.capacity \ (fr ++ lo ++ xs ++ cap).toFinset := by
    ext b
    rw [h.live b, Finset.mem_sdiff, Finset.mem_range, List.mem_toFinset]
  have hsub : (fr ++ lo ++ xs ++ cap).toFinset ⊆ Finset.range s.page.capacity := by
    intro b hb
    exact Finset.mem_range.mpr (h.lists.lt b (List.mem_toFinset.mp hb))
  have hcard := Finset.card_sdiff_add_card_eq_card hsub
  rw [← hlive, Finset.card_range, List.toFinset_card_of_nodup h.lists.nodup] at hcard
  have hused := h.lists.used
  simp only [List.length_append] at hcard
  omega

/-- A page is full if it has no block left on a list and none to thread. -/
theorem full_iff (h : Blocks s captured fr lo xs cap) :
    s.Full ↔ fr ++ lo ++ xs ++ cap = [] ∧ s.page.capacity = s.page.reserved := by
  have hcap := h.lists.capacity_le
  constructor
  · intro hfull
    have hall : ∀ b : ℕ, b < s.page.reserved → b ∈ s.live := by
      intro b hb
      rw [hfull]
      exact Finset.mem_range.mpr hb
    constructor
    · rw [List.eq_nil_iff_forall_not_mem]
      intro b hb
      have hlt := h.lists.lt b hb
      exact h.notMem (hall b (by omega)) hb
    · by_contra hne
      have hlt := ((h.live s.page.capacity).mp (hall _ (by omega))).1
      omega
  · rintro ⟨hnil, hcapacity⟩
    ext b
    rw [h.live b, hnil, hcapacity, Finset.mem_range]
    simp

end Blocks

end LivePage

/-- A page used by one thread. -/
def pageMachine : Machine PageAct Unit LivePage where
  exec _ e s _ := s.exec e

/-- Every execution of a page program comes to an end. -/
abbrev PageEnds {α : Type} (p : Prog PageAct α) (s : LivePage) (Q : α → LivePage → Prop) : Prop :=
  Ends pageMachine () False p s Q

variable {s : LivePage} {captured : Option Blk} {fr lo xs cap : List Blk} {α β : Type}

theorem PageEnds.act {e : PageAct β} {k : β → Prog PageAct α} {Q : α → LivePage → Prop} {b : β}
    {s' : LivePage} (he : s.exec e = some (b, s')) (h : PageEnds (k b) s' Q) :
    PageEnds (.act e k) s Q := by
  apply Ends.act
  · intro choice hnone
    cases he.symm.trans hnone
  · intro choice b' s'' hsome
    cases he.symm.trans hsome
    exact h

/-- A compare-exchange that finds the expected word. -/
theorem PageEnds.cas {weak : Bool} {e n : Tf} {k : Bool → Prog PageAct α} {Q : α → LivePage → Prop}
    (he : s.page.xthreadFree = e)
    (h : PageEnds (k true) ⟨{ s.page with xthreadFree := n }, n.block.elim s.live s.live.erase⟩ Q) :
    PageEnds (.act (.cas weak e n) k) s Q :=
  PageEnds.act (if_pos he) h

theorem PageEnds.casFails {weak : Bool} {e n : Tf} {k : Bool → Prog PageAct α}
    {Q : α → LivePage → Prop} (he : s.page.xthreadFree ≠ e) (h : PageEnds (k false) s Q) :
    PageEnds (.act (.cas weak e n) k) s Q :=
  PageEnds.act (if_neg he) h

theorem PageEnds.casId {e n : ℕ} {k : Option ℕ → Prog PageAct α} {Q : α → LivePage → Prop}
    (he : s.page.xthreadId = e)
    (h : PageEnds (k none) ⟨{ s.page with xthreadId := n }, s.live⟩ Q) :
    PageEnds (.act (.casId e n) k) s Q :=
  PageEnds.act (if_pos he) h

namespace Page

open LivePage

/-! ## Collecting -/

/-- The word of the cross-thread list is exchanged for an empty one, and the queue captured. -/
theorem capture_ends (h : Blocks s none fr lo xs []) :
    PageEnds capture s fun r s' => Blocks s' r fr lo [] xs ∧ Kept s s' ∧ s'.live = s.live ∧
      s'.page.capacity = s.page.capacity := by
  simp only [capture, iterate, Prog.bind_eq, Prog.pure_eq, Prog.perform_bind]
  apply Ends.loop_once
  apply PageEnds.act rfl
  have hqueue := h.lists.queue
  split
  · next hnone =>
    rw [hnone, Chain.none_iff] at hqueue
    subst hqueue
    exact Ends.ret (Ends.ret ⟨h, Kept.refl s, rfl, rfl⟩)
  · next tf htf =>
    apply PageEnds.cas rfl
    apply Ends.ret
    apply Ends.ret
    have hlists := h.lists.capture s.page.xthreadFree.owned
    rw [htf] at hlists
    refine ⟨⟨hlists, fun b => ?_⟩, ⟨rfl, rfl, rfl, rfl⟩, rfl, rfl⟩
    have hlive := h.live b
    simpa using hlive

/-- The captured blocks are moved to `free`. -/
theorem spliceAll_ends {tf : Blk} {l : List Blk} (h : Blocks s (some tf) fr lo xs (tf :: l)) :
    PageEnds (spliceAll tf) s fun _ s' => ∃ fr', Blocks s' none fr' lo xs [] ∧ Kept s s' ∧
      s'.live = s.live ∧ s'.page.capacity = s.page.capacity := by
  simp only [spliceAll, iterate, Prog.bind_eq, Prog.pure_eq, Prog.perform_bind]
  induction l generalizing s tf fr with
  | nil =>
    have hlists := h.lists.splice
    have hnone : (s.page.splice tf).1 = none := hlists.captured
    rw [hnone] at hlists
    apply Ends.loop_once
    apply PageEnds.act rfl
    rw [hnone]
    apply Ends.ret
    apply Ends.ret
    refine ⟨tf :: fr, ⟨hlists, fun b => ?_⟩, ⟨rfl, rfl, rfl, rfl⟩, rfl, rfl⟩
    have hlive := h.live b
    rw [hlive]
    simp only [List.mem_append, List.mem_cons, List.not_mem_nil]
    tauto
  | cons c l ih =>
    have hlists := h.lists.splice
    have hsome := hlists.captured.head_eq
    rw [List.head?_cons] at hsome
    rw [hsome] at hlists
    apply Ends.loop
    apply Ends.bind
    apply PageEnds.act rfl
    rw [hsome]
    apply Ends.ret
    have hblocks : Blocks { s with page := (s.page.splice tf).2 } (some c) (tf :: fr) lo xs
        (c :: l) := by
      refine ⟨hlists, fun b => ?_⟩
      have hlive := h.live b
      rw [hlive]
      simp only [List.mem_append, List.mem_cons]
      tauto
    apply (ih hblocks).mono
    rintro _ s' ⟨fr', hb, hkept, hlive, hcap⟩
    have hmoved : Kept s { s with page := (s.page.splice tf).2 } := ⟨rfl, rfl, rfl, rfl⟩
    exact ⟨fr', hb, hmoved.trans hkept, hlive, hcap⟩

/-- `local_free` is put in front of `free`. -/
theorem adoptLocal_blocks (h : Blocks s none fr lo xs []) :
    Blocks { s with page := s.page.adoptLocal } none (lo ++ fr) [] xs [] ∧
      Kept s { s with page := s.page.adoptLocal } := by
  constructor
  · refine ⟨h.lists.adoptLocal, fun b => ?_⟩
    show b ∈ s.live ↔ b < s.page.adoptLocal.capacity ∧ _
    rw [h.live b, Lists.adoptLocal_capacity]
    simp only [List.mem_append, List.not_mem_nil]
    tauto
  · have hsame := Lists.adoptLocal_sameFields (p := s.page)
    have hsize : s.page.adoptLocal.blockSize = s.page.blockSize := by
      unfold adoptLocal
      split
      · rfl
      · split <;> rfl
    exact ⟨hsize, hsame.reserved, hsame.xthreadId, by rw [Lists.adoptLocal_xthreadFree]⟩

/-- **A collect leaves every block that is not live on `free`.** -/
theorem collect_ends (h : Blocks s none fr lo xs []) :
    PageEnds collect s fun _ s' => ∃ fr', Blocks s' none fr' [] [] [] ∧ Kept s s' ∧
      s'.live = s.live ∧ s'.page.capacity = s.page.capacity := by
  have adopt : ∀ s₁ fr₁, Blocks s₁ none fr₁ lo [] [] → Kept s s₁ → s₁.live = s.live →
      s₁.page.capacity = s.page.capacity → PageEnds (perform .adoptLocal) s₁ fun _ s' =>
        ∃ fr', Blocks s' none fr' [] [] [] ∧ Kept s s' ∧ s'.live = s.live ∧
          s'.page.capacity = s.page.capacity := by
    intro s₁ fr₁ h₁ hkept hlive hcap
    apply PageEnds.act rfl
    apply Ends.ret
    obtain ⟨hblocks, hkept'⟩ := adoptLocal_blocks h₁
    exact ⟨_, hblocks, hkept.trans hkept', hlive, Lists.adoptLocal_capacity.trans hcap⟩
  simp only [collect, Prog.bind_eq, Prog.perform_bind]
  apply Ends.bind
  apply (capture_ends h).mono
  rintro r s₁ ⟨h₁, hkept, hlive, hcap⟩
  cases r with
  | none =>
    have hnil := h₁.lists.captured
    rw [Chain.none_iff] at hnil
    subst hnil
    exact adopt s₁ fr h₁ hkept hlive hcap
  | some tf =>
    obtain ⟨l, rfl, -⟩ := h₁.lists.captured.of_some
    apply PageEnds.act rfl
    apply Ends.bind
    have hclear : Blocks { s₁ with page := { s₁.page with freeIsZero := false } } (some tf) fr lo [] (tf :: l) :=
      ⟨h₁.lists.clearZero, h₁.live⟩
    apply (spliceAll_ends hclear).mono
    rintro _ s₂ ⟨fr', h₂, hkept₂, hlive₂, hcap₂⟩
    have hcleared : Kept s₁ { s₁ with page := { s₁.page with freeIsZero := false } } := ⟨rfl, rfl, rfl, rfl⟩
    exact adopt s₂ fr' h₂ ((hkept.trans hcleared).trans hkept₂) (hlive₂.trans hlive)
      (hcap₂.trans hcap)

/-! ## Allocating -/

/-- What `is_full` and `alloc` leave of the lists. -/
def Tidy (s s' : LivePage) : Prop :=
  (∃ fr lo xs, Blocks s' none fr lo xs []) ∧ Kept s s' ∧ s.page.capacity ≤ s'.page.capacity

/-- `is_full` tells whether all blocks of the page are live. -/
theorem isFull_ends (h : Blocks s none fr lo xs []) :
    PageEnds isFull s fun r s' => Tidy s s' ∧ s'.live = s.live ∧ (r = true ↔ s.Full) := by
  have room : ∀ {s₁ : LivePage} {fr₁ lo₁ xs₁ : List Blk} {b : Blk}, s₁.page.free = some b →
      Blocks s₁ none fr₁ lo₁ xs₁ [] → Kept s s₁ → s₁.live = s.live → ¬ s.Full := by
    intro s₁ fr₁ lo₁ xs₁ b hb h₁ hkept hlive hfull
    have hfull₁ : s₁.Full := by
      unfold Full
      rw [hlive, hkept.reserved]
      exact hfull
    have hchain := h₁.lists.free
    rw [hb] at hchain
    obtain ⟨l, rfl, -⟩ := hchain.of_some
    cases (h₁.full_iff.mp hfull₁).1
  simp only [isFull, Prog.bind_eq, Prog.pure_eq, Prog.perform_bind]
  apply PageEnds.act rfl
  split
  · next b hb =>
    apply Ends.ret
    exact ⟨⟨⟨fr, lo, xs, h⟩, Kept.refl s, le_rfl⟩, rfl,
      iff_of_false Bool.false_ne_true (room hb h (Kept.refl s) rfl)⟩
  · apply Ends.bind
    apply (collect_ends h).mono
    rintro _ s₁ ⟨fr₁, h₁, hkept, hlive, hcap⟩
    have htidy : Tidy s s₁ := ⟨⟨fr₁, [], [], h₁⟩, hkept, hcap.ge⟩
    apply PageEnds.act rfl
    split
    · next b hb =>
      apply Ends.ret
      exact ⟨htidy, hlive, iff_of_false Bool.false_ne_true (room hb h₁ hkept hlive)⟩
    · next hnone =>
      apply PageEnds.act rfl
      apply Ends.ret
      refine ⟨htidy, hlive, ?_⟩
      have hchain := h₁.lists.free
      rw [hnone, Chain.none_iff] at hchain
      have hfull : s.Full ↔ s₁.Full := by
        unfold Full
        rw [hlive, hkept.reserved]
      have hle := h₁.lists.capacity_le
      rw [hfull, h₁.full_iff, hchain, atCapacity, decide_eq_true_eq]
      simp only [List.append_nil, true_and]
      omega

theorem pop_ends {b : Blk} {s₀ : LivePage} (h : Blocks s none fr lo xs []) (hb : s.page.free = some b)
    (hkept : Kept s₀ s) (hcap : s₀.page.capacity ≤ s.page.capacity) (hlive : s.live = s₀.live) :
    PageEnds (.act (.pop b) fun _ => .ret (some b)) s fun r s' => Tidy s₀ s' ∧
      match r with
      | none => s₀.Full ∧ s'.live = s₀.live
      | some b => b ∉ s₀.live ∧ b < s₀.page.reserved ∧ s'.live = insert b s₀.live := by
  obtain ⟨fr', rfl, hlists⟩ := h.lists.pop hb
  have hnotlive : b ∉ s.live := by
    intro hbl
    exact h.notMem hbl (by simp)
  have hlt : b < s.page.capacity := h.lists.lt b (by simp)
  apply PageEnds.act rfl
  apply Ends.ret
  refine ⟨⟨⟨fr', lo, xs, hlists, fun c => ?_⟩, hkept.trans ⟨rfl, rfl, rfl, rfl⟩, hcap⟩, ?_⟩
  · have hnodup := h.lists.nodup
    have hlivec := h.live c
    show c ∈ insert b s.live ↔ c < s.page.capacity ∧ _
    rw [Finset.mem_insert, hlivec]
    simp only [List.cons_append, List.nodup_cons, List.mem_cons, not_or] at hnodup ⊢
    rcases eq_or_ne c b with rfl | hne
    · exact iff_of_true (Or.inl rfl) ⟨hlt, hnodup.1⟩
    · simp [hne]
  · rw [← hlive]
    refine ⟨hnotlive, ?_, rfl⟩
    rw [← hkept.reserved]
    exact Nat.lt_of_lt_of_le hlt h.lists.capacity_le

/-- **`alloc` serves a block of every page that is not full.** -/
theorem alloc_ends (h : Blocks s none fr lo xs []) :
    PageEnds alloc s fun r s' => Tidy s s' ∧
      match r with
      | none => s.Full ∧ s'.live = s.live
      | some b => b ∉ s.live ∧ b < s.page.reserved ∧ s'.live = insert b s.live := by
  simp only [alloc, allocSlow, Prog.bind_eq, Prog.pure_eq, Prog.perform_bind]
  apply PageEnds.act rfl
  split
  · apply Ends.bind
    apply (collect_ends h).mono
    rintro _ s₁ ⟨fr₁, h₁, hkept, hlive, hcap⟩
    apply PageEnds.act rfl
    split
    · next b hb => exact pop_ends h₁ hb hkept hcap.ge hlive
    · next hnone =>
      have hchain := h₁.lists.free
      rw [hnone, Chain.none_iff] at hchain
      subst hchain
      obtain ⟨hext, hextcap⟩ := h₁.lists.extendFree
      rw [List.append_nil] at hext
      -- the blocks that are threaded have not been handed out
      have h₂ : Blocks { s₁ with page := s₁.page.extendFree } none
          (List.range' s₁.page.capacity (Lists.extended s₁.page)) [] [] [] := by
        refine ⟨hext, fun b => ?_⟩
        show b ∈ s₁.live ↔ b < s₁.page.extendFree.capacity ∧ _
        rw [h₁.live b, hextcap]
        simp only [List.append_nil, List.not_mem_nil, not_false_eq_true, and_true,
          List.mem_range'_1, not_and, not_lt]
        omega
      have hkept₂ : Kept s { s₁ with page := s₁.page.extendFree } := by
        have hsame := Lists.extendFree_sameFields (p := s₁.page)
        have hsize : s₁.page.extendFree.blockSize = s₁.page.blockSize := by
          unfold extendFree
          split <;> rfl
        exact hkept.trans ⟨hsize, hsame.reserved, hsame.xthreadId,
          by rw [Lists.extendFree_xthreadFree]⟩
      have hcap₂ : s.page.capacity ≤ s₁.page.extendFree.capacity := by
        rw [hextcap, hcap]
        exact Nat.le_add_right _ _
      apply PageEnds.act rfl
      apply PageEnds.act rfl
      split
      · next hnone₂ =>
        apply Ends.ret
        refine ⟨⟨⟨_, _, _, h₂⟩, hkept₂, hcap₂⟩, ?_, hlive⟩
        have hchain₂ := h₂.lists.free
        have hnone₂ : s₁.page.extendFree.free = none := hnone₂
        rw [hnone₂, Chain.none_iff] at hchain₂
        -- nothing was threaded, so all blocks were
        have hext0 : Lists.extended s₁.page = 0 := by
          have hlen := congrArg List.length hchain₂
          simpa using hlen
        have hfull : s₁.Full := by
          rw [h₁.full_iff]
          refine ⟨rfl, ?_⟩
          have hle := h₁.lists.capacity_le
          unfold Lists.extended extendCount at hext0
          split at hext0
          · omega
          · omega
        unfold Full at hfull ⊢
        rwa [hlive, hkept.reserved] at hfull
      · next b hb => exact pop_ends h₂ hb hkept₂ hcap₂ hlive
  · next b hb => exact pop_ends h hb (Kept.refl s) le_rfl rfl

/-! ## Freeing -/

/-- The owner frees a live block. -/
theorem freeLocal_blocks {b : Blk} (h : Blocks s none fr lo xs []) (hb : b ∈ s.live) :
    Blocks ⟨s.page.freeLocal b, s.live.erase b⟩ none fr (b :: lo) xs [] ∧
      Kept s ⟨s.page.freeLocal b, s.live.erase b⟩ := by
  have hlt := ((h.live b).mp hb).1
  refine ⟨⟨h.lists.freeLocal hlt (h.notMem hb), fun c => ?_⟩, ⟨rfl, rfl, rfl, rfl⟩⟩
  have hlive := h.live c
  show c ∈ s.live.erase b ↔ c < s.page.capacity ∧ _
  rw [Finset.mem_erase, hlive]
  simp only [List.mem_append, List.mem_cons, not_or]
  tauto

/-- A queued block is not live. -/
theorem erase_queued (h : Blocks s none fr lo xs []) :
    s.page.xthreadFree.block.elim s.live s.live.erase = s.live := by
  have hqueue := h.lists.queue
  cases hb : s.page.xthreadFree.block with
  | none => rfl
  | some b =>
    rw [hb] at hqueue
    obtain ⟨l, rfl, -⟩ := hqueue.of_some
    apply Finset.erase_eq_of_notMem
    intro hlive
    exact h.notMem hlive (by simp)

/-- A live block is pushed on the cross-thread list, and the page is owned afterwards. -/
theorem threadFreePush_ends {b : Blk} (h : Blocks s none fr lo xs []) (hb : b ∈ s.live) :
    PageEnds (threadFreePush b) s fun r s' => r = !s.page.xthreadFree.owned ∧
      Blocks s' none fr lo (b :: xs) [] ∧ s'.live = s.live.erase b ∧
      s'.page.xthreadFree = ⟨some b, true⟩ ∧ s'.page.blockSize = s.page.blockSize ∧
      s'.page.reserved = s.page.reserved ∧ s'.page.xthreadId = s.page.xthreadId ∧
      s'.page.capacity = s.page.capacity := by
  have hlt := ((h.live b).mp hb).1
  have hlists := (h.lists.setNext (h.notMem hb) s.page.xthreadFree.block).push
    hlt (h.notMem hb) (Function.update_self ..) true
  simp only [threadFreePush, iterate, Prog.bind_eq, Prog.pure_eq, Prog.perform_bind]
  apply Ends.loop_once
  apply PageEnds.act rfl
  apply PageEnds.act rfl
  refine PageEnds.cas ?_ ?_
  · rfl
  apply Ends.ret
  apply Ends.ret
  refine ⟨rfl, ⟨hlists, fun c => ?_⟩, rfl, rfl, rfl, rfl, rfl, rfl⟩
  have hlive := h.live c
  show c ∈ s.live.erase b ↔ c < s.page.capacity ∧ _
  rw [Finset.mem_erase, hlive]
  simp only [List.mem_append, List.mem_cons, not_or]
  tauto

/-! ## Ownership -/

/-- The page with another ownership bit. -/
def withOwned (s : LivePage) (owned : Bool) : LivePage :=
  { s with page := { s.page with xthreadFree := ⟨s.page.xthreadFree.block, owned⟩ } }

theorem withOwned_blocks {owned : Bool} (h : Blocks s none fr lo xs []) :
    Blocks (withOwned s owned) none fr lo xs [] :=
  ⟨h.lists.setOwned, h.live⟩

theorem casOwned_ends {weak owned : Bool} {k : Bool → Prog PageAct α} {Q : α → LivePage → Prop}
    (h : Blocks s none fr lo xs []) (hk : PageEnds (k true) (withOwned s owned) Q) :
    PageEnds (.act (.cas weak s.page.xthreadFree ⟨s.page.xthreadFree.block, owned⟩) k) s Q := by
  apply PageEnds.cas rfl
  rwa [erase_queued h]

/-- Ownership of a page is claimed, unless it is owned. -/
theorem claimOwnership_ends (h : Blocks s none fr lo xs []) :
    PageEnds claimOwnership s fun r s' => r = !s.page.xthreadFree.owned ∧
      s' = withOwned s true := by
  simp only [claimOwnership, iterate, Prog.bind_eq, Prog.pure_eq, Prog.perform_bind]
  apply Ends.loop_once
  apply PageEnds.act rfl
  cases howned : s.page.xthreadFree.owned with
  | true =>
    rw [if_pos rfl]
    apply Ends.ret
    apply Ends.ret
    have hself : s = withOwned s true := by
      unfold withOwned
      rw [← howned]
    exact ⟨rfl, hself⟩
  | false =>
    rw [if_neg Bool.false_ne_true]
    apply casOwned_ends h
    apply Ends.ret
    exact Ends.ret ⟨rfl, rfl⟩

/-- Ownership is given up. -/
theorem setUnowned_ends (h : Blocks s none fr lo xs []) :
    PageEnds setUnowned s fun _ s' => s' = withOwned s false := by
  simp only [setUnowned, iterate, Prog.bind_eq, Prog.pure_eq, Prog.perform_bind]
  apply Ends.loop_once
  apply PageEnds.act rfl
  apply casOwned_ends h
  apply Ends.ret
  exact Ends.ret rfl

/-- Ownership is given up if nothing is queued. -/
theorem tryUnown_ends (howned : s.page.xthreadFree.owned = true) :
    PageEnds tryUnown s fun r s' => (r = true ↔ s.page.xthreadFree.block = none) ∧
      s' = if r then withOwned s false else s := by
  have hword : s.page.xthreadFree = ⟨none, true⟩ ↔ s.page.xthreadFree.block = none := by
    cases hw : s.page.xthreadFree with
    | mk block owned =>
      rw [hw] at howned
      cases howned
      simp
  by_cases hblock : s.page.xthreadFree.block = none
  · apply PageEnds.cas (hword.mpr hblock)
    apply Ends.ret
    refine ⟨iff_of_true rfl hblock, ?_⟩
    unfold withOwned
    rw [hblock]
    rfl
  · apply PageEnds.casFails (mt hword.mp hblock)
    apply Ends.ret
    exact ⟨iff_of_false Bool.false_ne_true hblock, rfl⟩

/-- The owner id is restamped, the flags are kept. -/
theorem setOwner_ends {tid : ℕ} :
    PageEnds (setOwner tid) s fun _ s' =>
      s' = { s with page := { s.page with
        xthreadId := tid + s.page.xthreadId % (miPageFlagMask + 1) } } := by
  simp only [setOwner, iterate, Prog.bind_eq, Prog.pure_eq, Prog.perform_bind]
  apply PageEnds.act rfl
  apply Ends.loop_once
  apply PageEnds.casId rfl
  apply Ends.ret
  exact Ends.ret rfl

theorem isAbandonedMapped_ends :
    PageEnds isAbandonedMapped s fun r s' => s' = s ∧ (r = true ↔
      s.page.xthreadId - s.page.xthreadId % (miPageFlagMask + 1) = miThreadidAbandonedMapped) := by
  simp only [isAbandonedMapped, Prog.bind_eq, Prog.pure_eq, Prog.perform_bind]
  apply PageEnds.act rfl
  exact Ends.ret ⟨rfl, beq_iff_eq⟩

/-! ## The partial collect -/

/-- After a partial collect at most the head is still queued, and only if other blocks are live. -/
theorem collectPartly_ends {b : Blk} (h : Blocks s none fr lo (b :: xs) []) :
    PageEnds (collectPartly b) s fun _ s' => (∃ fr' lo' xs', Blocks s' none fr' lo' xs' [] ∧
      (s.live = ∅ → xs' = [])) ∧ Kept s s' ∧ s'.live = s.live ∧
      s.page.capacity ≤ s'.page.capacity := by
  have hbehind : Lists s.page none fr lo ([] ++ b :: xs) [] := h.lists
  obtain ⟨fr₁, lo₁, hlists, hperm⟩ := hbehind.collectBehind
  have h₁ : Blocks { s with page := s.page.collectBehind b } none fr₁ lo₁ [b] [] := by
    refine ⟨hlists, fun c => ?_⟩
    show c ∈ s.live ↔ c < (s.page.collectBehind b).capacity ∧ _
    rw [h.live c, Lists.collectBehind_capacity]
    have hmem := hperm.mem_iff (a := c)
    simp only [List.mem_append, List.mem_cons, List.not_mem_nil, or_false] at hmem ⊢
    tauto
  have hkept : Kept s { s with page := s.page.collectBehind b } := by
    have hsame : Lists.SameFields s.page (s.page.collectBehind b) := Lists.collectBehind_sameFields
    have hsize : (s.page.collectBehind b).blockSize = s.page.blockSize := by
      unfold collectBehind
      split
      · rfl
      · dsimp only
        split <;> rfl
    exact ⟨hsize, hsame.reserved, hsame.xthreadId, by rw [Lists.collectBehind_xthreadFree]⟩
  have hcap : (s.page.collectBehind b).capacity = s.page.capacity := Lists.collectBehind_capacity
  have hused := h₁.used_eq
  simp only [collectPartly, Prog.bind_eq, Prog.pure_eq, Prog.perform_bind]
  apply PageEnds.act rfl
  apply PageEnds.act rfl
  split
  · apply (collect_ends h₁).mono
    rintro _ s' ⟨fr', h', hkept', hlive, hcap'⟩
    exact ⟨⟨fr', [], [], h', fun _ => rfl⟩, hkept.trans hkept', hlive, (hcap'.trans hcap).ge⟩
  · next hne =>
    apply Ends.ret
    refine ⟨⟨fr₁, lo₁, [b], h₁, fun hempty => ?_⟩, hkept, rfl, hcap.ge⟩
    rw [beq_iff_eq, hused] at hne
    simp [hempty] at hne

end Page

end MimallocRs
