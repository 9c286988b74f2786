import MimallocRs.Process.Alloc
import MimallocRs.Process.Fewer

/-!
# Freeing

A pointer into a live block leads to the block it was allocated as: the page map gives the page, and
the address the block. A thread that owns the page puts the block on its local list, and any other
thread on the cross-thread list. If nobody owned the page, that thread has claimed it: it releases
the page if no block is left, and hands it back otherwise (`freeMt_ends`). Either way only that block
stops being live (`free_ends`).
-/

namespace MimallocRs

open Interleave Prog

variable {refuses : Bool} {panics : Prop} {S : Set (PagePtr × Blk)} {A : Set TheapPtr}
  {w w' w'' : Process} {q q' q'' : Queues} {D : Set TheapPtr} {H : Option PagePtr}
  {T : Set (ℕ × ℕ)} {p : PagePtr} {th : TheapPtr} {i b n t : ℕ} {m : LivePage} {α β : Type}
  {blk : Blk} {a : Ptr} {x : PagePtr × Blk} {Q : α → Process → Prop}

/-! ## From an address to a block -/

/-- The block in which an address lies. -/
theorem Process.InBlock.index (ha : w.InBlock a (p, blk)) :
    (a.off - (w.desc p).pageStart) / (w.page p).page.blockSize = blk := by
  have hle : (w.desc p).pageStart + blk * (w.page p).page.blockSize ≤ a.off := ha.le
  have hlt : a.off < (w.desc p).pageStart + (blk + 1) * (w.page p).page.blockSize := ha.lt
  apply Nat.div_eq_of_lt_le
  · omega
  · omega

/-- The start of a block is one. -/
theorem Process.InBlock.offset (ha : w.InBlock a (p, blk)) (hf : (w.page p).flags = 0) :
    (a.off - (w.desc p).pageStart) % (w.page p).page.blockSize = 0 := by
  rw [ha.start hf]
  show ((w.desc p).pageStart + blk * (w.page p).page.blockSize - (w.desc p).pageStart) % _ = 0
  rw [Nat.add_sub_cancel_left, Nat.mul_mod_left]

theorem recoverBlockStart_ends {k : Blk → Prog ProcAct α} (ha : w.InBlock a (p, blk))
    (hk : ProcEnds refuses panics (k blk) w Q) :
    ProcEnds refuses panics ((recoverBlockStart p a).bind k) w Q := by
  simp only [recoverBlockStart, fetch, Prog.bind_eq, Prog.pure_eq, Prog.perform_bind, Prog.act_bind,
    Prog.ret_bind]
  apply ProcEnds.fetch
  apply ProcEnds.fetch
  rwa [ha.index]

theorem blockAt_ends {k : Blk → Prog ProcAct α} (ha : w.InBlock a (p, blk))
    (hf : (w.page p).flags = 0) (hk : ProcEnds refuses panics (k blk) w Q) :
    ProcEnds refuses panics ((blockAt p a).bind k) w Q := by
  simp only [blockAt, fetch, Prog.bind_eq, Prog.pure_eq, Prog.perform_bind, Prog.act_bind]
  apply ProcEnds.fetch
  apply ProcEnds.fetch
  rw [if_pos (ha.offset hf), ha.index]
  exact hk

/-! ## The owner frees -/

theorem LivePage.ownerId_eq (m : LivePage) : m.ownerId = m.page.xthreadId / 4 * 4 := by
  have hdiv := Nat.div_add_mod m.page.xthreadId 4
  unfold ownerId
  simp only [miPageFlagMask]
  omega

/-- A page with the id of a thread is in a queue of one of its theaps. -/
theorem Sound.queued_of_ownerId (h : Sound w q D none T) (hp : p ∈ w.pages)
    (hid : (w.page p).ownerId = currentTid t) :
    p ∈ q (w.theap p) (w.desc p).bin ∧ (w.theap p).thread = t := by
  have ho : (w.page p).Owned := by
    by_contra hno
    have htid : 8 ≤ currentTid t := by
      unfold currentTid
      omega
    rcases (h.abandoned p hp (by simp) hno).1.2 with ⟨hid', -⟩ | ⟨hid', -⟩
    · have hmapped : miThreadidAbandonedMapped = 4 := rfl
      omega
    · have habandoned : miThreadidAbandoned = 0 := rfl
      omega
  have hq := h.owned p hp (by simp) ho
  exact ⟨hq, currentTid_inj ((h.queued _ _ p hq).2.2.ownerId.symm.trans hid)⟩

/-- The owner frees a block, and may retire the page. -/
theorem freeOwned_ends (h : Sound w q D none ∅) (hp : p ∈ q th b) (hb : blk ∈ (w.page p).live) :
    ProcEnds refuses panics (freeOwned p blk) w fun _ w' => ∃ q', Sound w' q' D none ∅ ∧
      (∀ {S A}, th ∈ A → (p, blk) ∉ S → Steps S A w q w' q') ∧ Process.Frees (p, blk) w w' := by
  obtain ⟨hpages, -, hq⟩ := h.queued th b p hp
  have hok := h.pageOk p hpages
  obtain ⟨fr, lo, xs, hblocks⟩ := hok.blocks
  obtain ⟨hblocks', hkept⟩ := Page.freeLocal_blocks hblocks hb
  simp only [freeOwned, Prog.bind_eq, Prog.pure_eq, Prog.perform_bind]
  apply ProcEnds.page rfl
  generalize hm : (⟨(w.page p).page.freeLocal blk, (w.page p).live.erase blk⟩ : LivePage) = m
    at hblocks' hkept
  have hlive : m.live = (w.page p).live.erase blk := by rw [← hm]
  have ht : Page.Tidy (w.page p) m := by
    refine ⟨⟨_, _, _, hblocks'⟩, hkept, ?_⟩
    rw [← hm]
    exact le_rfl
  have h₁ := h.tidy hp ht
  have hsteps : ∀ {S A}, (p, blk) ∉ S → Steps S A w q (w.setPage p m) q := by
    intro S A hS
    apply Steps.setPage
    · intro c hc hl
      rw [hlive]
      refine Finset.mem_erase.mpr ⟨?_, hl⟩
      rintro rfl
      exact hS hc
    · exact hkept.blockSize
    · unfold LivePage.flags
      rw [hkept.xthreadId]
      exact id
  apply ProcEnds.page rfl
  rw [Process.setPage_self]
  have hself : (w.setPage p m).page p = m := w.setPage_page p m
  split
  · next hused =>
    have hempty : ((w.setPage p m).page p).live = ∅ := by
      rw [hself]
      rw [hself] at hused
      exact hblocks'.live_of_used (by simpa using hused)
    apply (retirePage_ends h₁ hp hempty).mono
    rintro _ w' ⟨q', h', hshrinks, -⟩
    exact ⟨q', h', fun hth hS => (hsteps hS).trans (hshrinks.steps hth),
      (Process.Frees.setPage hlive).trans hshrinks.fewer⟩
  · exact Ends.ret ⟨q, h₁, fun _ hS => hsteps hS, .setPage hlive⟩

/-! ## Another thread frees -/

/-- A round of `free_try_collect_mt` leaves nothing queued, unless it collects partly and other
blocks are live. -/
theorem Page.collectRound_ends {fr lo xs : List Blk} {partly : Bool} {s : LivePage}
    (h : s.Blocks none fr lo xs []) (hpartly : partly = true → ∃ xs', xs = blk :: xs') :
    PageEnds (Page.collectRound partly blk) s fun _ s' => (∃ fr' lo' xs',
      s'.Blocks none fr' lo' xs' [] ∧ (s.live = ∅ ∨ partly = false → xs' = [])) ∧ s.Kept s' ∧
        s'.live = s.live ∧ s.page.capacity ≤ s'.page.capacity := by
  unfold Page.collectRound
  cases partly with
  | true =>
    obtain ⟨xs', rfl⟩ := hpartly rfl
    apply (Page.collectPartly_ends h).mono
    rintro _ s' ⟨⟨fr', lo', xs'', hblocks, hempty⟩, hrest⟩
    exact ⟨⟨fr', lo', xs'', hblocks, fun hor => hempty (hor.resolve_right (by simp))⟩, hrest⟩
  | false =>
    apply (Page.collect_ends h).mono
    rintro _ s' ⟨fr', hblocks, hkept, hlive, hcap⟩
    exact ⟨⟨fr', [], [], hblocks, fun _ => rfl⟩, hkept, hlive, hcap.ge⟩

/-- `is_full` queues nothing. -/
theorem Page.isFull_queue {fr lo : List Blk} {s : LivePage} (h : s.Blocks none fr lo [] []) :
    PageEnds Page.isFull s fun _ s' => s'.page.xthreadFree.block = none := by
  have hnone : ∀ {s' : LivePage} {fr' lo' : List Blk}, s'.Blocks none fr' lo' [] [] →
      s'.page.xthreadFree.block = none := fun h' => h'.lists.queue.head_eq
  simp only [Page.isFull, Prog.bind_eq, Prog.pure_eq, Prog.perform_bind]
  apply PageEnds.act rfl
  split
  · exact Ends.ret (hnone h)
  · apply Ends.bind
    apply (Page.collect_ends h).mono
    rintro _ s' ⟨fr', h', -⟩
    apply PageEnds.act rfl
    split
    · exact Ends.ret (hnone h')
    · apply PageEnds.act rfl
      exact Ends.ret (hnone h')

/-- A page of bin `bin` that has been claimed by a push to it. -/
structure InHand (w : Process) (q : Queues) (D : Set TheapPtr) (p : PagePtr) (bin : ℕ) : Prop where
  sound : Sound w q D (some p) ∅
  owned : (w.page p).Owned
  bin_eq : (w.desc p).bin = bin
  room : ¬ (w.page p).Full
  logged : lastEvent w.log p = some (.abandoned p)
  bit : w.InRegistry p → (w.page p).ownerId = miThreadidAbandonedMapped
  reg : w.registryRefused = false → (w.page p).ownerId = miThreadidAbandonedMapped →
    w.InRegistry p

namespace InHand

variable {bin : ℕ}

theorem tidy (h : InHand w q D p bin) (ht : Page.Tidy (w.page p) m)
    (hlive : m.live = (w.page p).live) :
    InHand (w.setPage p m) q D p bin ∧ ∀ {S A}, Steps S A w q (w.setPage p m) q := by
  have hself : (w.setPage p m).page p = m := w.setPage_page p m
  have hid : m.ownerId = (w.page p).ownerId := LivePage.ownerId_congr ht.2.1.xthreadId
  refine ⟨⟨h.sound.setPage ((h.sound.pageOk p (h.sound.held p rfl)).tidy ht) (Or.inl rfl), ?_,
    h.bin_eq, ?_, h.logged, ?_, ?_⟩, fun {S A} => Steps.tidy ht hlive.ge⟩
  · rw [hself]
    exact ht.2.1.owned.trans h.owned
  · rw [hself, LivePage.full_congr hlive ht.2.1.reserved]
    exact h.room
  · rw [hself, hid]
    exact h.bit
  · rw [hself, hid]
    exact h.reg

/-- The bit of the page is cleared, if there is one. -/
theorem unabandonIfMapped_ends (h : InHand w q D p bin) :
    ProcEnds refuses panics (Page.unabandonIfMapped.interp (handlePage p bin)) w fun _ w' =>
      w.SameButRegistry w' ∧ Sound w' q D (some p) ∅ ∧ ¬ w'.InRegistry p := by
  simp only [Page.unabandonIfMapped, Prog.bind_eq, Prog.interp_bind]
  apply Ends.bind
  apply ProcEnds.handled Page.isAbandonedMapped_ends
  rintro r _ ⟨rfl, hr⟩
  rw [w.setPage_self]
  cases r with
  | true =>
    simp only [if_true, Prog.interp_perform, handlePage, fetch, Prog.bind_eq, Prog.perform_bind]
    apply ProcEnds.fetch
    exact Arena.pageUnabandon_ends h.sound
  | false =>
    refine Ends.ret ⟨.refl w, h.sound, fun hin => ?_⟩
    exact Bool.false_ne_true (hr.mpr (h.bit hin))

/-- A page with room is registered, unless it is already. -/
theorem reabandonMapped_ends (h : InHand w q D p bin) :
    ProcEnds refuses panics (Page.reabandonMapped.interp (handlePage p bin)) w fun _ w' =>
      InHand w' q D p bin ∧ (w'.page p).ownerId = miThreadidAbandonedMapped ∧
        (w'.page p).live = (w.page p).live ∧ (∀ {S A}, Steps S A w q w' q) ∧
          ((∃ fr lo, (w.page p).Blocks none fr lo [] []) →
            (w'.page p).page.xthreadFree.block = none) := by
  obtain ⟨fr, lo, xs, hblocks⟩ := (h.sound.pageOk p (h.sound.held p rfl)).blocks
  simp only [Page.reabandonMapped, Prog.bind_eq, Prog.interp_bind]
  apply Ends.bind
  have hfull : PageEnds Page.isFull (w.page p) fun r m => Page.Tidy (w.page p) m ∧
      m.live = (w.page p).live ∧ r = false ∧ ((∃ fr lo, (w.page p).Blocks none fr lo [] []) →
        m.page.xthreadFree.block = none) := by
    by_cases hq : ∃ fr lo, (w.page p).Blocks none fr lo [] []
    · obtain ⟨fr', lo', hq⟩ := hq
      apply ((Page.isFull_ends hblocks).and (Page.isFull_queue hq)).mono
      rintro r m ⟨⟨ht, hlive, hr⟩, hnone⟩
      exact ⟨ht, hlive, Bool.eq_false_iff.mpr fun hc => h.room (hr.mp hc), fun _ => hnone⟩
    · apply (Page.isFull_ends hblocks).mono
      rintro r m ⟨ht, hlive, hr⟩
      exact ⟨ht, hlive, Bool.eq_false_iff.mpr fun hc => h.room (hr.mp hc), fun hc => (hq hc).elim⟩
  apply ProcEnds.handled hfull
  rintro _ m ⟨ht, hlive, rfl, hnone⟩
  obtain ⟨h₁, hsteps₁⟩ := h.tidy ht hlive
  have hself : (w.setPage p m).page p = m := w.setPage_page p m
  simp only [Bool.not_false, if_true, Prog.interp_bind]
  apply Ends.bind
  apply ProcEnds.handled Page.isAbandonedMapped_ends
  rintro r _ ⟨rfl, hr⟩
  rw [Process.setPage_self]
  cases r with
  | true =>
    apply Ends.ret
    refine ⟨h₁, hr.mp rfl, ?_, hsteps₁, fun hq => ?_⟩
    · rw [hself, hlive]
    · rw [hself]
      exact hnone hq
  | false =>
    have hid : ((w.setPage p m).page p).ownerId ≠ miThreadidAbandonedMapped := fun hc =>
      Bool.false_ne_true (hr.mpr hc)
    simp only [Bool.not_false, if_true, Prog.interp_bind, Prog.interp_perform, handlePage]
    apply Ends.bind
    rw [← h₁.bin_eq]
    apply (Subproc.abandonPage_ends h₁.sound).mono
    rintro _ w₂ ⟨hsame, h₂, hin⟩
    have hsteps₂ : ∀ {S A}, Steps S A (w.setPage p m) q w₂ q := hsame.steps
    have hpage₂ : w₂.page p = m := by
      obtain ⟨_, _, _, rfl⟩ := hsame
      exact hself
    have hlog₂ : w₂.log = w.log ∧ w₂.desc = w.desc := by
      obtain ⟨_, _, _, rfl⟩ := hsame
      exact ⟨rfl, rfl⟩
    apply ProcEnds.handled Page.setOwner_ends
    rintro _ _ rfl
    rw [hpage₂]
    obtain ⟨hid, hflags⟩ := Page.ownerId_stamp miThreadidAbandonedMapped m.page.xthreadId rfl
    generalize hm' : ({ m with page := { m.page with xthreadId := miThreadidAbandonedMapped +
      m.page.xthreadId % (miPageFlagMask + 1) } } : LivePage) = m'
    have hself' : (w₂.setPage p m').page p = m' := w₂.setPage_page p m'
    have hid' : m'.ownerId = miThreadidAbandonedMapped := by
      rw [← hm']
      exact hid
    have hflags' : m'.flags = m.flags := by
      rw [← hm']
      exact hflags
    have hok : PageOk p (w₂.desc p) m' := by
      have hok₂ := h₂.pageOk p (h₂.held p rfl)
      rw [hpage₂] at hok₂
      rw [← hm']
      exact hok₂.setId
    refine ⟨⟨h₂.setPage hok (Or.inl rfl), ?_, ?_, ?_, ?_, fun _ => ?_, fun hrefused _ => ?_⟩, ?_, ?_,
      ?_, fun hq => ?_⟩
    · rw [hself', ← hm', ← hself]
      exact h₁.owned
    · show (w₂.desc p).bin = (w.desc p).bin
      rw [hlog₂.2]
    · rw [hself', ← hm', ← hself]
      exact h₁.room
    · show lastEvent w₂.log p = _
      rw [hlog₂.1]
      exact h.logged
    · rw [hself', hid']
    · exact hin hrefused
    · rw [hself', hid']
    · rw [hself', ← hm']
      exact hlive
    · intro S A
      apply (hsteps₁.trans hsteps₂).trans
      apply Steps.setPage
      · rw [hpage₂, ← hm']
        exact fun _ _ hb => hb
      · rw [hpage₂, ← hm']
      · rw [hpage₂, hflags']
        exact id
    · rw [hself', ← hm']
      exact hnone hq

/-- The page is handed back, unless a block has been queued. -/
theorem tryUnown_ends (h : InHand w q D p bin)
    (hid : (w.page p).ownerId = miThreadidAbandonedMapped) (hlive : (w.page p).live.Nonempty) :
    ProcEnds refuses panics (Page.tryUnown.interp (handlePage p bin)) w fun r w' =>
      if r then Sound w' q D none ∅ ∧ ∀ {S A}, Steps S A w q w' q
      else w' = w ∧ (w.page p).page.xthreadFree.block ≠ none := by
  obtain ⟨fr, lo, xs, hblocks⟩ := (h.sound.pageOk p (h.sound.held p rfl)).blocks
  apply ProcEnds.handled (Page.tryUnown_ends h.owned)
  rintro r _ ⟨hr, rfl⟩
  cases r with
  | false =>
    rw [if_neg Bool.false_ne_true, if_neg Bool.false_ne_true, w.setPage_self]
    exact ⟨rfl, fun hnone => Bool.false_ne_true (hr.mpr hnone)⟩
  | true =>
    rw [if_pos rfl, if_pos rfl]
    have hself : (w.setPage p (Page.withOwned (w.page p) false)).page p =
        Page.withOwned (w.page p) false := w.setPage_page p _
    have hok : PageOk p (w.desc p) (Page.withOwned (w.page p) false) :=
      { h.sound.pageOk p (h.sound.held p rfl) with
        blocks := ⟨fr, lo, xs, Page.withOwned_blocks hblocks⟩ }
    have hsound := h.sound.setPage hok (Or.inl rfl)
    refine ⟨hsound.letGo ?_ ?_ h.logged ?_ ?_, fun {S A} => Steps.setPage (fun _ _ hb => hb) rfl id⟩
    · rw [hself]
      exact Bool.false_ne_true
    · rw [hself]
      exact ⟨hlive, Or.inl ⟨hid, h.room⟩⟩
    · rw [hself]
      exact fun _ => hid
    · rw [hself]
      exact h.reg

/-- **`free_try_collect_mt`** releases the page if no block of it is live, and hands it back
otherwise, in its second round at the latest. -/
theorem freeTryCollectMt_ends {small : Bool} {fr lo xs : List Blk} (h : InHand w q D p bin)
    (hblocks : (w.page p).Blocks none fr lo (blk :: xs) []) :
    ProcEnds refuses panics ((Page.freeTryCollectMt small blk).interp (handlePage p bin)) w
      fun _ w' => Sound w' q D none ∅ ∧ ∀ {S A}, Steps S A w q w' q := by
  simp only [Page.freeTryCollectMt, iterate, Prog.interp_loop, Prog.interp_ret]
  refine Ends.loop_measure (fun first => if first then 1 else 0)
    (fun first w' => InHand w' q D p bin ∧ (∀ {S A}, Steps S A w q w' q) ∧
      (first = true → ∃ fr lo xs, (w'.page p).Blocks none fr lo (blk :: xs) [])) ?_
    ⟨h, Steps.refl, fun _ => ⟨fr, lo, xs, hblocks⟩⟩
  rintro first w₁ ⟨h₁, hsteps₁, hfirst⟩
  simp only [Prog.bind_eq, Prog.pure_eq, Prog.interp_bind]
  apply Ends.bind
  have hround : PageEnds (Page.collectRound (first && small) blk) (w₁.page p) fun _ s' =>
      (∃ fr' lo' xs', s'.Blocks none fr' lo' xs' [] ∧
        ((w₁.page p).live = ∅ ∨ first = false → xs' = [])) ∧ (w₁.page p).Kept s' ∧
          s'.live = (w₁.page p).live ∧ (w₁.page p).page.capacity ≤ s'.page.capacity := by
    cases first with
    | true =>
      obtain ⟨fr, lo, xs, hblocks⟩ := hfirst rfl
      apply (Page.collectRound_ends hblocks fun _ => ⟨xs, rfl⟩).mono
      rintro _ s' ⟨⟨fr', lo', xs', hblocks', hqueue⟩, hrest⟩
      exact ⟨⟨fr', lo', xs', hblocks', fun hor => hqueue (Or.inl (hor.resolve_right (by simp)))⟩,
        hrest⟩
    | false =>
      obtain ⟨fr, lo, xs, hblocks⟩ := (h₁.sound.pageOk p (h₁.sound.held p rfl)).blocks
      apply (Page.collectRound_ends hblocks fun hc => (by cases hc)).mono
      rintro _ s' ⟨⟨fr', lo', xs', hblocks', hqueue⟩, hrest⟩
      exact ⟨⟨fr', lo', xs', hblocks', fun _ => hqueue (Or.inr rfl)⟩, hrest⟩
  apply ProcEnds.handled hround
  rintro _ m ⟨⟨fr₁, lo₁, xs₁, hblocks₁, hqueue⟩, hkept, hlive, hcap⟩
  obtain ⟨h₂, hsteps₂⟩ := h₁.tidy ⟨⟨fr₁, lo₁, xs₁, hblocks₁⟩, hkept, hcap⟩ hlive
  have hself : (w₁.setPage p m).page p = m := w₁.setPage_page p m
  simp only [Prog.interp_perform, handlePage]
  apply Ends.bind
  apply ProcEnds.page rfl
  rw [Process.setPage_self, hself]
  apply Ends.ret
  by_cases hused : m.page.used = 0
  · have hempty := hblocks₁.live_of_used hused
    simp only [hused, beq_self_eq_true, if_true, Prog.interp_bind, Prog.interp_perform, handlePage]
    apply Ends.bind
    apply h₂.unabandonIfMapped_ends.mono
    rintro _ w₂ ⟨hsame, h₃, hnotIn⟩
    have hsteps₃ : ∀ {S A}, Steps S A w q w₂ q := (hsteps₁.trans hsteps₂).trans hsame.steps
    have hpage₂ : w₂.page p = m := by
      obtain ⟨_, _, _, rfl⟩ := hsame
      exact hself
    apply Ends.bind
    apply (releasePageSlices_ends h₃ hnotIn).mono
    rintro _ w₃ ⟨hreleased, h₄⟩
    apply Ends.ret
    apply Ends.ret
    refine ⟨h₄, hsteps₃.trans (hreleased.steps ?_)⟩
    rintro c - ⟨-, hl⟩
    have hl : c ∈ (w₂.page p).live := hl
    rw [hpage₂, hempty] at hl
    cases hl
  · have hlive₁ : m.live.Nonempty := by
      rw [Finset.nonempty_iff_ne_empty]
      intro hempty
      rw [hqueue (Or.inl (hlive ▸ hempty))] at hblocks₁
      exact hused (hblocks₁.used_of_live hempty)
    have hbeq : (m.page.used == 0) = false := beq_eq_false_iff_ne.mpr hused
    simp only [hbeq, Bool.false_eq_true, if_false, Prog.interp_bind]
    apply Ends.bind
    apply h₂.reabandonMapped_ends.mono
    rintro _ w₂ ⟨h₃, hid, hlive₂, hsteps₃, hnone⟩
    apply Ends.bind
    apply (h₃.tryUnown_ends hid (by rwa [hlive₂, hself])).mono
    intro r w₃ hr
    have hsteps₂ : ∀ {S A}, Steps S A w q w₂ q := (hsteps₁.trans hsteps₂).trans hsteps₃
    cases r with
    | true =>
      obtain ⟨h₄, hsteps₄⟩ := hr
      apply Ends.ret
      apply Ends.ret
      exact ⟨h₄, hsteps₂.trans hsteps₄⟩
    | false =>
      obtain ⟨rfl, hqueued⟩ := hr
      apply Ends.ret
      cases first with
      | true => exact ⟨⟨h₃, hsteps₂, fun hc => (by cases hc)⟩, Nat.one_pos⟩
      | false =>
        rw [hqueue (Or.inr rfl)] at hblocks₁
        exact (hqueued (hnone ⟨fr₁, lo₁, by rwa [hself]⟩)).elim

end InHand

/-- The bit of a page in the registry tells that nobody owns it. -/
theorem Sound.mapped_of_inRegistry (h : Sound w q D none T) (hp : p ∈ w.pages)
    (hin : w.InRegistry p) :
    ¬ (w.page p).Owned ∧ (w.page p).ownerId = miThreadidAbandonedMapped := by
  obtain ⟨p', hp', hi, -, hj, hor⟩ := h.registered _ _ _ hin
  have hfirst := h.first_mem hp
  have hfirst' := h.first_mem hp'
  rw [hi, hj] at hfirst'
  rw [h.eq_of_slices hp hp' hfirst hfirst'] at hor
  exact hor.resolve_left (by simp)

/-- **A block is freed by a thread that does not own its page.** -/
theorem freeMt_ends {small : Bool} (h : Sound w q D none ∅) (hl : w.Live (p, blk)) :
    ProcEnds refuses panics ((Page.freeMt small blk).interp (handlePage p (w.desc p).bin)) w
      fun _ w' => Sound w' q D none ∅ ∧ (∀ {S A}, (p, blk) ∉ S → Steps S A w q w' q) ∧
        Process.Frees (p, blk) w w' := by
  have hok := h.pageOk p hl.1
  obtain ⟨fr, lo, xs, hblocks⟩ := hok.blocks
  simp only [Page.freeMt, Prog.bind_eq, Prog.pure_eq, Prog.interp_bind]
  apply Ends.bind
  apply ProcEnds.handled (Page.threadFreePush_ends hblocks hl.2)
  rintro r m ⟨rfl, hblocks', hlive, hword, hsize, hres, hid, -⟩
  have hself : (w.setPage p m).page p = m := w.setPage_page p m
  have hok' : PageOk p (w.desc p) m := hok.congr ⟨_, _, _, hblocks'⟩ hsize hres
  have howned : m.Owned := by
    unfold LivePage.Owned
    rw [hword]
  have hsteps : ∀ {S A}, (p, blk) ∉ S → Steps S A w q (w.setPage p m) q := by
    intro S A hS
    apply Steps.setPage
    · intro c hc hl'
      rw [hlive]
      refine Finset.mem_erase.mpr ⟨?_, hl'⟩
      rintro rfl
      exact hS hc
    · exact hsize
    · unfold LivePage.flags
      rw [hid]
      exact fun h => h
  cases ho : (w.page p).page.xthreadFree.owned with
  | true =>
    apply Ends.ret
    exact ⟨h.setPage hok' (Or.inr ⟨ho, howned, LivePage.ownerId_congr hid⟩), hsteps, .setPage hlive⟩
  | false =>
    have hno : ¬ (w.page p).Owned := by
      unfold LivePage.Owned
      rw [ho]
      exact Bool.false_ne_true
    have hhand : InHand (w.setPage p m) q D p (w.desc p).bin := by
      refine ⟨(h.hold hl.1 hno).setPage hok' (Or.inl rfl), ?_, rfl, ?_,
        (h.abandoned p hl.1 (by simp) hno).2, ?_, ?_⟩
      · rwa [hself]
      · rw [hself]
        intro hfull
        have hmem : blk ∈ m.live := by
          rw [hfull, Finset.mem_range, hres]
          exact hblocks.lt_reserved hl.2
        rw [hlive] at hmem
        exact Finset.notMem_erase _ _ hmem
      · rw [hself, LivePage.ownerId_congr hid]
        exact fun hin => (h.mapped_of_inRegistry hl.1 hin).2
      · rw [hself, LivePage.ownerId_congr hid]
        exact fun hrefused => h.inRegistry hrefused p hl.1 (by simp) hno
    have hloses : ((Page.freeTryCollectMt small blk).interp
        (handlePage p (w.desc p).bin)).Every ProcAct.Loses :=
      Every.interp _ handlePage_loses Page.freeTryCollectMt_loses
    apply (Process.Fewer.of_every (hhand.freeTryCollectMt_ends (by rwa [hself])) hloses).mono
    rintro _ w' ⟨⟨h', hsteps'⟩, hfewer⟩
    exact ⟨h', fun hS => (hsteps hS).trans hsteps', (Process.Frees.setPage hlive).trans hfewer⟩

/-- The theaps of a thread that have pages. -/
def Owners (t : ℕ) (q : Queues) : Set TheapPtr := {th | th.thread = t ∧ ∃ b, q th b ≠ []}

/-- **`free`** ends the life of the block in which the address lies, and of no other. -/
theorem free_ends (h : Sound w q D none ∅) (ha : w.InBlock a x) :
    ProcEnds refuses panics (free t a) w fun _ w' => ∃ q', Sound w' q' D none ∅ ∧
      (∀ {S}, x ∉ S → Steps S (Owners t q) w q w' q') ∧ Process.Frees x w w' := by
  obtain ⟨p, blk⟩ := x
  simp only [free, freeCold, fetch, Prog.bind_eq, Prog.pure_eq, Prog.perform_bind]
  have hlookup : w.lookup a = some p := h.lookup_eq ha
  apply ProcEnds.fetch
  rw [hlookup]
  apply ProcEnds.page rfl
  rw [w.setPage_self]
  have hid := (w.page p).ownerId_eq
  have htid := currentTid_mod t
  have owned : (w.page p).page.xthreadId / 4 = currentTid t / 4 →
      ProcEnds refuses panics (freeOwned p blk) w fun _ w' => ∃ q', Sound w' q' D none ∅ ∧
        (∀ {S}, (p, blk) ∉ S → Steps S (Owners t q) w q w' q') ∧
          Process.Frees (p, blk) w w' := by
    intro hraw
    obtain ⟨hp, hthread⟩ := h.queued_of_ownerId (p := p) (t := t) ha.live.1 (by omega)
    apply (freeOwned_ends h hp ha.live.2).mono
    rintro _ w' ⟨q', h', hsteps, hfrees⟩
    exact ⟨q', h', fun hS => hsteps ⟨hthread, _, List.ne_nil_of_mem hp⟩ hS, hfrees⟩
  split
  · next hx =>
    have hraw := xor_eq_zero.mp hx
    apply blockAt_ends ha
    · unfold LivePage.flags
      rw [← hraw]
      exact htid
    · exact owned (by rw [hraw])
  · split
    · next hx =>
      apply recoverBlockStart_ends ha
      apply owned
      have hdiv := xor_div.mp (show (currentTid t ^^^ (w.page p).page.xthreadId) / 4 = 0 by
        unfold miPageFlagMask at hx
        omega)
      exact hdiv.symm
    · have mt : ProcEnds refuses panics ((Page.freeMt (decide ((w.page p).page.blockSize ≤
          miSmallSizeMax)) blk).interp (handlePage p (w.desc p).bin)) w fun _ w' => ∃ q',
            Sound w' q' D none ∅ ∧ (∀ {S}, (p, blk) ∉ S → Steps S (Owners t q) w q w' q') ∧
              Process.Frees (p, blk) w w' := by
        apply (freeMt_ends h ha.live).mono
        rintro _ w' ⟨h', hsteps, hfrees⟩
        exact ⟨q, h', fun hS => hsteps hS, hfrees⟩
      split
      · next hflag =>
        apply blockAt_ends ha
        · unfold LivePage.flags
          show (w.page p).page.xthreadId % 4 = 0
          rw [← xor_mod htid]
          exact hflag
        · apply ProcEnds.fetch
          apply ProcEnds.fetch
          exact mt
      · apply recoverBlockStart_ends ha
        apply ProcEnds.fetch
        apply ProcEnds.fetch
        exact mt

/-! ## Reallocating -/

/-- An address lies in one block. -/
theorem Sound.inBlock_unique {y : PagePtr × Blk} (h : Sound w q D H T) (hx : w.InBlock a x)
    (hy : w.InBlock a y) : y = x := by
  obtain ⟨p, blk⟩ := x
  obtain ⟨p', blk'⟩ := y
  have hp : some p' = some p := (h.lookup_eq hy).symm.trans (h.lookup_eq hx)
  cases hp
  rw [← hx.index, ← hy.index]

/-- The bytes of a block from an address on. -/
def Process.Rest (w : Process) (a : Ptr) (x : PagePtr × Blk) : ℕ :=
  (w.desc x.1).pageStart + (x.2 + 1) * (w.page x.1).page.blockSize - a.off

/-- **`usable_size`** is the rest of the block. -/
theorem usableSize_ends {k : ℕ → Prog ProcAct α} (h : Sound w q D H T) (ha : w.InBlock a x)
    (hk : ProcEnds refuses panics (k (w.Rest a x)) w Q) :
    ProcEnds refuses panics ((usableSize a).bind k) w Q := by
  obtain ⟨p, blk⟩ := x
  have hlookup : w.lookup a = some p := h.lookup_eq ha
  simp only [usableSize, fetch, Prog.bind_eq, Prog.pure_eq, Prog.perform_bind, Prog.act_bind]
  apply ProcEnds.fetch
  rw [hlookup]
  apply ProcEnds.fetch
  apply ProcEnds.fetch
  have hle : (w.desc p).pageStart + blk * (w.page p).page.blockSize ≤ a.off := ha.le
  have hlt : a.off < (w.desc p).pageStart + (blk + 1) * (w.page p).page.blockSize := ha.lt
  have hdiv := Nat.div_add_mod (a.off - (w.desc p).pageStart) (w.page p).page.blockSize
  rw [ha.index, Nat.mul_comm] at hdiv
  have hrest : (w.page p).page.blockSize -
      (a.off - (w.desc p).pageStart) % (w.page p).page.blockSize = w.Rest a (p, blk) := by
    show _ = (w.desc p).pageStart + (blk + 1) * (w.page p).page.blockSize - a.off
    rw [Nat.add_mul] at hlt ⊢
    omega
  rw [← hrest] at hk
  exact hk

/-- What a reallocation of the block `x` to `size` bytes, by thread `t`, does. -/
structure Reallocs (D : Set TheapPtr) (t size : ℕ) (a : Ptr) (x : PagePtr × Blk) (w : Process)
    (q : Queues) (r : Option Ptr) (w' : Process) (q' : Queues) : Prop where
  sound : Sound w' q' D none ∅
  stays : r = none ∨ r = some a → ∀ {S}, Steps S (insert ⟨t, 0⟩ (Owners t q)) w q w' q'
  fits : r = some a → size ≤ w'.Rest a x
  moves : ∀ np, r = some np → np ≠ a → (∀ {S}, x ∉ S → Steps S (insert ⟨t, 0⟩ (Owners t q)) w q w' q') ∧
    ∃ y, ¬ w.Live y ∧ w'.InBlock np y ∧ size ≤ w'.Rest np y

/-- A new block is handed out, and the old one is freed. -/
theorem move_ends {np : Ptr} {size : ℕ} (ha : w.InBlock a x)
    (hh : Hands D ⟨t, 0⟩ size w q (some np) w' q') :
    ProcEnds refuses panics ((free t a).bind fun _ => .ret (some np)) w' fun r w'' => ∃ q'',
      Reallocs D t size a x w q r w'' q'' := by
  obtain ⟨y, hfresh, hy, hsize⟩ := hh.handed np rfl
  have hsteps : ∀ {S}, Steps S (insert ⟨t, 0⟩ (Owners t q)) w q w' q' :=
    hh.steps (Set.mem_insert ..)
  have ha' := ha.keeps (Set.mem_univ x) hsteps.toKeepsPage
  have hne : y ≠ x := by
    rintro rfl
    exact hfresh ha.live
  have hnp : np ≠ a := by
    rintro rfl
    exact hne (hh.sound.inBlock_unique ha' hy)
  apply Ends.bind
  apply (free_ends hh.sound ha').mono
  rintro _ w'' ⟨q'', h'', hsteps', -⟩
  apply Ends.ret
  refine ⟨q'', h'', ?_, ?_, ?_⟩
  · rintro (hr | hr)
    · cases hr
    · cases hr
      exact (hnp rfl).elim
  · rintro ⟨⟩
    exact (hnp rfl).elim
  · rintro _ ⟨⟩ -
    have hkeep : KeepsPage ({x}ᶜ : Set (PagePtr × Blk)) w' w'' := (hsteps' (by simp)).toKeepsPage
    -- the theaps with pages are those that had some, and the one that has served the block
    have howners : Owners t q' ⊆ insert ⟨t, 0⟩ (Owners t q) := by
      rintro th ⟨hthread, b, hne⟩
      by_cases hth : th = ⟨t, 0⟩
      · exact Or.inl hth
      · have hother : q' th = q th := (hh.steps (S := ∅) (Set.mem_singleton _)).others th hth
        exact Or.inr ⟨hthread, b, hother ▸ hne⟩
    refine ⟨fun hS => hsteps.trans ((hsteps' hS).widen howners), y, hfresh, hy.keeps hne hkeep, ?_⟩
    unfold Process.Rest
    rw [hkeep.desc y hne hy.live, hkeep.blockSize y hne hy.live]
    omega

/-- **`realloc`**. -/
theorem realloc_ends {size : ℕ} (h : Sound w q D none ∅) (ha : w.InBlock a x)
    (hth : (⟨t, 0⟩ : TheapPtr) ∈ D) (hsize : size < usizeRange) (hp : panics) :
    ProcEnds refuses panics (realloc t a size) w fun r w' => ∃ q',
      Reallocs D t size a x w q r w' q' := by
  simp only [realloc, Prog.bind_eq, Prog.pure_eq]
  apply usableSize_ends h ha
  split
  · next hle =>
    apply Ends.ret
    refine ⟨q, h, fun _ => Steps.refl, fun _ => hle, ?_⟩
    rintro _ ⟨⟩ hne
    exact (hne rfl).elim
  · apply Ends.bind
    apply (ThreadHeap.alloc_ends h hth hsize (Or.inr (Or.inr (Or.inl hp)))).mono
    rintro r w' ⟨q', hall⟩
    cases r with
    | none =>
      exact Ends.ret ⟨q', hall.sound, fun _ => hall.steps (Set.mem_insert ..), fun hc => (by cases hc),
        fun _ hc => (by cases hc)⟩
    | some np => exact move_ends ha hall.hands

/-- **`realloc_aligned`**. -/
theorem reallocAligned_ends {size align : ℕ} (h : Sound w q D none ∅) (ha : w.InBlock a x)
    (hth : (⟨t, 0⟩ : TheapPtr) ∈ D) (hsize : size < usizeRange)
    (halign : Process.PowerOfTwo align) (hp : panics) :
    ProcEnds refuses panics (reallocAligned t a size align) w fun r w' => ∃ q',
      Reallocs D t size a x w q r w' q' := by
  simp only [reallocAligned, Prog.bind_eq, Prog.pure_eq]
  apply usableSize_ends h ha
  apply Ends.bind
  apply (ThreadHeap.allocAligned_ends h hth hsize halign hp).mono
  rintro r w' ⟨⟨q', hh⟩, -⟩
  cases r with
  | none =>
    exact Ends.ret ⟨q', hh.sound, fun _ => hh.steps (Set.mem_insert ..), fun hc => (by cases hc),
      fun _ hc => (by cases hc)⟩
  | some np => exact move_ends ha hh

end MimallocRs
