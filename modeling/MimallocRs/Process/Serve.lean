import MimallocRs.Process.Carve

/-!
# Serving a block

How `alloc` finds a page for a block: the search of a queue for a page with room, the sweep of the
retired pages, and the takeover of an abandoned page. A search of a queue that fails has seen only
pages whose blocks are all live (`findInQueue_ends`), and a page that has been found or taken over
serves a block (`Tidied`), so that a new page is carved only when every page of the queue is full
(`alloc_ends`).
-/

namespace MimallocRs

open Interleave Prog

variable {refuses : Bool} {panics : Prop} {S : Set (PagePtr × Blk)} {A : Set TheapPtr}
  {w w' w'' : Process} {q q' q'' : Queues} {D : Set TheapPtr} {H : Option PagePtr}
  {T : Set (ℕ × ℕ)} {p : PagePtr} {th : TheapPtr} {i b n idx : ℕ} {m : LivePage} {α : Type}
  {Q : α → Process → Prop}

/-! ## Changes of a page that keep its blocks -/

theorem LivePage.ownerId_congr {m m' : LivePage} (h : m'.page.xthreadId = m.page.xthreadId) :
    m'.ownerId = m.ownerId := by
  unfold ownerId
  rw [h]

theorem LivePage.full_congr {m m' : LivePage} (hlive : m'.live = m.live)
    (hres : m'.page.reserved = m.page.reserved) : m'.Full ↔ m.Full := by
  unfold Full
  rw [hlive, hres]

/-- A page with as many blocks as before, of the same size. -/
theorem PageOk.congr {d : PageDesc} {m' : LivePage} (h : PageOk p d m)
    (hblocks : ∃ fr lo xs, m'.Blocks none fr lo xs [])
    (hsize : m'.page.blockSize = m.page.blockSize) (hres : m'.page.reserved = m.page.reserved) :
    PageOk p d m' := by
  refine ⟨hblocks, ?_, ?_, h.start, h.word, ?_, ?_⟩
  · rw [hsize]
    exact h.blockSize_pos
  · rw [hres]
    exact h.reserved_pos
  · rw [hsize, hres]
    exact h.fits
  · have hplace := h.place
    rw [hsize, hres]
    exact hplace

/-- A page whose lists have been tidied up is as good as before. -/
theorem PageOk.tidy {d : PageDesc} {m' : LivePage} (h : PageOk p d m) (ht : Page.Tidy m m') :
    PageOk p d m' :=
  h.congr ht.1 ht.2.1.blockSize ht.2.1.reserved

/-- A page of a queue is tidied up. -/
theorem Sound.tidy (h : Sound w q D none T) (hp : p ∈ q th b) (ht : Page.Tidy (w.page p) m) :
    Sound (w.setPage p m) q D none T := by
  obtain ⟨hpages, -, hq⟩ := h.queued th b p hp
  apply h.setPage ((h.pageOk p hpages).tidy ht)
  refine Or.inr ⟨hq.owned, ?_, LivePage.ownerId_congr ht.2.1.xthreadId⟩
  exact ht.2.1.owned.trans hq.owned

theorem Steps.tidy (ht : Page.Tidy (w.page p) m) (hlive : (w.page p).live ⊆ m.live) :
    Steps S A w q (w.setPage p m) q := by
  apply Steps.setPage
  · exact fun b _ hb => hlive hb
  · exact ht.2.1.blockSize
  · unfold LivePage.flags
    rw [ht.2.1.xthreadId]
    exact id

/-- Pages have been tidied up, and countdowns have been changed. -/
structure Tidied (w w' : Process) : Prop where
  pages : w'.pages = w.pages
  desc : w'.desc = w.desc
  live : ∀ p, (w'.page p).live = (w.page p).live
  reserved : ∀ p, (w'.page p).page.reserved = (w.page p).page.reserved
  created : w'.pagesCreated = w.pagesCreated

theorem Tidied.refl : Tidied w w := ⟨rfl, rfl, fun _ => rfl, fun _ => rfl, rfl⟩

theorem Tidied.trans (h : Tidied w w') (h' : Tidied w' w'') : Tidied w w'' where
  pages := h'.pages.trans h.pages
  desc := h'.desc.trans h.desc
  live p := (h'.live p).trans (h.live p)
  reserved p := (h'.reserved p).trans (h.reserved p)
  created := h'.created.trans h.created

theorem Tidied.full (h : Tidied w w') : (w'.page p).Full ↔ (w.page p).Full :=
  LivePage.full_congr (h.live p) (h.reserved p)

theorem Tidied.setPage (hlive : m.live = (w.page p).live)
    (hres : m.page.reserved = (w.page p).page.reserved) : Tidied w (w.setPage p m) := by
  refine ⟨rfl, rfl, fun p' => ?_, fun p' => ?_, rfl⟩
  · by_cases hp : p' = p
    · subst hp
      rwa [w.setPage_page]
    · rw [w.setPage_of_ne m hp]
  · by_cases hp : p' = p
    · subst hp
      rwa [w.setPage_page]
    · rw [w.setPage_of_ne m hp]

/-! ## Searching a queue -/

/-- The link of a page in a queue. -/
theorem Sound.next_eq {l₁ l₂ : List PagePtr} (h : Sound w q D H T) (hq : q th b = l₁ ++ p :: l₂) :
    w.next p = l₂.head? := by
  have hseg := (h.queues th b).dlist.seg
  rw [hq] at hseg
  obtain ⟨-, -, hnext, -⟩ := Seg.append.mp hseg
  rw [hnext, Option.or_none]

namespace ThreadHeap

/-- **The search of a queue** finds a page with room whenever there is one. -/
theorem findInQueue_ends {l₁ l : List PagePtr} (h : Sound w q D none T) (hq : q th b = l₁ ++ l) :
    ProcEnds refuses panics (findInQueue l.head?) w fun r w' => Sound w' q D none T ∧
      (∀ {S A}, Steps S A w q w' q) ∧ Tidied w w' ∧
        match r with
        | none => ∀ p ∈ l, (w.page p).Full
        | some p => p ∈ l ∧ ¬ (w.page p).Full := by
  simp only [findInQueue, iterate, fetch, store, Prog.bind_eq, Prog.pure_eq, Prog.perform_bind]
  induction l generalizing w l₁ with
  | nil =>
    apply Ends.loop
    exact Ends.ret ⟨h, Steps.refl, .refl, fun p hp => (by cases hp)⟩
  | cons p l ih =>
    have hp : p ∈ q th b := by
      rw [hq]
      exact List.mem_append_right _ List.mem_cons_self
    obtain ⟨fr, lo, xs, hblocks⟩ := (h.pageOk p (h.queued th b p hp).1).blocks
    apply Ends.loop
    apply Ends.bind
    simp only [List.head?_cons]
    apply Ends.bind
    apply ProcEnds.onPage (Page.isFull_ends hblocks)
    rintro r m ⟨ht, hlive, hfull⟩
    have h₁ := h.tidy hp ht
    have hsteps : ∀ {S A}, Steps S A w q (w.setPage p m) q := fun {S A} =>
      Steps.tidy ht hlive.ge
    have htidied := Tidied.setPage hlive ht.2.1.reserved
    cases r with
    | true =>
      rw [if_pos rfl]
      apply ProcEnds.fetch
      apply Ends.ret
      rw [h₁.next_eq hq]
      have hq' : q th b = (l₁ ++ [p]) ++ l := by
        rw [hq]
        simp
      apply (ih h₁ hq').mono
      rintro r w' ⟨h', hsteps', htidied', hr⟩
      refine ⟨h', hsteps.trans hsteps', htidied.trans htidied', ?_⟩
      cases r with
      | none =>
        intro p' hp'
        rcases List.mem_cons.mp hp' with rfl | hp'
        · exact hfull.mp rfl
        · exact htidied.full.mp (hr p' hp')
      | some p' => exact ⟨List.mem_cons_of_mem _ hr.1, fun hc => hr.2 (htidied.full.mpr hc)⟩
    | false =>
      rw [if_neg Bool.false_ne_true]
      have hroom : ¬ (w.page p).Full := fun hc => Bool.false_ne_true (hfull.mpr hc)
      apply ProcEnds.fetch
      split
      · apply ProcEnds.store
        apply Ends.ret
        apply Ends.ret
        refine ⟨{ h₁ with }, hsteps.trans ?_, ?_, List.mem_cons_self, hroom⟩
        · exact Steps.of_rfl rfl rfl rfl (fun _ _ h => h) rfl fun _ _ => rfl
        · exact { htidied with }
      · apply Ends.ret
        apply Ends.ret
        exact ⟨h₁, hsteps, htidied, List.mem_cons_self, hroom⟩

/-! ## Taking a page over -/

end ThreadHeap

/-- A page in hand is given to a theap. -/
theorem Sound.setTheap (h : Sound w q D (some p) T) :
    Sound { w with theap := Function.update w.theap p th } q D (some p) T := by
  have hne : ∀ {p'}, some p ≠ some p' → p' ≠ p := fun hp' heq => hp' (congrArg some heq.symm)
  refine { h with queued := ?_, owned := ?_ }
  · intro th' b' p' hp'
    obtain ⟨hpages, hH, hq⟩ := h.queued th' b' p' hp'
    refine ⟨hpages, hH, ?_⟩
    show Queued th' b' (Function.update w.theap p th p') _ _
    rwa [Function.update_of_ne (hne hH)]
  · intro p' hp' hH ho
    show p' ∈ q (Function.update w.theap p th p') _
    rw [Function.update_of_ne (hne hH)]
    exact h.owned p' hp' hH ho

/-- The page in hand has been reclaimed. -/
theorem Sound.logReclaimed (h : Sound w q D (some p) T)
    (hlog : lastEvent w.log p = some (.abandoned p)) :
    Sound { w with log := .reclaimed p :: w.log } q D (some p) T := by
  refine { h with abandoned := ?_, alternates := ⟨?_, h.alternates⟩ }
  · intro p' hp' hH ho
    obtain ⟨hab, hlast⟩ := h.abandoned p' hp' hH ho
    have hne : (PageEvent.reclaimed p).page ≠ p' := fun heq => hH (congrArg some heq)
    exact ⟨hab, (lastEvent_cons_of_ne hne).trans hlast⟩
  · rintro p' ⟨⟩
    exact hlog

/-- The owner id of a page is restamped. -/
theorem Page.ownerId_stamp (tid old : ℕ) (ht : tid % 4 = 0) :
    tid + old % (miPageFlagMask + 1) - (tid + old % (miPageFlagMask + 1)) % (miPageFlagMask + 1) =
      tid ∧ (tid + old % (miPageFlagMask + 1)) % (miPageFlagMask + 1) =
        old % (miPageFlagMask + 1) := by
  unfold miPageFlagMask
  omega

/-- The owner id does not matter for the blocks. -/
theorem LivePage.Blocks.setId {id : ℕ} {captured : Option Blk} {fr lo xs cap : List Blk}
    (h : m.Blocks captured fr lo xs cap) :
    LivePage.Blocks { m with page := { m.page with xthreadId := id } } captured fr lo xs cap :=
  ⟨{ h.lists with }, h.live⟩

theorem PageOk.setId {d : PageDesc} {id : ℕ} (h : PageOk p d m) :
    PageOk p d { m with page := { m.page with xthreadId := id } } := by
  obtain ⟨fr, lo, xs, hblocks⟩ := h.blocks
  exact { h with blocks := ⟨fr, lo, xs, hblocks.setId⟩ }

namespace ThreadHeap

/-- The page in hand, of bin `b`, becomes the theap's own. -/
theorem takeOver_ends (h : Sound w q D (some p) T) (hbin : (w.desc p).bin = b)
    (ho : (w.page p).Owned) (hreg : ¬ w.InRegistry p) :
    ProcEnds refuses panics ((MimallocRs.onPage p (Page.setOwner th.tid)).bind fun _ =>
      .act (.page p .clearZero) fun _ => .act (.store (fun w => { w with
        theap := Function.update w.theap p th
        desc := Function.update w.desc p { w.desc p with bin := b } }) id) fun _ =>
      (MimallocRs.onPage p Page.collect).bind fun _ =>
        .act (.store (·.pushFront th b p) id) fun _ => .ret (some p)) w fun r w' => r = some p ∧
          Sound w' (pushTo q th b p) D none T ∧
          (∀ {S A}, th ∈ A → Steps S A w q w' (pushTo q th b p)) ∧ Tidied w w' := by
  have hok := h.pageOk p (h.held p rfl)
  obtain ⟨fr, lo, xs, hblocks⟩ := hok.blocks
  obtain ⟨hid, hflags⟩ := Page.ownerId_stamp th.tid (w.page p).page.xthreadId th.tid_mod
  apply Ends.bind
  apply ProcEnds.onPage Page.setOwner_ends
  rintro _ _ rfl
  apply ProcEnds.pageAgain rfl
  -- the page before its collect
  generalize hm : (⟨{ (w.page p).page with
    xthreadId := th.tid + (w.page p).page.xthreadId % (miPageFlagMask + 1)
    freeIsZero := false }, (w.page p).live⟩ : LivePage) = m
  have hmid : m.ownerId = th.tid := by
    rw [← hm]
    exact hid
  have hmflags : m.flags = (w.page p).flags := by
    rw [← hm]
    exact hflags
  have hmo : m.Owned := by
    rw [← hm]
    exact ho
  have hmlive : m.live = (w.page p).live := by rw [← hm]
  have hmres : m.page.reserved = (w.page p).page.reserved := by rw [← hm]
  have hmsize : m.page.blockSize = (w.page p).page.blockSize := by rw [← hm]
  have hmblocks : m.Blocks none fr lo xs [] := by
    rw [← hm]
    exact ⟨{ hblocks.lists with }, hblocks.live⟩
  have hmok : PageOk p (w.desc p) m := by
    rw [← hm]
    exact { hok with blocks := ⟨fr, lo, xs, { hblocks.lists with }, hblocks.live⟩ }
  have hdesc : Function.update w.desc p { w.desc p with bin := b } = w.desc := by
    rw [← hbin, Function.update_eq_self]
  apply ProcEnds.storeTo { w.setPage p m with theap := Function.update w.theap p th }
  · show { w.setPage p m with
      theap := Function.update w.theap p th
      desc := Function.update w.desc p { w.desc p with bin := b } } = _
    rw [hdesc]
    rfl
  have h₁ : Sound { w.setPage p m with theap := Function.update w.theap p th } q D (some p) T :=
    (h.setPage hmok (Or.inl rfl)).setTheap
  apply Ends.bind
  have hpage : Process.page { w.setPage p m with theap := Function.update w.theap p th } p = m :=
    w.setPage_page p m
  apply ProcEnds.onPage (R := fun _ s' => ∃ fr', s'.Blocks none fr' [] [] [] ∧ m.Kept s' ∧
    s'.live = m.live ∧ s'.page.capacity = m.page.capacity)
  · rw [hpage]
    exact Page.collect_ends hmblocks
  rintro _ m' ⟨fr', hblocks', hkept, hlive, hcap⟩
  apply ProcEnds.store
  apply Ends.ret
  have htidy : Page.Tidy m m' := ⟨⟨fr', [], [], hblocks'⟩, hkept, hcap.ge⟩
  have h₂ := h₁.setPage (p := p) (m := m') (hmok.tidy htidy) (Or.inl rfl)
  have hself : Process.page (Process.setPage { w.setPage p m with
      theap := Function.update w.theap p th } p m') p = m' := Process.setPage_page ..
  refine ⟨rfl, h₂.pushFront ?_ hreg, fun {S A} hth => ?_, ?_⟩
  · rw [hself]
    refine ⟨Function.update_self .., hbin, hkept.owned.trans hmo, ?_⟩
    exact (LivePage.ownerId_congr hkept.xthreadId).trans hmid
  · have hsteps₁ : Steps S A w q { w.setPage p m with theap := Function.update w.theap p th } q := by
      have hset : Steps S A w q (w.setPage p m) q :=
        Steps.setPage (fun b _ hb => hmlive ▸ hb) hmsize fun hf => hmflags ▸ hf
      exact hset.trans (Steps.of_rfl rfl rfl rfl (fun _ _ h => h) rfl fun _ _ => rfl)
    have hsteps₂ : Steps S A { w.setPage p m with theap := Function.update w.theap p th } q
        (Process.setPage { w.setPage p m with theap := Function.update w.theap p th } p m') q := by
      apply Steps.tidy
      · rwa [hpage]
      · rw [hpage, hlive]
    exact (hsteps₁.trans hsteps₂).trans (Steps.pushFront hth)
  · have htidied : Tidied w { w.setPage p m with theap := Function.update w.theap p th } :=
      { Tidied.setPage hmlive hmres with }
    have htidied' := htidied.trans (Tidied.setPage (p := p) (m := m')
      (hlive.trans (congrArg LivePage.live hpage.symm))
      (hkept.reserved.trans (congrArg (fun m : LivePage => m.page.reserved) hpage.symm)))
    exact { htidied' with }

/-- **An abandoned page of the bin is taken over**, if one is registered. -/
theorem tryReclaim_ends (h : Sound w q D none T) :
    ProcEnds refuses panics (tryReclaim th b) w fun r w' =>
      match r with
      | none => Sound w' q D none T ∧ (∀ {S A}, Steps S A w q w' q) ∧ Tidied w w' ∧
          ∀ i j, ¬ w.Registered i b j
      | some p => Sound w' (pushTo q th b p) D none T ∧
          (∀ {S A}, th ∈ A → Steps S A w q w' (pushTo q th b p)) ∧ Tidied w w' ∧
          p ∈ w.pages ∧ ¬ (w.page p).Owned ∧ ¬ (w.page p).Full := by
  simp only [tryReclaim, store, Prog.bind_eq, Prog.pure_eq, Prog.perform_bind]
  apply Ends.bind
  apply nextTseq_ends.mono
  rintro tseq _ ⟨f, rfl⟩
  have h₀ : Sound { w with tseq := f } q D none T := { h with }
  have hsteps₀ : ∀ {S A}, Steps S A w q { w with tseq := f } q :=
    Steps.of_rfl rfl rfl rfl (fun _ _ h => h) rfl fun _ _ => rfl
  apply Ends.bind
  apply (Subproc.reclaimPage_ends h₀).mono
  intro r w₂ hw₂
  cases r with
  | none =>
    obtain ⟨rfl, hnone⟩ := hw₂
    exact Ends.ret ⟨h₀, hsteps₀, ⟨rfl, rfl, fun _ => rfl, fun _ => rfl, rfl⟩, hnone⟩
  | some p =>
    obtain ⟨w₁, hr, rfl⟩ := hw₂
    obtain ⟨hpage, hbin, hno, hroom, ⟨base, words, refused, hsame⟩, h₁, hnotIn⟩ := hr
    have hpages₁ : w₁.pages = w.pages := by rw [hsame]; rfl
    have hdesc₁ : w₁.desc = w.desc := by rw [hsame]; rfl
    have hcreated₁ : w₁.pagesCreated = w.pagesCreated := by rw [hsame]; rfl
    have hpage₁ : w₁.page = Function.update w.page p (Page.withOwned (w.page p) true) := by
      rw [hsame]
      rfl
    have hlog : lastEvent w₁.log p = some (.abandoned p) := by
      rw [hsame]
      exact (h.abandoned p hpage (by simp) hno).2
    have hsteps₁ : ∀ {S A}, Steps S A w q { w₁ with log := .reclaimed p :: w₁.log } q := by
      intro S A
      have hset : Steps S A w q (w.setPage p (Page.withOwned (w.page p) true)) q :=
        Steps.setPage (fun _ _ hb => hb) rfl id
      apply hset.trans
      rw [hsame]
      exact Steps.of_rfl rfl rfl rfl (fun _ _ h => h) rfl fun _ _ => rfl
    have hp₁ : w₁.page p = Page.withOwned (w.page p) true := by
      rw [hpage₁, Function.update_self]
    have h₂ := h₁.logReclaimed hlog
    have hbin₁ : (w₁.desc p).bin = b := by rwa [hdesc₁]
    have ho₁ : (w₁.page p).Owned := by
      rw [hp₁]
      rfl
    apply (takeOver_ends h₂ hbin₁ ho₁ hnotIn).mono
    rintro r w' ⟨rfl, h', hsteps', htidied'⟩
    refine ⟨h', fun hth => hsteps₁.trans (hsteps' hth), Tidied.trans ?_ htidied', hpage, hno, hroom⟩
    have hset : Tidied w (w.setPage p (Page.withOwned (w.page p) true)) := Tidied.setPage rfl rfl
    refine ⟨hpages₁, hdesc₁, fun p' => ?_, fun p' => ?_, hcreated₁⟩
    · rw [← hset.live p']
      exact congrArg (fun f => (f p').live) hpage₁
    · rw [← hset.reserved p']
      exact congrArg (fun f => (f p').page.reserved) hpage₁

end ThreadHeap

end MimallocRs
