import MimallocRs.Process.Free

/-!
# Taking theaps down

A theap is dropped when its thread exits or its heap is deleted: each of its pages is released if no
block of it is live, and abandoned otherwise, in the registry if it has room. `destroy` releases the
pages of the calling thread's theap whatever is live in them. Either way the queues of the theap are
empty afterwards, and those of other theaps are as they were.
-/

namespace MimallocRs

open Interleave Prog

variable {refuses : Bool} {panics : Prop} {S : Set (PagePtr × Blk)} {A : Set TheapPtr}
  {w w' w'' : Process} {q q' q'' : Queues} {D : Set TheapPtr} {H : Option PagePtr}
  {T : Set (ℕ × ℕ)} {p : PagePtr} {th : TheapPtr} {i b n t : ℕ} {m : LivePage} {α β : Type}
  {blk : Blk} {a : Ptr} {x : PagePtr × Blk} {Q : α → Process → Prop}

/-! ## Abandoning a page -/

/-- A page that has been taken out of its queue. -/
structure Removed (w : Process) (q : Queues) (D : Set TheapPtr) (p : PagePtr) (b : ℕ) : Prop where
  sound : Sound w q D (some p) ∅
  owned : (w.page p).Owned
  bin_eq : (w.desc p).bin = b
  notIn : ¬ w.InRegistry p

/-- What a page looks like when its owner has given it up. -/
structure GivenUp (w : Process) (q : Queues) (D : Set TheapPtr) (p : PagePtr) : Prop where
  sound : Sound w q D (some p) ∅
  notOwned : ¬ (w.page p).Owned
  abandoned : (w.page p).Abandoned
  bit : w.InRegistry p → (w.page p).ownerId = miThreadidAbandonedMapped
  reg : w.registryRefused = false → (w.page p).ownerId = miThreadidAbandonedMapped →
    w.InRegistry p

/-- The owner restamps a page with the id `id` and gives it up. -/
theorem giveUp_ends {id : ℕ} (h : Sound w q D (some p) ∅) (hmod : id % 4 = 0)
    (hlive : (w.page p).live.Nonempty)
    (hid : id = miThreadidAbandonedMapped ∧ ¬ (w.page p).Full ∨
      id = miThreadidAbandoned ∧ (w.page p).Full)
    (hbit : w.InRegistry p → id = miThreadidAbandonedMapped)
    (hreg : w.registryRefused = false → id = miThreadidAbandonedMapped → w.InRegistry p) :
    ProcEnds refuses panics ((Page.setOwner id).interp (handlePage p b) |>.bind fun _ =>
      Page.setUnowned.interp (handlePage p b)) w fun _ w' => GivenUp w' q D p ∧
        (w'.page p).live = (w.page p).live ∧ ∀ {S A}, Steps S A w q w' q := by
  have hok := h.pageOk p (h.held p rfl)
  obtain ⟨fr, lo, xs, hblocks⟩ := hok.blocks
  obtain ⟨hown, hflags⟩ := Page.ownerId_stamp id (w.page p).page.xthreadId hmod
  apply Ends.bind
  apply ProcEnds.handled Page.setOwner_ends
  rintro _ _ rfl
  generalize hm : ({ w.page p with page := { (w.page p).page with xthreadId := id +
    (w.page p).page.xthreadId % (miPageFlagMask + 1) } } : LivePage) = m
  have hself : (w.setPage p m).page p = m := w.setPage_page p m
  have hmblocks : m.Blocks none fr lo xs [] := by
    rw [← hm]
    exact hblocks.setId
  apply ProcEnds.handled (by
    rw [hself]
    exact Page.setUnowned_ends hmblocks)
  rintro _ _ rfl
  rw [Process.setPage_setPage]
  have hself' : (w.setPage p (Page.withOwned m false)).page p = Page.withOwned m false :=
    w.setPage_page p _
  have hid' : (Page.withOwned m false).ownerId = id := by
    rw [← hm]
    exact hown
  have hlive' : (Page.withOwned m false).live = (w.page p).live := by
    rw [← hm]
    rfl
  have hres : (Page.withOwned m false).page.reserved = (w.page p).page.reserved := by
    rw [← hm]
    rfl
  have hsize : (Page.withOwned m false).page.blockSize = (w.page p).page.blockSize := by
    rw [← hm]
    rfl
  have hok' : PageOk p (w.desc p) (Page.withOwned m false) :=
    hok.congr ⟨fr, lo, xs, Page.withOwned_blocks hmblocks⟩ hsize hres
  refine ⟨⟨h.setPage hok' (Or.inl rfl), ?_, ?_, ?_, ?_⟩, ?_, fun {S A} => ?_⟩
  · rw [hself']
    exact Bool.false_ne_true
  · rw [hself']
    unfold LivePage.Abandoned
    rw [hlive', hid', LivePage.full_congr hlive' hres]
    exact ⟨hlive, hid⟩
  · rw [hself', hid']
    exact hbit
  · rw [hself', hid']
    exact hreg
  · rw [hself', hlive']
  · apply Steps.setPage
    · exact fun c _ hc => hlive' ▸ hc
    · exact hsize
    · intro hf
      rw [← hm]
      show (id + (w.page p).page.xthreadId % (miPageFlagMask + 1)) % (miPageFlagMask + 1) ≠ 0
      rw [hflags]
      exact hf

/-- **`abandon_owned_page`** releases a page with no live block, and gives up any other. -/
theorem abandonOwnedPage_ends (h : Removed w q D p b) :
    ProcEnds refuses panics (abandonOwnedPage p b) w fun _ w' => (∀ {S A}, Steps S A w q w' q) ∧
      ((w.page p).live = ∅ ∧ Sound w' q D none ∅ ∧ p ∉ w'.pages ∨ GivenUp w' q D p) := by
  obtain ⟨fr, lo, xs, hblocks⟩ := (h.sound.pageOk p (h.sound.held p rfl)).blocks
  simp only [abandonOwnedPage, Page.abandonOwnedPage, Prog.bind_eq, Prog.interp_bind]
  apply Ends.bind
  apply ProcEnds.handled (Page.collect_ends hblocks)
  rintro _ m ⟨fr', hblocks', hkept, hlive, hcap⟩
  have ht : Page.Tidy (w.page p) m := ⟨⟨fr', [], [], hblocks'⟩, hkept, hcap.ge⟩
  have hself : (w.setPage p m).page p = m := w.setPage_page p m
  have h₁ := h.sound.setPage (p := p) (m := m)
    ((h.sound.pageOk p (h.sound.held p rfl)).tidy ht) (Or.inl rfl)
  have hsteps₁ : ∀ {S A}, Steps S A w q (w.setPage p m) q := fun {S A} => Steps.tidy ht hlive.ge
  simp only [Prog.interp_perform, handlePage]
  apply Ends.bind
  apply ProcEnds.page rfl
  rw [Process.setPage_self, hself]
  apply Ends.ret
  by_cases hused : m.page.used = 0
  · have hempty := hblocks'.live_of_used hused
    simp only [hused, beq_self_eq_true, if_true, Prog.interp_perform, handlePage]
    apply (releasePageSlices_ends h₁ h.notIn).mono
    rintro _ w' ⟨hreleased, h'⟩
    have hgone : p ∉ w'.pages := by
      obtain ⟨_, _, _, rfl⟩ := hreleased
      exact Finset.notMem_erase _ _
    refine ⟨fun {S A} => hsteps₁.trans (hreleased.steps ?_), Or.inl ⟨hlive ▸ hempty, h', hgone⟩⟩
    rintro c - ⟨-, hl⟩
    have hl : c ∈ ((w.setPage p m).page p).live := hl
    rw [hself, hempty] at hl
    cases hl
  · have hlive₁ : m.live.Nonempty := by
      rw [Finset.nonempty_iff_ne_empty]
      exact fun hempty => hused (hblocks'.used_of_live hempty)
    have hbeq : (m.page.used == 0) = false := beq_eq_false_iff_ne.mpr hused
    simp only [hbeq, Bool.false_eq_true, if_false, Prog.interp_bind]
    apply Ends.bind
    apply ProcEnds.handled (by
      rw [hself]
      exact Page.isFull_ends hblocks')
    rintro r m₂ ⟨ht₂, hlive₂, hfull⟩
    rw [Process.setPage_setPage]
    have hself₂ : (w.setPage p m₂).page p = m₂ := w.setPage_page p m₂
    have h₂ : Sound (w.setPage p m₂) q D (some p) ∅ := by
      have hok₁ := h₁.pageOk p (h₁.held p rfl)
      rw [hself] at hok₁
      have h₂ := h₁.setPage (p := p) (m := m₂) (hok₁.tidy ht₂) (Or.inl rfl)
      rwa [Process.setPage_setPage] at h₂
    have hsteps₂ : ∀ {S A}, Steps S A w q (w.setPage p m₂) q := by
      intro S A
      have hsteps₂ : Steps S A (w.setPage p m) q ((w.setPage p m).setPage p m₂) q := by
        apply Steps.tidy
        · rwa [hself]
        · rw [hself, hlive₂]
      rw [Process.setPage_setPage] at hsteps₂
      exact hsteps₁.trans hsteps₂
    have hlive₂' : ((w.setPage p m₂).page p).live.Nonempty := by
      rwa [hself₂, hlive₂]
    have hfull₂ : ((w.setPage p m₂).page p).Full ↔ r = true := by
      rw [hself₂, LivePage.full_congr hlive₂ ht₂.2.1.reserved, hfull]
    cases r with
    | true =>
      rw [if_pos rfl, Prog.interp_bind]
      apply (giveUp_ends h₂ rfl hlive₂' (Or.inr ⟨rfl, hfull₂.mpr rfl⟩)
        (fun hin => (h.notIn hin).elim) fun _ hc => (by cases hc)).mono
      rintro _ w' ⟨hgiven, -, hsteps'⟩
      exact ⟨hsteps₂.trans hsteps', Or.inr hgiven⟩
    | false =>
      simp only [Bool.false_eq_true, if_false, Prog.interp_bind, Prog.interp_perform, handlePage]
      apply Ends.bind
      have hregister : ProcEnds refuses panics (Subproc.abandonPage p (w.desc p).bin)
          (w.setPage p m₂) fun _ w' => (w.setPage p m₂).SameButRegistry w' ∧
            Sound w' q D (some p) ∅ ∧ (w'.registryRefused = false → w'.InRegistry p) :=
        Subproc.abandonPage_ends h₂
      rw [h.bin_eq] at hregister
      apply hregister.mono
      rintro _ w₃ ⟨hsame, h₃, hin⟩
      have hsteps₃ : ∀ {S A}, Steps S A w q w₃ q := hsteps₂.trans hsame.steps
      have hpage₃ : w₃.page p = m₂ := by
        obtain ⟨_, _, _, rfl⟩ := hsame
        exact hself₂
      rw [hself₂] at hlive₂' hfull₂
      apply (giveUp_ends h₃ rfl (by rwa [hpage₃])
        (Or.inl ⟨rfl, fun hc => Bool.false_ne_true (hfull₂.mp (hpage₃ ▸ hc))⟩) (fun _ => rfl)
        fun hrefused _ => hin hrefused).mono
      rintro _ w' ⟨hgiven, -, hsteps'⟩
      exact ⟨hsteps₃.trans hsteps', Or.inr hgiven⟩

/-- It is noted that the page in hand has been abandoned. -/
theorem Sound.logAbandoned (h : Sound w q D (some p) T) :
    Sound { w with log := .abandoned p :: w.log } q D (some p) T := by
  refine { h with abandoned := ?_, alternates := ⟨?_, h.alternates⟩ }
  · intro p' hp' hH ho
    obtain ⟨hab, hlast⟩ := h.abandoned p' hp' hH ho
    have hne : (PageEvent.abandoned p).page ≠ p' := fun heq => hH (congrArg some heq)
    exact ⟨hab, (lastEvent_cons_of_ne hne).trans hlast⟩
  · rintro p' ⟨⟩

/-- A page is released or abandoned. -/
theorem dropPage_ends (h : Removed w q D p b) :
    ProcEnds refuses panics ((abandonOwnedPage p b).bind fun _ =>
      store fun w => if p ∈ w.pages then { w with log := .abandoned p :: w.log } else w) w
      fun _ w' => Sound w' q D none ∅ ∧ ∀ {S A}, Steps S A w q w' q := by
  apply Ends.bind
  apply (abandonOwnedPage_ends h).mono
  rintro _ w' ⟨hsteps, hor⟩
  simp only [store, Prog.perform]
  apply ProcEnds.store
  apply Ends.ret
  rcases hor with ⟨-, h', hgone⟩ | hgiven
  · rw [if_neg hgone]
    exact ⟨h', hsteps⟩
  · rw [if_pos (hgiven.sound.held p rfl)]
    refine ⟨hgiven.sound.logAbandoned.letGo hgiven.notOwned hgiven.abandoned lastEvent_cons_self
      hgiven.bit hgiven.reg, hsteps.trans ?_⟩
    exact Steps.of_rfl rfl rfl rfl (fun _ _ h => h) rfl fun _ _ => rfl

/-! ## Emptying the queues of a theap -/

namespace ThreadHeap

/-- The pages of a queue, from the page `cur` on, are taken out of it, and `f` is called on each. -/
def emptyQueue (th : TheapPtr) (b : ℕ) (f : PagePtr → Prog ProcAct Unit) (cur : Option PagePtr) :
    Prog ProcAct Unit :=
  iterate (fun cur =>
    match cur with
    | none => return .inr ()
    | some p => do
      let next ← fetch (·.next p)
      store (·.remove th b p)
      f p
      return .inl next) cur

theorem dropQueue_eq {cur : Option PagePtr} :
    dropQueue th b cur = emptyQueue th b (fun p => (abandonOwnedPage p b).bind fun _ =>
      store fun w => if p ∈ w.pages then { w with log := .abandoned p :: w.log } else w) cur := by
  unfold dropQueue emptyQueue
  congr 1
  funext cur
  cases cur with
  | none => rfl
  | some p => simp only [Prog.bind_eq, Prog.bind_assoc]

theorem bulkQueue_eq {cur : Option PagePtr} :
    bulkQueue th b cur = emptyQueue th b releasePageSlices cur := rfl

/-- The pages of the queues of a theap that are empty now have been released. -/
structure Gone (th : TheapPtr) (w : Process) (q : Queues) (w' : Process) (q' : Queues) : Prop where
  pages : w'.pages ⊆ w.pages
  desc : w'.desc = w.desc
  gone : ∀ b, q' th b = [] → ∀ p ∈ q th b, p ∉ w'.pages

/-- What has happened to the queues of a theap that is not in use, if `K S p` says that `f` leaves
the live blocks in `S` alone when it is called on `p`, and `G` that it releases the page. -/
structure Emptied (D : Set TheapPtr) (K : Set (PagePtr × Blk) → PagePtr → Prop) (G : Prop)
    (th : TheapPtr) (w : Process) (q : Queues) (w' : Process) (q' : Queues) : Prop where
  sound : Sound w' q' D none ∅
  queues : ∀ b, q' th b = [] ∨ q' th b = q th b
  steps : ∀ {S A}, th ∈ A → (∀ b, ∀ p ∈ q th b, K S p) → Steps S A w q w' q'
  gone : G → Gone th w q w' q'

variable {K : Set (PagePtr × Blk) → PagePtr → Prop} {G : Prop} {f : PagePtr → Prog ProcAct Unit}

theorem Emptied.refl (h : Sound w q D none ∅) : Emptied D K G th w q w q where
  sound := h
  queues _ := Or.inr rfl
  steps _ _ := Steps.refl
  gone _ := ⟨subset_rfl, rfl, fun b hb p hp => by
    rw [hb] at hp
    cases hp⟩

theorem Emptied.trans (h : Emptied D K G th w q w' q') (h' : Emptied D K G th w' q' w'' q'') :
    Emptied D K G th w q w'' q'' where
  sound := h'.sound
  gone hG := by
    have hgone := h.gone hG
    have hgone' := h'.gone hG
    refine ⟨hgone'.pages.trans hgone.pages, hgone'.desc.trans hgone.desc, fun b hb p hp hmem => ?_⟩
    rcases h.queues b with hnil | hsame
    · exact hgone.gone b hnil p hp (hgone'.pages hmem)
    · rw [← hsame] at hp
      exact hgone'.gone b hb p hp hmem
  queues b := by
    rcases h'.queues b with hb | hb
    · exact Or.inl hb
    · rw [hb]
      exact h.queues b
  steps hth hK := by
    apply (h.steps hth hK).trans
    apply h'.steps hth
    intro b p hp
    rcases h.queues b with hb | hb
    · rw [hb] at hp
      cases hp
    · exact hK b p (hb ▸ hp)

theorem emptyQueue_ends (hf : ∀ {w q p}, Removed w q D p b → ProcEnds refuses panics (f p) w
      fun _ w' => Sound w' q D none ∅ ∧ (∀ {S A}, K S p → Steps S A w q w' q) ∧
        (G → w'.pages = w.pages.erase p ∧ w'.desc = w.desc))
    (h : Sound w q D none ∅) (hth : th ∉ D) :
    ProcEnds refuses panics (emptyQueue th b f (w.first th b)) w fun _ w' => ∃ q',
      Emptied D K G th w q w' q' ∧ q' th b = [] := by
  rw [(h.queues th b).dlist.head_eq]
  simp only [emptyQueue, iterate, fetch, store, Prog.bind_eq, Prog.pure_eq, Prog.perform_bind]
  generalize hl : q th b = l
  induction l generalizing w q with
  | nil =>
    apply Ends.loop
    exact Ends.ret ⟨q, .refl h, hl⟩
  | cons p l ih =>
    have hp : p ∈ q th b := by
      rw [hl]
      exact List.mem_cons_self
    obtain ⟨hpages, -, hq⟩ := h.queued th b p hp
    apply Ends.loop
    apply Ends.bind
    simp only [List.head?_cons]
    apply ProcEnds.fetch
    rw [h.next_eq (hl.trans (List.nil_append _).symm)]
    apply ProcEnds.store
    have hremoved : Removed (w.remove th b p) (eraseFrom q th b p) D p b :=
      ⟨h.remove hp fun hc => (hth hc).elim, hq.owned, hq.bin, h.notInRegistry hp⟩
    apply Ends.bind
    apply (hf hremoved).mono
    rintro _ w₁ ⟨h₁, hsteps₁, hgone₁⟩
    apply Ends.ret
    have hl₁ : eraseFrom q th b p th b = l := by
      rw [eraseFrom_self, hl, List.erase_cons_head]
    apply (ih h₁ hl₁).mono
    rintro _ w' ⟨q', hemptied, hnil⟩
    refine ⟨q', ⟨hemptied.sound, fun b' => ?_, fun hA hK => ?_, fun hG => ?_⟩, hnil⟩
    · by_cases hb : b' = b
      · rw [hb]
        exact Or.inl hnil
      · have hor := hemptied.queues b'
        rwa [eraseFrom_of_ne fun hc => hb hc.2] at hor
    · apply ((Steps.remove hA).trans (hsteps₁ (hK b p hp))).trans
      apply hemptied.steps hA
      exact fun b' p' hp' => hK b' p' (mem_of_mem_eraseFrom hp')
    · obtain ⟨hpages₁, hdesc₁⟩ := hgone₁ hG
      have hgone := hemptied.gone hG
      have hsub : w₁.pages ⊆ w.pages := hpages₁ ▸ Finset.erase_subset ..
      refine ⟨hgone.pages.trans hsub, hgone.desc.trans hdesc₁, fun b' hb' p' hp' hmem => ?_⟩
      by_cases heq : p' = p
      · have hmem₁ := hgone.pages hmem
        rw [hpages₁, heq] at hmem₁
        exact Finset.notMem_erase _ _ hmem₁
      · exact hgone.gone b' hb' p' (mem_eraseFrom_of_ne heq hp') hmem

theorem emptyQueues_ends {f : ℕ → PagePtr → Prog ProcAct Unit}
    (hf : ∀ {b w q p}, Removed w q D p b → ProcEnds refuses panics (f b p) w
      fun _ w' => Sound w' q D none ∅ ∧ (∀ {S A}, K S p → Steps S A w q w' q) ∧
        (G → w'.pages = w.pages.erase p ∧ w'.desc = w.desc))
    (h : Sound w q D none ∅) (hth : th ∉ D) :
    ProcEnds refuses panics (forEach (fun b => .act (.fetch (·.first th b)) fun cur =>
      emptyQueue th b (f b) cur) (List.range miBinCount)) w fun _ w' => ∃ q',
        Emptied D K G th w q w' q' ∧ ∀ b, q' th b = [] := by
  refine Ends.forEach (fun l w' => ∃ q', Emptied D K G th w q w' q' ∧
    ∀ b < miBinCount, b ∉ l → q' th b = []) ?_ ?_
    ⟨q, .refl h, fun b hb hno => (hno (List.mem_range.mpr hb)).elim⟩
  · rintro b l w₁ ⟨q₁, h₁, hdone⟩
    apply ProcEnds.fetch
    apply (emptyQueue_ends hf h₁.sound hth).mono
    rintro _ w₂ ⟨q₂, h₂, hnil⟩
    refine ⟨q₂, h₁.trans h₂, fun b' hb' hno => ?_⟩
    by_cases heq : b' = b
    · rwa [heq]
    · rcases h₂.queues b' with hq | hq
      · exact hq
      · rw [hq]
        exact hdone b' hb' fun hc => (List.mem_cons.mp hc).elim heq hno
  · rintro w₁ ⟨q₁, h₁, hdone⟩
    refine ⟨q₁, h₁, fun b => ?_⟩
    rw [List.eq_nil_iff_forall_not_mem]
    intro p hp
    have hnil := hdone b (h₁.sound.bin_lt_count hp) (by simp)
    rw [hnil] at hp
    cases hp

/-- **`ThreadHeap::drop`** keeps all live blocks. -/
theorem drop_ends (h : Sound w q D none ∅) (hth : th ∉ D) :
    ProcEnds refuses panics (drop th) w fun _ w' => ∃ q', Sound w' q' D none ∅ ∧
      (∀ b, q' th b = []) ∧ ∀ {S A}, th ∈ A → Steps S A w q w' q' := by
  have hdrop : drop th = forEach (fun b => .act (.fetch (·.first th b)) fun cur =>
      emptyQueue th b (fun p => (abandonOwnedPage p b).bind fun _ => store fun w =>
        if p ∈ w.pages then { w with log := .abandoned p :: w.log } else w) cur)
      (List.range miBinCount) := by
    simp only [← dropQueue_eq]
    rfl
  rw [hdrop]
  apply (emptyQueues_ends (K := fun _ _ => True) (G := False) (fun hr => ?_) h hth).mono
  · rintro _ w' ⟨q', hemptied, hnil⟩
    exact ⟨q', hemptied.sound, hnil, fun hA => hemptied.steps hA fun _ _ _ => trivial⟩
  · apply (dropPage_ends hr).mono
    rintro _ w' ⟨h', hsteps⟩
    exact ⟨h', fun _ => hsteps, fun hG => hG.elim⟩

/-- **`teardown_theap_bulk`** keeps the live blocks of the pages of other theaps, and releases the
pages of its own. -/
theorem teardownBulk_ends (h : Sound w q D none ∅) (hth : th ∉ D) :
    ProcEnds refuses panics (teardownBulk th) w fun _ w' => ∃ q', Sound w' q' D none ∅ ∧
      (∀ b, q' th b = []) ∧ (∀ {S A}, th ∈ A → (∀ b, ∀ p ∈ q th b, ∀ blk, (p, blk) ∉ S) →
        Steps S A w q w' q') ∧ Gone th w q w' q' := by
  have hbulk : teardownBulk th = forEach (fun b => .act (.fetch (·.first th b)) fun cur =>
      emptyQueue th b releasePageSlices cur) (List.range miBinCount) := rfl
  rw [hbulk]
  apply (emptyQueues_ends (f := fun _ => releasePageSlices)
    (K := fun S p => ∀ blk, (p, blk) ∉ S) (G := True) (fun hr => ?_) h hth).mono
  · rintro _ w' ⟨q', hemptied, hnil⟩
    exact ⟨q', hemptied.sound, hnil, hemptied.steps, hemptied.gone trivial⟩
  · apply (releasePageSlices_ends hr.sound hr.notIn).mono
    rintro _ w' ⟨hreleased, h'⟩
    refine ⟨h', fun hK => hreleased.steps fun blk hS => (hK blk hS).elim, fun _ => ?_⟩
    obtain ⟨_, _, _, rfl⟩ := hreleased
    exact ⟨rfl, rfl⟩

end ThreadHeap

end MimallocRs
