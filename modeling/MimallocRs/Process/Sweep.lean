import MimallocRs.Process.Serve

/-!
# Releasing empty pages

The functions that take empty pages out of the queues of a theap and release them: the retirement of
a page that has just become empty, the sweep of retired pages, and `collect`. Each leaves the pages
with live blocks in their queues, with the same live blocks (`Shrinks`), and a forced `collect` leaves
no empty page in any queue (`collect_ends`).
-/

namespace MimallocRs

open Interleave Prog

variable {refuses : Bool} {panics : Prop} {S : Set (PagePtr × Blk)} {A : Set TheapPtr}
  {w w' w'' : Process} {q q' q'' : Queues} {D : Set TheapPtr} {H : Option PagePtr}
  {T : Set (ℕ × ℕ)} {p : PagePtr} {th : TheapPtr} {i b n idx : ℕ} {m : LivePage} {α : Type}
  {Q : α → Process → Prop}

/-- Empty pages have been taken out of the queues of a theap and released. -/
structure Shrinks (th : TheapPtr) (w : Process) (q : Queues) (w' : Process) (q' : Queues) :
    Prop where
  steps : ∀ {S A}, th ∈ A → Steps S A w q w' q'
  sublist : ∀ b, (q' th b).Sublist (q th b)
  kept : ∀ b, ∀ p ∈ q th b, (w.page p).live.Nonempty → p ∈ q' th b
  removed : ∀ b, ∀ p ∈ q th b, p ∉ q' th b → p ∉ w'.pages
  pages : w'.pages ⊆ w.pages
  desc : w'.desc = w.desc
  live : ∀ p, (w'.page p).live = (w.page p).live
  reserved : ∀ p, (w'.page p).page.reserved = (w.page p).page.reserved
  created : w'.pagesCreated = w.pagesCreated

theorem Shrinks.trans (h : Shrinks th w q w' q') (h' : Shrinks th w' q' w'' q'') :
    Shrinks th w q w'' q'' where
  steps hth := (h.steps hth).trans (h'.steps hth)
  sublist b := (h'.sublist b).trans (h.sublist b)
  kept b p hp hl := h'.kept b p (h.kept b p hp hl) ((h.live p).symm ▸ hl)
  removed b p hp hno := by
    by_cases hp' : p ∈ q' th b
    · exact h'.removed b p hp' hno
    · exact fun hc => h.removed b p hp hp' (h'.pages hc)
  pages := h'.pages.trans h.pages
  desc := h'.desc.trans h.desc
  live p := (h'.live p).trans (h.live p)
  reserved p := (h'.reserved p).trans (h.reserved p)
  created := h'.created.trans h.created

/-- Nothing has been released. -/
theorem Shrinks.of_tidied (ht : Tidied w w') (hsteps : ∀ {S A}, Steps S A w q w' q) :
    Shrinks th w q w' q where
  steps _ := hsteps
  sublist _ := .refl _
  kept _ _ hp _ := hp
  removed _ _ hp hno := (hno hp).elim
  pages := ht.pages.le
  desc := ht.desc
  live := ht.live
  reserved := ht.reserved
  created := ht.created

theorem Shrinks.refl : Shrinks th w q w q := .of_tidied .refl Steps.refl

/-- A change of the cells of a theap that no clause is about. -/
theorem Shrinks.of_rfl (hpages : w'.pages = w.pages) (hpage : w'.page = w.page)
    (hdesc : w'.desc = w.desc) (harenas : ∀ i a, w.arenas i = some a → w'.arenas i = some a)
    (hclients : w'.clients = w.clients) (hcreated : w'.pagesCreated = w.pagesCreated) :
    Shrinks th w q w' q := by
  refine .of_tidied ⟨hpages, hdesc, fun p => ?_, fun p => ?_, hcreated⟩
    (Steps.of_rfl hpages hpage hdesc harenas hclients fun _ _ => rfl)
  · rw [hpage]
  · rw [hpage]

/-! ## One empty page -/

/-- A page that is in a queue is in no registry. -/
theorem Sound.notInRegistry (h : Sound w q D none T) (hp : p ∈ q th b) : ¬ w.InRegistry p := by
  intro hin
  obtain ⟨hpages, -, hq⟩ := h.queued th b p hp
  obtain ⟨p', hp', hi, -, hj, hor⟩ := h.registered _ _ _ hin
  obtain ⟨ho, -⟩ := hor.resolve_left (by simp)
  have hfirst := h.first_mem hpages
  have hfirst' := h.first_mem hp'
  rw [hi, hj] at hfirst'
  rw [h.eq_of_slices hpages hp' hfirst hfirst'] at ho
  exact ho hq.owned

/-- `all_free` holds of a page whose blocks are neither live nor queued. -/
theorem LivePage.Blocks.live_of_used {captured : Option Blk} {fr lo xs cap : List Blk}
    (h : m.Blocks captured fr lo xs cap) (hused : m.page.used = 0) : m.live = ∅ := by
  have heq := h.used_eq
  rw [← Finset.card_eq_zero]
  omega

theorem LivePage.Blocks.used_of_live {fr lo : List Blk} (h : m.Blocks none fr lo [] [])
    (hlive : m.live = ∅) : m.page.used = 0 := by
  rw [h.used_eq, hlive]
  rfl

/-- A page is taken out of its queue and released. -/
theorem releaseQueued_ends (h : Sound w q D none ∅) (hp : p ∈ q th b) :
    ProcEnds refuses panics (releasePageSlices p) ((w.clearDirect th p).remove th b p) fun _ w' =>
      ((w.clearDirect th p).remove th b p).Released p w' ∧
        Sound w' (eraseFrom q th b p) D none ∅ := by
  have hcleared : Sound (w.clearDirect th p) q D none ∅ := h.clearDirect
  apply releasePageSlices_ends (hcleared.remove hp fun _ => Sound.clearDirect_ne)
  exact h.notInRegistry hp

theorem Shrinks.release (hempty : (w.page p).live = ∅)
    (hr : ((w.clearDirect th p).remove th b p).Released p w') :
    Shrinks th w q w' (eraseFrom q th b p) where
  steps {S A} hth := by
    have hremove : Steps S A w q ((w.clearDirect th p).remove th b p) (eraseFrom q th b p) :=
      Steps.of_rfl rfl rfl rfl (fun _ _ h => h) rfl (eraseFrom_others hth)
    apply hremove.trans (hr.steps _)
    rintro c - ⟨-, hl⟩
    have hl : c ∈ (w.page p).live := hl
    rw [hempty] at hl
    cases hl
  sublist b' := by
    by_cases hb : b' = b
    · rw [hb, eraseFrom_self]
      exact List.erase_sublist
    · rw [eraseFrom_of_ne fun hc => hb hc.2]
  kept b' p' hp' hl := by
    have hne : p' ≠ p := by
      rintro rfl
      rw [hempty] at hl
      exact Finset.not_nonempty_empty hl
    by_cases hb : b' = b
    · rw [hb, eraseFrom_self]
      rw [hb] at hp'
      exact (List.mem_erase_of_ne hne).mpr hp'
    · rwa [eraseFrom_of_ne fun hc => hb hc.2]
  removed b' p' hp' hno := by
    obtain ⟨_, _, _, rfl⟩ := hr
    by_cases hb : b' = b
    · rw [hb, eraseFrom_self] at hno
      rw [hb] at hp'
      have heq : p' = p := by
        by_contra hne
        exact hno ((List.mem_erase_of_ne hne).mpr hp')
      rw [heq]
      exact Finset.notMem_erase _ _
    · rw [eraseFrom_of_ne fun hc => hb hc.2] at hno
      exact (hno hp').elim
  pages := by
    obtain ⟨_, _, _, rfl⟩ := hr
    exact Finset.erase_subset _ _
  desc := by
    obtain ⟨_, _, _, rfl⟩ := hr
    rfl
  live p' := by
    obtain ⟨_, _, _, rfl⟩ := hr
    rfl
  reserved p' := by
    obtain ⟨_, _, _, rfl⟩ := hr
    rfl
  created := by
    obtain ⟨_, _, _, rfl⟩ := hr
    rfl

/-- **`retire_page`** leaves an empty page in its queue or releases it. -/
theorem retirePage_ends (h : Sound w q D none ∅) (hp : p ∈ q th b)
    (hempty : (w.page p).live = ∅) :
    ProcEnds refuses panics (retirePage p) w fun _ w' => ∃ q', Sound w' q' D none ∅ ∧
      Shrinks th w q w' q' ∧ (q' = q ∨ q' = eraseFrom q th b p) := by
  obtain ⟨hpages, -, hq⟩ := h.queued th b p hp
  simp only [retirePage, fetch, store, Prog.bind_eq, Prog.pure_eq, Prog.perform_bind]
  apply ProcEnds.fetch
  apply ProcEnds.fetch
  apply ProcEnds.fetch
  rw [hq.theap, hq.bin]
  split
  · exact Ends.ret ⟨q, h, .refl, Or.inl rfl⟩
  · apply ProcEnds.fetch
    split
    · apply ProcEnds.fetch
      apply ProcEnds.store
      apply ProcEnds.store
      apply Ends.ret
      exact ⟨q, { h with }, .of_rfl rfl rfl rfl (fun _ _ h => h) rfl rfl, Or.inl rfl⟩
    · apply ProcEnds.store
      apply ProcEnds.store
      apply (releaseQueued_ends h hp).mono
      rintro _ w' ⟨hr, h'⟩
      exact ⟨_, h', .release hempty hr, Or.inr rfl⟩

/-! ## The sweep -/

theorem Sound.head_mem (h : Sound w q D H T) (hf : w.first th b = some p) : p ∈ q th b := by
  apply List.mem_of_head?
  rw [← (h.queues th b).dlist.head_eq, hf]

/-- The pages of a theap are in the queues of its bins. -/
theorem Sound.bin_lt_count (h : Sound w q D H T) (hp : p ∈ q th b) : b < miBinCount := by
  obtain ⟨hpages, -, hq⟩ := h.queued th b p hp
  have hplace := (h.pageOk p hpages).place
  rw [hq.bin] at hplace
  have hbins : miBinCount = miBinHuge + 2 := rfl
  cases p with
  | slice i idx =>
    have hlt := hplace.2.2.1
    omega
  | header hdr =>
    have heq := hplace.1
    omega

namespace ThreadHeap

/-- **`collect_retired`** releases empty pages only. -/
theorem collectRetired_ends {force : Bool} (h : Sound w q D none ∅) :
    ProcEnds refuses panics (collectRetired th force) w fun _ w' => ∃ q', Sound w' q' D none ∅ ∧
      Shrinks th w q w' q' := by
  simp only [collectRetired, iterate, fetch, store, Prog.bind_eq, Prog.pure_eq, Prog.perform_bind]
  apply ProcEnds.fetch
  apply ProcEnds.fetch
  simp only [Prog.loop_bind, Prog.ret_bind]
  refine Ends.loop_measure (fun x => w.pageRetiredMax th + 1 - x.1)
    (fun _ w' => ∃ q', Sound w' q' D none ∅ ∧ Shrinks th w q w' q') ?_ ⟨q, h, .refl⟩
  rintro ⟨b, min, max⟩ w₁ ⟨q₁, h₁, hs₁⟩
  dsimp only
  split
  · apply Ends.ret
    apply ProcEnds.store
    have h₂ : ∀ lo hi, Sound { w₁ with pageRetiredMin := lo, pageRetiredMax := hi } q₁ D none ∅ :=
      fun _ _ => { h₁ with }
    apply (Subproc.tryPurge_ends (h₂ _ _)).mono
    rintro _ w₂ ⟨hsame, h₃⟩
    refine ⟨q₁, h₃, hs₁.trans ?_⟩
    obtain ⟨⟨_, _, _, _, _, rfl⟩, hold⟩ := hsame
    exact .of_rfl rfl rfl rfl hold rfl rfl
  · next hle =>
    have hdec : w.pageRetiredMax th + 1 - (b + 1) < w.pageRetiredMax th + 1 - b := by omega
    apply ProcEnds.fetch
    split
    · exact Ends.ret ⟨⟨q₁, h₁, hs₁⟩, hdec⟩
    · next p hfirst =>
      have hp := h₁.head_mem hfirst
      obtain ⟨hpages, -, hq⟩ := h₁.queued th b p hp
      obtain ⟨fr, lo, xs, hblocks⟩ := (h₁.pageOk p hpages).blocks
      have hexpire : ∀ n, Sound (w₁.setRetireExpire p n) q₁ D none ∅ ∧
          Shrinks th w₁ q₁ (w₁.setRetireExpire p n) q₁ := fun n =>
        ⟨{ h₁ with }, .of_rfl rfl rfl rfl (fun _ _ h => h) rfl rfl⟩
      apply ProcEnds.fetch
      split
      · exact Ends.ret ⟨⟨q₁, h₁, hs₁⟩, hdec⟩
      · apply ProcEnds.page rfl
        rw [w₁.setPage_self]
        split
        · apply ProcEnds.store
          exact Ends.ret ⟨⟨q₁, (hexpire _).1, hs₁.trans (hexpire _).2⟩, hdec⟩
        · next hused =>
          have hempty : (w₁.page p).live = ∅ := by
            apply hblocks.live_of_used
            simpa using hused
          apply ProcEnds.store
          split
          · apply ProcEnds.store
            apply ProcEnds.store
            apply Ends.bind
            apply (releaseQueued_ends (hexpire _).1 hp).mono
            rintro _ w₂ ⟨hr, h₂⟩
            apply Ends.ret
            refine ⟨⟨_, h₂, ?_⟩, hdec⟩
            exact (hs₁.trans (hexpire _).2).trans
              (.release hempty hr)
          · exact Ends.ret ⟨⟨q₁, (hexpire _).1, hs₁.trans (hexpire _).2⟩, hdec⟩

/-! ## Collecting -/

/-- Every page of a queue is collected, and the empty ones are retired or, if `force`, released. -/
theorem collectQueue_ends {force : Bool} {l₁ l : List PagePtr} (h : Sound w q D none ∅)
    (hq : q th b = l₁ ++ l) :
    ProcEnds refuses panics (collectQueue th force b l.head?) w fun _ w' => ∃ q' l',
      Sound w' q' D none ∅ ∧ Shrinks th w q w' q' ∧ q' th b = l₁ ++ l' ∧
        (∀ b' ≠ b, q' th b' = q th b') ∧
        (force = true → ∀ p ∈ l', (w.page p).live.Nonempty) := by
  simp only [collectQueue, iterate, fetch, store, Prog.bind_eq, Prog.pure_eq, Prog.perform_bind]
  induction l generalizing w q l₁ with
  | nil =>
    apply Ends.loop
    exact Ends.ret ⟨q, [], h, .refl, hq, fun _ _ => rfl, fun _ p hp => (by cases hp)⟩
  | cons p l ih =>
    have hp : p ∈ q th b := by
      rw [hq]
      exact List.mem_append_right _ List.mem_cons_self
    obtain ⟨hpages, -, hqd⟩ := h.queued th b p hp
    obtain ⟨fr, lo, xs, hblocks⟩ := (h.pageOk p hpages).blocks
    have hnodup := (h.queues th b).dlist.nodup
    apply Ends.loop
    apply Ends.bind
    simp only [List.head?_cons]
    apply ProcEnds.fetch
    rw [h.next_eq hq]
    apply Ends.bind
    apply ProcEnds.onPage (Page.collect_ends hblocks)
    rintro _ m ⟨fr', hblocks', hkept, hlive, hcap⟩
    have ht : Page.Tidy (w.page p) m := ⟨⟨fr', [], [], hblocks'⟩, hkept, hcap.ge⟩
    have h₁ := h.tidy hp ht
    have hs₁ : Shrinks th w q (w.setPage p m) q :=
      .of_tidied (.setPage hlive hkept.reserved) (Steps.tidy ht hlive.ge)
    -- the rest of the queue, after the page has been dealt with
    have rest : ∀ {w₂ q₂}, Sound w₂ q₂ D none ∅ → Shrinks th w q w₂ q₂ →
        (∀ b' ≠ b, q₂ th b' = q th b') →
        (q₂ th b = l₁ ++ p :: l ∧ (force = true → (w.page p).live.Nonempty) ∨
          q₂ th b = l₁ ++ l) →
        ProcEnds refuses panics (collectQueue th force b l.head?) w₂ fun _ w' => ∃ q' l',
          Sound w' q' D none ∅ ∧ Shrinks th w q w' q' ∧ q' th b = l₁ ++ l' ∧
            (∀ b' ≠ b, q' th b' = q th b') ∧
            (force = true → ∀ p ∈ l', (w.page p).live.Nonempty) := by
      intro w₂ q₂ h₂ hs₂ hothers hor
      rcases hor with ⟨hq₂, hl⟩ | hq₂
      · have hq₂ : q₂ th b = (l₁ ++ [p]) ++ l := by
          rw [hq₂]
          simp
        apply (ih h₂ hq₂).mono
        rintro _ w' ⟨q', l', h', hs', hq', hothers', hl'⟩
        refine ⟨q', p :: l', h', hs₂.trans hs', by rw [hq']; simp, ?_, fun hf p' hp' => ?_⟩
        · exact fun b' hb' => (hothers' b' hb').trans (hothers b' hb')
        · rcases List.mem_cons.mp hp' with rfl | hp'
          · exact hl hf
          · rw [← hs₂.live p']
            exact hl' hf p' hp'
      · apply (ih h₂ hq₂).mono
        rintro _ w' ⟨q', l', h', hs', hq', hothers', hl'⟩
        refine ⟨q', l', h', hs₂.trans hs', hq', ?_, fun hf p' hp' => ?_⟩
        · exact fun b' hb' => (hothers' b' hb').trans (hothers b' hb')
        · rw [← hs₂.live p']
          exact hl' hf p' hp'
    have herase : eraseFrom q th b p th b = l₁ ++ l := by
      rw [eraseFrom_self, hq]
      rw [hq] at hnodup
      have hp₁ : p ∉ l₁ := fun hc =>
        (List.nodup_append.mp hnodup).2.2 p hc p List.mem_cons_self rfl
      rw [List.erase_append_right _ hp₁, List.erase_cons_head]
    have hother : ∀ b' ≠ b, eraseFrom q th b p th b' = q th b' := fun b' hb' =>
      eraseFrom_of_ne fun hc => hb' hc.2
    apply ProcEnds.page rfl
    rw [Process.setPage_self]
    have hself : (w.setPage p m).page p = m := w.setPage_page p m
    rw [hself]
    split
    · next hused =>
      have hempty : (w.page p).live = ∅ := by
        rw [← hlive]
        exact hblocks'.live_of_used (by simpa using hused)
      have hempty₁ : ((w.setPage p m).page p).live = ∅ := by
        rw [hself, hlive, hempty]
      by_cases hforce : force = true
      · rw [if_pos hforce]
        apply ProcEnds.store
        apply ProcEnds.store
        apply Ends.bind
        apply (releaseQueued_ends h₁ hp).mono
        rintro _ w₂ ⟨hr, h₂⟩
        apply Ends.ret
        exact rest h₂ (hs₁.trans (.release hempty₁ hr)) hother (Or.inr herase)
      · rw [if_neg hforce]
        apply Ends.bind
        apply (retirePage_ends h₁ hp hempty₁).mono
        rintro _ w₂ ⟨q₂, h₂, hs₂, hor⟩
        apply Ends.ret
        rcases hor with heq | heq
        · subst heq
          exact rest h₂ (hs₁.trans hs₂) (fun _ _ => rfl) (Or.inl ⟨hq, fun hf => (hforce hf).elim⟩)
        · subst heq
          exact rest h₂ (hs₁.trans hs₂) hother (Or.inr herase)
    · next hused =>
      apply Ends.ret
      have hl : (w.page p).live.Nonempty := by
        rw [Finset.nonempty_iff_ne_empty, ← hlive]
        intro hempty
        rw [hblocks'.used_of_live hempty] at hused
        exact hused rfl
      exact rest h₁ hs₁ (fun _ _ => rfl) (Or.inl ⟨hq, fun _ => hl⟩)

/-- **`collect`** releases empty pages only, and all of them if `force`. -/
theorem collect_ends {force : Bool} (h : Sound w q D none ∅) :
    ProcEnds refuses panics (collect th force) w fun _ w' => ∃ q', Sound w' q' D none ∅ ∧
      Shrinks th w q w' q' ∧ (force = true → (∀ b, ∀ p ∈ q' th b, (w.page p).live.Nonempty) ∧
        w'.pageRetiredMin th = miBinFull ∧ w'.pageRetiredMax th = 0) := by
  simp only [collect, fetch, store, Prog.bind_eq, Prog.perform_bind]
  apply Ends.bind
  refine Ends.forEach (fun l w' => ∃ q', Sound w' q' D none ∅ ∧ Shrinks th w q w' q' ∧
    (force = true → ∀ b < miBinCount, b ∉ l → ∀ p ∈ q' th b, (w.page p).live.Nonempty)) ?_ ?_
    ⟨q, h, .refl, fun _ b hb hno => (hno (List.mem_range.mpr hb)).elim⟩
  · rintro b l w₁ ⟨q₁, h₁, hs₁, hdone⟩
    apply ProcEnds.fetch
    rw [(h₁.queues th b).dlist.head_eq]
    apply (collectQueue_ends h₁ (List.nil_append _).symm).mono
    rintro _ w₂ ⟨q₂, l', h₂, hs₂, hq₂, hothers, hl'⟩
    refine ⟨q₂, h₂, hs₁.trans hs₂, fun hf b' hb' hno p hp => ?_⟩
    by_cases heq : b' = b
    · subst heq
      rw [hq₂] at hp
      rw [← hs₁.live p]
      exact hl' hf p hp
    · rw [hothers b' heq] at hp
      exact hdone hf b' hb' (fun hc => (List.mem_cons.mp hc).elim heq hno) p hp
  · rintro w₁ ⟨q₁, h₁, hs₁, hdone⟩
    have hall : force = true → ∀ b, ∀ p ∈ q₁ th b, (w.page p).live.Nonempty := by
      intro hf b p hp
      exact hdone hf b (h₁.bin_lt_count hp) (by simp) p hp
    have purge : ∀ {w₂}, Sound w₂ q₁ D none ∅ → Shrinks th w q w₂ q₁ →
        (force = true → w₂.pageRetiredMin th = miBinFull ∧ w₂.pageRetiredMax th = 0) →
        ProcEnds refuses panics (Subproc.tryPurge force) w₂ fun _ w' => ∃ q',
          Sound w' q' D none ∅ ∧ Shrinks th w q w' q' ∧ (force = true →
            (∀ b, ∀ p ∈ q' th b, (w.page p).live.Nonempty) ∧
              w'.pageRetiredMin th = miBinFull ∧ w'.pageRetiredMax th = 0) := by
      intro w₂ h₂ hs₂ hreset
      apply (Subproc.tryPurge_ends h₂).mono
      rintro _ w₃ ⟨hsame, h₃⟩
      obtain ⟨⟨_, _, _, _, _, rfl⟩, hold⟩ := hsame
      exact ⟨q₁, h₃, hs₂.trans (.of_rfl rfl rfl rfl hold rfl rfl),
        fun hf => ⟨hall hf, hreset hf⟩⟩
    cases force with
    | false => exact purge h₁ hs₁ fun hc => (by cases hc)
    | true =>
      apply ProcEnds.store
      have h₂ : ∀ lo hi, Sound { w₁ with pageRetiredMin := lo, pageRetiredMax := hi } q₁ D none ∅ ∧
          Shrinks th w q { w₁ with pageRetiredMin := lo, pageRetiredMax := hi } q₁ := fun _ _ =>
        ⟨{ h₁ with }, hs₁.trans (.of_rfl rfl rfl rfl (fun _ _ h => h) rfl rfl)⟩
      apply purge (h₂ _ _).1 (h₂ _ _).2
      exact fun _ => ⟨Function.update_self .., Function.update_self ..⟩

end ThreadHeap

end MimallocRs
