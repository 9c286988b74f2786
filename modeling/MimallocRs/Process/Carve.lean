import MimallocRs.Process.Slices

/-!
# New pages

`new_page` carves a page of a bin from slices, and `alloc_huge` a page for a single block. When
either fails it leaves the pages and queues as they were. A page that `new_page` returns has room,
and the block that `alloc_huge` returns is large enough for the request.
-/

namespace MimallocRs

open Interleave Prog

variable {refuses : Bool} {panics : Prop} {S : Set (PagePtr × Blk)} {A : Set TheapPtr}
  {w w' : Process} {q : Queues} {D : Set TheapPtr} {H : Option PagePtr} {T : Set (ℕ × ℕ)}
  {p : PagePtr} {th : TheapPtr} {i b n idx : ℕ} {a : Arena} {bs : ℕ} {isZero : Bool}

/-! ## Page headers -/

theorem ownerId_of_flagless {m : LivePage} (h : m.page.xthreadId % 4 = 0) :
    m.ownerId = m.page.xthreadId := by
  unfold LivePage.ownerId
  have hmask : miPageFlagMask + 1 = 4 := rfl
  rw [hmask, h, Nat.sub_zero]

theorem TheapPtr.tid_mod (th : TheapPtr) : th.tid % 4 = 0 := currentTid_mod th.thread

/-- `page_slices_for` asks for enough slices. -/
theorem pageSlicesFor_spec (hbs : bs ≤ miLargeMaxObjSize) :
    Page.startOff + bs ≤ pageSlicesFor bs * miArenaSliceSize ∧ 0 < pageSlicesFor bs ∧
      pageSlicesFor bs ≤ 64 := by
  have hstart : Page.startOff = 144 := by decide
  rw [hstart]
  unfold pageSlicesFor miSmallMaxObjSize miMediumMaxObjSize miArenaSliceSize
  unfold miLargeMaxObjSize at hbs
  split
  · omega
  · split <;> omega

/-- The blocks of a new page fit into its slices, and there is at least one. -/
theorem init_reserved {slices tid : ℕ} (hbs : 0 < bs)
    (hroom : Page.startOff + bs ≤ slices * miArenaSliceSize) (hslices : slices ≤ 64) :
    0 < (Page.init slices bs tid isZero).reserved ∧
      Page.startOff + (Page.init slices bs tid isZero).reserved * bs ≤
        slices * miArenaSliceSize := by
  have hres : (Page.init slices bs tid isZero).reserved =
      (slices * miArenaSliceSize - Page.startOff) / bs := by
    apply Nat.mod_eq_of_lt
    apply Nat.lt_of_le_of_lt (Nat.div_le_self _ _)
    unfold miArenaSliceSize
    omega
  rw [hres]
  constructor
  · apply Nat.div_pos _ hbs
    omega
  · have hle := Nat.div_mul_le_self (slices * miArenaSliceSize - Page.startOff) bs
    omega

/-- A new page has no block on a list. -/
theorem init_blocks {slices tid : ℕ} :
    (⟨Page.init slices bs tid isZero, ∅⟩ : LivePage).Blocks none [] [] [] [] := by
  have hnil : Chain (Page.init slices bs tid isZero).next none [] := rfl
  refine ⟨⟨hnil, hnil, hnil, hnil, by simp, by simp, rfl, Nat.zero_le _⟩, fun b => ?_⟩
  simp [Page.init]

/-- The block of a huge page is handed out with it. -/
theorem serveHuge_blocks {tid : ℕ} :
    (⟨(Page.initHuge bs tid isZero).serveHuge, {0}⟩ : LivePage).Blocks none [] [] [] [] := by
  have hnil : Chain (Page.initHuge bs tid isZero).next none [] := rfl
  refine ⟨⟨hnil, hnil, hnil, hnil, by simp, by simp, rfl, le_rfl⟩, fun b => ?_⟩
  simp [Page.initHuge, Page.serveHuge]

/-! ## Writing and publishing a page -/

/-- The header of a page is not live while its slices are taken. -/
theorem Sound.slice_notMem (h : Sound w q D H (slicesOf i idx n)) (hpos : 0 < n) :
    PagePtr.slice i idx ∉ w.pages := by
  intro hp
  have hfirst := h.first_mem hp
  obtain ⟨hi, hj, -⟩ := (h.pageOk _ hp).place
  rw [hi, hj] at hfirst
  have hsome := (h.mapped i idx _).mpr ⟨hp, hfirst⟩
  rw [h.taken i idx ⟨rfl, le_rfl, by show idx < idx + n; omega⟩] at hsome
  cases hsome

/-- **A page is written, mapped and put in front of its queue.** -/
theorem Sound.publish {d : PageDesc} {page : Page} {m : LivePage}
    (h : Sound w q D none (slicesOf i idx n)) (hp : p ∉ w.pages) (hd : d.arena = i)
    (hidx : d.sliceIndex = idx) (hn : d.sliceCount = n) (hrun : w.Run i idx n)
    (hheader : ∀ hdr, p = .header hdr → (hdr, Page.sizeOf) ∈ w.metadata.live)
    (hok : PageOk p d m) (hq : Queued th b th d m) :
    Sound ((((w.initPage p d page th).setPage p m).mapSlices i idx n (some p)).publish th b p)
      (pushTo q th b p) D none ∅ := by
  subst hd hidx hn
  obtain ⟨a, ha, hin, hle, hpos⟩ := hrun
  have hinit : Sound ((w.initPage p d page th).setPage p m) q D none
      (slicesOf d.arena d.sliceIndex d.sliceCount) := (h.initPage hp).setNew hp
  have hdesc : ((w.initPage p d page th).setPage p m).desc p = d := Function.update_self ..
  have hpage : ((w.initPage p d page th).setPage p m).page p = m := Process.setPage_page ..
  have htheap : ((w.initPage p d page th).setPage p m).theap p = th := Function.update_self ..
  have hslices : (((w.initPage p d page th).setPage p m).desc p).slices =
      slicesOf d.arena d.sliceIndex d.sliceCount := by
    rw [hdesc]
    rfl
  have hplaced : ((w.initPage p d page th).setPage p m).Placed p := by
    unfold Process.Placed
    rw [hdesc]
    exact ⟨⟨a, ha, hin, hle, hpos⟩, hheader⟩
  have hmapped := hinit.mapPage hp hslices hplaced (by rwa [hdesc, hpage])
  have hno : ¬ ((w.initPage p d page th).setPage p m).Registered d.arena d.bin d.sliceIndex :=
    hinit.notMem_registry hpos fun j hj hj' => hinit.taken _ j ⟨rfl, hj, hj'⟩
  have hreg : ¬ ((w.initPage p d page th).setPage p m).InRegistry p := by
    unfold Process.InRegistry
    rwa [hdesc]
  have hq' : Queued th b (((w.initPage p d page th).setPage p m).theap p)
      (((w.initPage p d page th).setPage p m).desc p)
      (((w.initPage p d page th).setPage p m).page p) := by
    rwa [htheap, hdesc, hpage]
  have hpushed := hmapped.pushFront hq' hreg
  exact { hpushed with }

theorem Steps.publish {d : PageDesc} {page : Page} {m : LivePage} (hp : p ∉ w.pages)
    (hth : th ∈ A) : Steps S A w q
      ((((w.initPage p d page th).setPage p m).mapSlices i idx n (some p)).publish th b p)
      (pushTo q th b p) := by
  refine Steps.of_agree (fun p' hp' => ?_) (fun _ _ h => h) (by simp) (pushTo_others hth)
  have hne : p' ≠ p := fun heq => hp (heq ▸ hp')
  refine ⟨Finset.mem_insert_of_mem hp', ?_, Function.update_of_ne hne ..⟩
  exact (Function.update_of_ne hne ..).trans (Function.update_of_ne hne ..)

theorem publish_page {d : PageDesc} {page : Page} {m : LivePage} {m' : Option PagePtr} :
    ((((w.initPage p d page th).setPage p m).mapSlices i idx n m').publish th b p).page p = m :=
  Function.update_self ..

theorem publish_desc {d : PageDesc} {page : Page} {m : LivePage} {m' : Option PagePtr} :
    ((((w.initPage p d page th).setPage p m).mapSlices i idx n m').publish th b p).desc p = d :=
  Function.update_self ..

/-- The header of a page that has just been published is written again. -/
theorem publish_setPage {d : PageDesc} {page : Page} {m' : Option PagePtr}
    {f : LivePage → LivePage} :
    (((w.initPage p d page th).mapSlices i idx n m').publish th b p).setPage p
        (f ((((w.initPage p d page th).mapSlices i idx n m').publish th b p).page p)) =
      (((w.initPage p d page th).setPage p (f ⟨page, ∅⟩)).mapSlices i idx n m').publish th b p := by
  have hpage : (((w.initPage p d page th).mapSlices i idx n m').publish th b p).page p = ⟨page, ∅⟩ :=
    Function.update_self ..
  rw [hpage]
  rfl

namespace ThreadHeap

theorem nextTseq_ends : ProcEnds refuses panics (nextTseq th) w fun _ w' =>
    ∃ tseq, w' = { w with tseq := tseq } := by
  simp only [nextTseq, fetch, store, Prog.bind_eq, Prog.pure_eq, Prog.perform_bind]
  apply ProcEnds.fetch
  apply ProcEnds.store
  exact Ends.ret ⟨_, rfl⟩

/-- What a new page looks like. -/
structure NewPage (w : Process) (q : Queues) (D : Set TheapPtr) (th : TheapPtr) (b bs : ℕ)
    (p : PagePtr) (w' : Process) : Prop where
  sound : Sound w' (pushTo q th b p) D none ∅
  steps : ∀ {S A}, th ∈ A → Steps S A w q w' (pushTo q th b p)
  fresh : p ∉ w.pages
  page : p ∈ w'.pages
  live : (w'.page p).live = ∅
  bin : (w'.desc p).bin = b
  blockSize : (w'.page p).page.blockSize = bs

/-- **`new_page`** returns a page of the bin with room, or leaves everything as it was. -/
theorem newPage_ends (h : Sound w q D none ∅) (hb : b < miBinHuge) (hbs : binBlockSize b = bs)
    (hpos : 0 < bs) :
    ProcEnds refuses panics (newPage th b bs (pageSlicesFor bs)) w fun r w' =>
      match r with
      | none => Sound w' q D none ∅ ∧ (∀ {S A}, Steps S A w q w' q) ∧
          w'.pagesCreated = w.pagesCreated
      | some p => NewPage w q D th b bs p w' := by
  have hle : bs ≤ miLargeMaxObjSize := hbs ▸ binBlockSize_le b
  obtain ⟨hroom, hslices, hslices64⟩ := pageSlicesFor_spec hle
  simp only [newPage, fetch, store, Prog.bind_eq, Prog.pure_eq, Prog.perform_bind]
  apply Ends.bind
  apply nextTseq_ends.mono
  rintro tseq _ ⟨f, rfl⟩
  apply ProcEnds.fetch
  have h₀ : Sound { w with tseq := f } q D none ∅ := { h with }
  apply Ends.bind
  apply (Subproc.allocSlices_ends h₀ (Or.inl (by omega))).mono
  rintro r w₁ ⟨hsame, hr⟩
  have hsteps : ∀ {S A}, Steps S A w q w₁ q := by
    intro S A
    have htseq : Steps S A w q { w with tseq := f } q :=
      Steps.of_rfl rfl rfl rfl (fun _ _ h => h) rfl fun _ _ => rfl
    exact htseq.trans hsame.steps
  have hcreated : w₁.pagesCreated = w.pagesCreated := by
    obtain ⟨⟨_, _, _, _, _, rfl⟩, -⟩ := hsame
    rfl
  have hpages : w₁.pages = w.pages := by
    obtain ⟨⟨_, _, _, _, _, rfl⟩, -⟩ := hsame
    rfl
  cases r with
  | none => exact Ends.ret ⟨hr.1, hsteps, hcreated⟩
  | some r =>
    obtain ⟨i, idx, isZero⟩ := r
    obtain ⟨h₁, hrun, -⟩ := hr
    have hnew := h₁.slice_notMem hslices
    apply ProcEnds.store
    refine ProcEnds.asks (fun _ => rfl) (fun _ => ?_) ?_
    · rw [show id false = false from rfl, if_neg Bool.false_ne_true]
      apply Ends.bind
      apply (freeSlices_ends (h₁.initPage hnew) hrun).mono
      rintro _ _ ⟨m, rfl, h₂⟩
      apply Ends.ret
      refine ⟨h₂, hsteps.trans ?_, hcreated⟩
      refine Steps.of_agree (fun p' hp' => ?_) (fun _ _ h => h) rfl fun _ _ => rfl
      have hne : p' ≠ .slice i idx := by
        rintro rfl
        exact hnew hp'
      exact ⟨hp', Function.update_of_ne hne .., Function.update_of_ne hne ..⟩
    · rw [show id true = true from rfl, if_pos rfl]
      apply ProcEnds.store
      apply Ends.ret
      have hinit : ∀ d page, (w₁.initPage (.slice i idx) d page th).setPage (.slice i idx)
          ⟨page, ∅⟩ = w₁.initPage (.slice i idx) d page th := by
        intro d page
        simp [Process.setPage, Process.initPage]
      have hok : PageOk (.slice i idx)
          ⟨i, idx, pageSlicesFor bs, b, idx * miArenaSliceSize + Page.startOff⟩
          ⟨Page.init (pageSlicesFor bs) bs th.tid isZero, ∅⟩ := by
        obtain ⟨hres, hfits⟩ : 0 < (Page.init (pageSlicesFor bs) bs th.tid isZero).reserved ∧ _ :=
          init_reserved hpos hroom hslices64
        have hword : miIntptrSize ∣ idx * miArenaSliceSize + Page.startOff :=
          Nat.dvd_add (Nat.dvd_mul_left_of_dvd (by decide) idx) (by decide)
        refine ⟨⟨[], [], [], init_blocks⟩, hpos, hres, Nat.le_add_right _ _, hword, ?_,
          rfl, rfl, hb, hbs.symm⟩
        show idx * miArenaSliceSize + Page.startOff + (Page.init _ bs th.tid isZero).reserved * bs ≤
          (idx + pageSlicesFor bs) * miArenaSliceSize
        rw [Nat.add_mul]
        omega
      have hq : Queued th b th
          ⟨i, idx, pageSlicesFor bs, b, idx * miArenaSliceSize + Page.startOff⟩
          ⟨Page.init (pageSlicesFor bs) bs th.tid isZero, ∅⟩ :=
        ⟨rfl, rfl, rfl, ownerId_of_flagless th.tid_mod⟩
      rw [← hinit]
      refine ⟨h₁.publish hnew rfl rfl rfl hrun (fun _ hc => by cases hc) hok hq,
        fun hth => hsteps.trans (Steps.publish hnew hth), hpages ▸ hnew,
        Finset.mem_insert_self .., ?_, ?_, ?_⟩
      · show (Process.page _ _).live = ∅
        rw [publish_page]
      · show (Process.desc _ _).bin = b
        rw [publish_desc]
      · show (Process.page _ _).page.blockSize = bs
        rw [publish_page]
        rfl

end ThreadHeap

/-! ## Huge blocks -/

/-- The number of slices of a huge block. -/
def hugeSlices (size : ℕ) : ℕ :=
  alignUp (alignUp size miMaxAlignSize) miArenaSliceSize / miArenaSliceSize

/-- If the roundings do not wrap, which leaves no slices, the slices hold the block and the block
the request. -/
theorem hugeSlices_spec {size : ℕ} (hsize : size < usizeRange) (hpos : 0 < hugeSlices size) :
    size ≤ alignUp size miMaxAlignSize ∧ 0 < alignUp size miMaxAlignSize ∧
      alignUp size miMaxAlignSize ≤ hugeSlices size * miArenaSliceSize := by
  unfold hugeSlices alignUp usizeRange miMaxAlignSize miArenaSliceSize at *
  omega

/-- The block size that serves a request. -/
def servedSize (size : ℕ) : ℕ :=
  if miBinHuge ≤ bin size then alignUp size miMaxAlignSize else binBlockSize (bin size)

/-- The block `blk` of the page `p` has been handed out at `a` for a request of `size` bytes. -/
structure ServedIn (w : Process) (th : TheapPtr) (size : ℕ) (a : Ptr) (p : PagePtr) (blk : Blk)
    (w' : Process) (q' : Queues) : Prop where
  live : w'.Live (p, blk)
  fresh : ¬ w.Live (p, blk)
  ptr : a = w'.blockPtr p blk
  blockSize : (w'.page p).page.blockSize = servedSize size
  le : size ≤ servedSize size
  queued : p ∈ q' th (bin size)

namespace ThreadHeap

/-- **`alloc_huge`** returns a new page's only block, or leaves everything as it was. -/
theorem allocHuge_ends {size : ℕ} (h : Sound w q D none ∅) (hb : miBinHuge ≤ bin size)
    (hbin : bin size ≤ miBinHuge) (hsize : size < usizeRange)
    (hn : hugeSlices size ≤ 512 ∨ panics ∨ w.CannotServe (hugeSlices size)) :
    ProcEnds refuses panics (allocHuge th size) w fun r w' =>
      match r with
      | none => Sound w' q D none ∅ ∧ (∀ {S A}, Steps S A w q w' q) ∧
          (w.CannotServe (hugeSlices size) →
            w'.arenas = w.arenas ∧ w'.arenaCount = w.arenaCount)
      | some a => ∃ p, Sound w' (pushTo q th miBinHuge p) D none ∅ ∧
          (∀ {S A}, th ∈ A → Steps S A w q w' (pushTo q th miBinHuge p)) ∧
          ServedIn w th size a p 0 w' (pushTo q th miBinHuge p) ∧
          ¬ w.CannotServe (hugeSlices size) := by
  simp only [allocHuge, fetch, store, Prog.bind_eq, Prog.pure_eq, Prog.perform_bind]
  apply Ends.bind
  apply nextTseq_ends.mono
  rintro tseq _ ⟨f, rfl⟩
  apply ProcEnds.fetch
  have h₀ : Sound { w with tseq := f } q D none ∅ := { h with }
  apply Ends.bind
  apply (Subproc.allocSlices_ends h₀ hn).mono
  rintro r w₁ ⟨hsame, hr⟩
  have hsteps : ∀ {S A}, Steps S A w q w₁ q := by
    intro S A
    have htseq : Steps S A w q { w with tseq := f } q :=
      Steps.of_rfl rfl rfl rfl (fun _ _ h => h) rfl fun _ _ => rfl
    exact htseq.trans hsame.steps
  have hpages : w₁.pages = w.pages := by
    obtain ⟨⟨_, _, _, _, _, rfl⟩, -⟩ := hsame
    rfl
  cases r with
  | none => exact Ends.ret ⟨hr.1, hsteps, hr.2⟩
  | some r =>
    obtain ⟨i, idx, isZero⟩ := r
    obtain ⟨h₁, hrun, hcan⟩ := hr
    have hpos : 0 < hugeSlices size := by
      obtain ⟨_, _, _, _, hpos⟩ := hrun
      exact hpos
    obtain ⟨hle, hbs, hfits⟩ := hugeSlices_spec hsize hpos
    apply Ends.bind
    apply (metaZalloc_ends h₁).mono
    rintro r _ ⟨m, rfl, h₂, hm⟩
    have hsteps₂ : ∀ {S A}, Steps S A w q (w₁.setMetadata m) q := fun {S A} =>
      hsteps.trans (w₁.sameButArenas_setMetadata m).steps
    cases r with
    | none =>
      apply Ends.bind
      apply (freeSlices_ends h₂ hrun).mono
      rintro _ _ ⟨k, rfl, h₃⟩
      apply Ends.ret
      exact ⟨h₃, hsteps₂.trans (Process.sameButArenas_setArena _ i k).steps, fun hc => (hcan hc).elim⟩
    | some hdr =>
      obtain ⟨hlive, hfresh⟩ := hm
      have hnew : PagePtr.header hdr ∉ w₁.pages := fun hp => hfresh ((h₁.placed _ hp).2 hdr rfl)
      have hheader : (hdr, Page.sizeOf) ∈ (w₁.setMetadata m).metadata.live := by
        show _ ∈ m.live
        rw [hlive]
        exact List.mem_cons_self
      apply ProcEnds.store
      refine ProcEnds.asks (fun _ => rfl) (fun _ => ?_) ?_
      · rw [show id false = false from rfl, if_neg Bool.false_ne_true]
        apply Ends.bind
        apply (freeSlices_ends (h₂.initPage hnew) hrun).mono
        rintro _ _ ⟨k, rfl, h₃⟩
        apply Ends.bind
        apply (metaFree_ends h₃ hheader hnew).mono
        rintro _ _ ⟨m', rfl, h₄, -⟩
        apply Ends.ret
        refine ⟨h₄, hsteps₂.trans ?_, fun hc => (hcan hc).elim⟩
        refine Steps.of_agree (fun p' hp' => ?_) (fun _ _ h => h) rfl fun _ _ => rfl
        have hne : p' ≠ .header hdr := by
          rintro rfl
          exact hnew hp'
        exact ⟨hp', Function.update_of_ne hne .., Function.update_of_ne hne ..⟩
      · rw [show id true = true from rfl, if_pos rfl]
        apply ProcEnds.store
        apply ProcEnds.storeTo _ (publish_setPage (f := fun m => ⟨m.page.serveHuge, {0}⟩))
        apply ProcEnds.fetch
        apply Ends.ret
        have hok : PageOk (.header hdr)
            ⟨i, idx, hugeSlices size, miBinHuge, idx * miArenaSliceSize⟩
            ⟨(Page.initHuge (alignUp size miMaxAlignSize) th.tid isZero).serveHuge, {0}⟩ := by
          have hword : miIntptrSize ∣ idx * miArenaSliceSize :=
            Nat.dvd_mul_left_of_dvd (by decide) idx
          refine ⟨⟨[], [], [], serveHuge_blocks⟩, hbs, Nat.one_pos, le_rfl, hword, ?_, rfl, rfl, rfl⟩
          show idx * miArenaSliceSize + 1 * alignUp size miMaxAlignSize ≤
            (idx + hugeSlices size) * miArenaSliceSize
          rw [Nat.add_mul, Nat.one_mul]
          omega
        have hq : Queued th miBinHuge th
            ⟨i, idx, hugeSlices size, miBinHuge, idx * miArenaSliceSize⟩
            ⟨(Page.initHuge (alignUp size miMaxAlignSize) th.tid isZero).serveHuge, {0}⟩ :=
          ⟨rfl, rfl, rfl, ownerId_of_flagless th.tid_mod⟩
        refine ⟨.header hdr, h₂.publish hnew rfl rfl rfl hrun ?_ hok hq,
          fun hth => hsteps₂.trans (Steps.publish hnew hth), ?_, hcan⟩
        · rintro _ ⟨⟩
          exact hheader
        · refine ⟨⟨Finset.mem_insert_self .., ?_⟩, fun hl => hnew (hpages ▸ hl.1), rfl, ?_, ?_, ?_⟩
          · show 0 ∈ (Process.page _ _).live
            rw [publish_page]
            exact Finset.mem_singleton_self 0
          · show (Process.page _ _).page.blockSize = servedSize size
            rw [publish_page, servedSize, if_pos hb]
            rfl
          · rwa [servedSize, if_pos hb]
          · rw [Nat.le_antisymm hbin hb, pushTo_self]
            exact List.mem_cons_self

end ThreadHeap

end MimallocRs
