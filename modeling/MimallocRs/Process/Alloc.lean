import MimallocRs.Process.Sweep
import MimallocRs.SizeClasses

/-!
# Allocating

`alloc` serves a block of the page in the direct table, of the first page of the queue with room, of
an abandoned page that is taken over, or of a new page. The block that it returns was not live, and
is large enough (`ServedIn`); a new page is carved only when every page of the queue is full
(`Allocs.growth`).
-/

namespace MimallocRs

open Interleave Prog

variable {refuses : Bool} {panics : Prop} {S : Set (PagePtr × Blk)} {A : Set TheapPtr}
  {w w' w'' : Process} {q q' q'' : Queues} {D : Set TheapPtr} {H : Option PagePtr}
  {T : Set (ℕ × ℕ)} {p : PagePtr} {th : TheapPtr} {i b n idx size : ℕ} {m : LivePage} {α : Type}
  {Q : α → Process → Prop}

/-! ## Request sizes -/

/-- A request for less than a word is served as one for a word. -/
theorem bin_max (size : ℕ) : bin (max size miIntptrSize) = bin size := by
  rcases Nat.le_total miIntptrSize size with h | h
  · rw [Nat.max_eq_left h]
  · rw [Nat.max_eq_right h]
    have hw : wsizeFromSize miIntptrSize = 1 := rfl
    have hw' : wsizeFromSize size ≤ 1 := by
      unfold wsizeFromSize miIntptrSize at *
      omega
    have h8 : wsizeFromSize size ≤ 8 := by omega
    simp only [bin, if_pos h8, if_pos hw', hw]
    rfl

theorem servedSize_max (size : ℕ) : servedSize (max size miIntptrSize) = servedSize size := by
  unfold servedSize
  rw [bin_max]
  split
  · next h =>
    rcases Nat.le_total miIntptrSize size with hle | hle
    · rw [Nat.max_eq_left hle]
    · have hsmall : bin size < miBinHuge := by
        rw [← bin_max, Nat.max_eq_right hle]
        decide
      omega
  · rfl

/-- The blocks are multiples of a word. -/
theorem dvd_servedSize (size : ℕ) : miIntptrSize ∣ servedSize size := by
  unfold servedSize
  split
  · have hword : miIntptrSize ∣ miMaxAlignSize := by decide
    exact Nat.dvd_trans hword (Nat.dvd_mul_left ..)
  · exact dvd_binBlockSize _

/-- A size that goes into the direct table has a bin of its own. -/
theorem bin_lt_of_small (hw : wsizeFromSize size ≤ miSmallWsizeMax) : bin size < miBinHuge := by
  apply bin_lt
  exact hw.trans (by decide)

/-- A block that was not live later was not live before. -/
theorem ServedIn.of_steps {blk : Blk} {a : Ptr} (hs : Steps Set.univ Set.univ w q w' q')
    (h : ServedIn w' th size a p blk w'' q'') : ServedIn w th size a p blk w'' q'' :=
  { h with fresh := fun hl => h.fresh (hs.live _ (Set.mem_univ _) hl) }

/-- The block size of the pages of a queue. -/
theorem Sound.blockSize_eq (h : Sound w q D H T) (hb : b < miBinHuge) (hp : p ∈ q th b) :
    (w.page p).page.blockSize = binBlockSize b := by
  obtain ⟨hpages, -, hq⟩ := h.queued th b p hp
  have hplace := (h.pageOk p hpages).place
  cases p with
  | slice i j =>
    rw [← hq.bin]
    exact hplace.2.2.2
  | header hdr =>
    have hhuge := hplace.1
    have hbin := hq.bin
    omega

/-- The blocks of a page of a queue are large enough for the requests that the queue serves. -/
theorem ServedIn.of_queued {blk : Blk} (hpos : 0 < size) (hb : bin size < miBinHuge)
    (h : Sound w q D H T) (hp : p ∈ q th (bin size)) (hfresh : blk ∉ (w.page p).live)
    (hlive : m.live = insert blk (w.page p).live)
    (hsize : m.page.blockSize = (w.page p).page.blockSize) (hpages : w'.pages = w.pages)
    (hpage : w'.page = (w.setPage p m).page) :
    ServedIn w th size (w'.blockPtr p blk) p blk w' q := by
  have hmem := (h.queued th _ p hp).1
  have hblock := h.blockSize_eq hb hp
  have hm : w'.page p = m := by rw [hpage, w.setPage_page]
  refine ⟨⟨by rwa [hpages], ?_⟩, fun hl => hfresh hl.2, rfl, ?_, ?_, hp⟩
  · show blk ∈ (w'.page p).live
    rw [hm, hlive]
    exact Finset.mem_insert_self ..
  · rw [hm, hsize, hblock, servedSize, if_neg (by omega)]
  · rw [servedSize, if_neg (by omega)]
    exact le_binBlockSize hpos hb

/-- A page with no live block has room. -/
theorem Sound.room_of_empty (h : Sound w q D H T) (hp : p ∈ w.pages)
    (hlive : (w.page p).live = ∅) : ¬ (w.page p).Full := by
  intro hfull
  have hpos := (h.pageOk p hp).reserved_pos
  unfold LivePage.Full at hfull
  rw [hlive] at hfull
  have hmem : 0 ∈ Finset.range (w.page p).page.reserved := Finset.mem_range.mpr hpos
  rw [← hfull] at hmem
  cases hmem

/-! ## A block of a page -/

namespace ThreadHeap

/-- A page of a queue serves a block unless it is full. -/
theorem allocQueued_ends (h : Sound w q D none ∅) (hp : p ∈ q th b) :
    ProcEnds refuses panics (onPage p Page.alloc) w fun r w' => ∃ m, w' = w.setPage p m ∧
      Sound w' q D none ∅ ∧ (∀ {S A}, Steps S A w q w' q) ∧
      m.page.blockSize = (w.page p).page.blockSize ∧
        match r with
        | none => (w.page p).Full ∧ Tidied w w'
        | some blk => blk ∉ (w.page p).live ∧ m.live = insert blk (w.page p).live := by
  obtain ⟨fr, lo, xs, hblocks⟩ := (h.pageOk p (h.queued th b p hp).1).blocks
  apply ProcEnds.onPage (Page.alloc_ends hblocks)
  rintro r m ⟨ht, hr⟩
  refine ⟨m, rfl, h.tidy hp ht, fun {S A} => ?_, ht.2.1.blockSize, ?_⟩
  · apply Steps.tidy ht
    cases r with
    | none => exact hr.2.ge
    | some blk =>
      rw [hr.2.2]
      exact Finset.subset_insert ..
  · cases r with
    | none => exact ⟨hr.1, .setPage hr.2 ht.2.1.reserved⟩
    | some blk => exact ⟨hr.1, hr.2.2⟩

/-! ## Finding a page -/

/-- **`find_free_page`** fails only if every page of the queue is full. -/
theorem findFreePage_ends (h : Sound w q D none ∅) :
    ProcEnds refuses panics (findFreePage th b) w fun r w' => Tidied w w' ∧ ∃ q',
      Sound w' q' D none ∅ ∧ (∀ {S A}, th ∈ A → Steps S A w q w' q') ∧
        match r with
        | none => q' = q ∧ ∀ p ∈ q th b, (w.page p).Full
        | some p => p ∈ q' th b ∧ ¬ (w.page p).Full := by
  simp only [findFreePage, fetch, Prog.bind_eq, Prog.pure_eq, Prog.perform_bind]
  apply ProcEnds.fetch
  rw [(h.queues th b).dlist.head_eq]
  apply Ends.bind
  apply (findInQueue_ends h (List.nil_append _).symm).mono
  rintro r w₁ ⟨h₁, hsteps₁, htidied₁, hr⟩
  cases r with
  | some p => exact Ends.ret ⟨htidied₁, q, h₁, fun _ => hsteps₁, hr⟩
  | none =>
    apply (tryReclaim_ends h₁).mono
    intro r w₂ hw₂
    cases r with
    | none =>
      obtain ⟨h₂, hsteps₂, htidied₂, -⟩ := hw₂
      exact ⟨htidied₁.trans htidied₂, q, h₂, fun _ => hsteps₁.trans hsteps₂, rfl, hr⟩
    | some p =>
      obtain ⟨h₂, hsteps₂, htidied₂, -, -, hroom⟩ := hw₂
      refine ⟨htidied₁.trans htidied₂, _, h₂, fun hth => hsteps₁.trans (hsteps₂ hth), ?_, ?_⟩
      · rw [pushTo_self]
        exact List.mem_cons_self
      · exact fun hfull => hroom (htidied₁.full.mpr hfull)

/-! ## Serving a block -/

/-- What a request for `size` bytes does. -/
structure Allocs (D : Set TheapPtr) (th : TheapPtr) (size : ℕ) (w : Process) (q : Queues)
    (r : Option Ptr) (w' : Process) (q' : Queues) : Prop where
  sound : Sound w' q' D none ∅
  steps : ∀ {S A}, th ∈ A → Steps S A w q w' q'
  served : ∀ a, r = some a → ∃ p blk, ServedIn w th size a p blk w' q'
  growth : bin size < miBinHuge → w'.pagesCreated = w.pagesCreated ∨
    ∀ p ∈ q th (bin size), (w.page p).Full
  refused : miBinHuge ≤ bin size → w.CannotServe (hugeSlices size) →
    r = none ∧ w'.arenas = w.arenas ∧ w'.arenaCount = w.arenaCount

/-- A block of a page with room is served, and the page goes into the direct table. -/
theorem serve_ends {k : Option Blk → Prog ProcAct (Option Ptr)}
    (hk : ∀ blk, k (some blk) = serve th (wsizeFromSize size) p blk) (hpos : 0 < size)
    (hb : bin size < miBinHuge) (h : Sound w q D none ∅)
    (hp : p ∈ q th (bin size)) (hroom : ¬ (w.page p).Full) :
    ProcEnds refuses panics ((onPage p Page.alloc).bind k) w fun r w' => Sound w' q D none ∅ ∧
      (∀ {S A}, Steps S A w q w' q) ∧ w'.pagesCreated = w.pagesCreated ∧
        ∃ a blk, r = some a ∧ ServedIn w th size a p blk w' q := by
  apply Ends.bind
  apply (allocQueued_ends h hp).mono
  rintro r _ ⟨m, rfl, h₁, hsteps₁, hsize, hr⟩
  cases r with
  | none => exact (hroom hr.1).elim
  | some blk =>
    rw [hk]
    have served : ∀ {w'}, w'.pages = w.pages → w'.page = (w.setPage p m).page →
        ServedIn w th size (w'.blockPtr p blk) p blk w' q :=
      fun hpages hpage => .of_queued hpos hb h hp hr.1 hr.2 hsize hpages hpage
    simp only [serve, fetch, store, Prog.bind_eq, Prog.pure_eq, Prog.perform_bind]
    by_cases hw : wsizeFromSize size ≤ miSmallWsizeMax
    · rw [if_pos hw]
      apply ProcEnds.store
      apply ProcEnds.fetch
      apply Ends.ret
      refine ⟨h₁.setDirect hw ?_, fun {S A} => ?_, rfl, _, blk, rfl, served rfl rfl⟩
      · rwa [bin_wsize]
      · exact hsteps₁.trans (Steps.of_rfl rfl rfl rfl (fun _ _ h => h) rfl fun _ _ => rfl)
    · rw [if_neg hw]
      apply ProcEnds.fetch
      apply Ends.ret
      exact ⟨h₁, hsteps₁, rfl, _, blk, rfl, served rfl rfl⟩

/-- **`alloc_generic`**, for a request of at least a word. -/
theorem allocGeneric_ends (h : Sound w q D none ∅) (hpos : 0 < size) (hsize : size < usizeRange)
    (hn : bin size < miBinHuge ∨ hugeSlices size ≤ 512 ∨ panics ∨
      w.CannotServe (hugeSlices size)) :
    ProcEnds refuses panics (allocGeneric th size (wsizeFromSize size)) w fun r w' =>
      ∃ q', Allocs D th size w q r w' q' := by
  simp only [allocGeneric, Prog.bind_eq, Prog.pure_eq]
  by_cases hb : miBinHuge ≤ bin size
  · rw [if_pos hb]
    apply (allocHuge_ends h hb (bin_le size) hsize (hn.resolve_left (by omega))).mono
    intro r w' hw'
    cases r with
    | none =>
      obtain ⟨h', hsteps, hrefused⟩ := hw'
      exact ⟨q, h', fun _ => hsteps, fun a ha => (by cases ha), fun hlt => by omega,
        fun _ hc => ⟨rfl, hrefused hc⟩⟩
    | some a =>
      obtain ⟨p, h', hsteps, hserved, hcan⟩ := hw'
      refine ⟨_, h', hsteps, ?_, fun hlt => by omega, fun _ hc => (hcan hc).elim⟩
      rintro _ ⟨⟩
      exact ⟨p, 0, hserved⟩
  · rw [if_neg hb]
    have hb : bin size < miBinHuge := Nat.lt_of_not_le hb
    have hnohuge : miBinHuge ≤ bin size → False := fun hc => by omega
    apply Ends.bind
    apply (findFreePage_ends h).mono
    rintro r w₁ ⟨htidied, q₁, h₁, hsteps₁, hr⟩
    cases r with
    | some p =>
      obtain ⟨hp, hroom⟩ := hr
      apply (serve_ends (fun _ => rfl) hpos hb h₁ hp fun hf => hroom (htidied.full.mp hf)).mono
      rintro _ w₂ ⟨h₂, hsteps₂, hcreated, a, blk, rfl, hserved⟩
      refine ⟨q₁, h₂, fun hth => (hsteps₁ hth).trans hsteps₂, ?_,
        fun _ => Or.inl (hcreated.trans htidied.created), fun hc => (hnohuge hc).elim⟩
      rintro _ ⟨⟩
      exact ⟨p, blk, hserved.of_steps (hsteps₁ (Set.mem_univ th))⟩
    | none =>
      obtain ⟨rfl, hfull⟩ := hr
      apply Ends.bind
      apply (collectRetired_ends h₁).mono
      rintro _ w₂ ⟨q₂, h₂, hshrinks⟩
      have hsteps₂ : ∀ {S A}, th ∈ A → Steps S A w q₁ w₂ q₂ := fun hth =>
        (hsteps₁ hth).trans (hshrinks.steps hth)
      apply Ends.bind
      apply (newPage_ends h₂ hb rfl ?_).mono
      · intro r w₃ hw₃
        cases r with
        | none =>
          obtain ⟨h₃, hsteps₃, -⟩ := hw₃
          exact Ends.ret ⟨q₂, h₃, fun hth => (hsteps₂ hth).trans hsteps₃, fun a ha => (by cases ha),
            fun _ => Or.inr hfull, fun hc => (hnohuge hc).elim⟩
        | some p =>
          have hp : p ∈ pushTo q₂ th (bin size) p th (bin size) := by
            rw [pushTo_self]
            exact List.mem_cons_self
          apply (serve_ends (fun _ => rfl) hpos hb hw₃.sound hp
            (hw₃.sound.room_of_empty hw₃.page hw₃.live)).mono
          rintro _ w₄ ⟨h₄, hsteps₄, -, a, blk, rfl, hserved⟩
          have hsteps₃ : ∀ {S A}, th ∈ A → Steps S A w q₁ w₃ (pushTo q₂ th (bin size) p) :=
            fun hth => (hsteps₂ hth).trans (hw₃.steps hth)
          refine ⟨_, h₄, fun hth => (hsteps₃ hth).trans hsteps₄, ?_, fun _ => Or.inr hfull,
            fun hc => (hnohuge hc).elim⟩
          rintro _ ⟨⟩
          exact ⟨p, blk, hserved.of_steps (hsteps₃ (Set.mem_univ th))⟩
      · exact Nat.lt_of_lt_of_le hpos (le_binBlockSize hpos hb)

/-- A request is served as one for a word at least. -/
theorem Allocs.of_max {r : Option Ptr}
    (h : Allocs D th (max size miIntptrSize) w q r w' q') : Allocs D th size w q r w' q' where
  sound := h.sound
  steps := h.steps
  served a ha := by
    obtain ⟨p, blk, hs⟩ := h.served a ha
    refine ⟨p, blk, hs.live, hs.fresh, hs.ptr, ?_, ?_, ?_⟩
    · rw [hs.blockSize, servedSize_max]
    · rw [← servedSize_max]
      exact (Nat.le_max_left ..).trans hs.le
    · rw [← bin_max]
      exact hs.queued
  growth hb := by
    have hg := h.growth
    rw [bin_max] at hg
    exact hg hb
  refused hb hc := by
    have hle : miIntptrSize ≤ size := by
      by_contra hlt
      have hsmall : bin size < miBinHuge := by
        rw [← bin_max, Nat.max_eq_right (by omega)]
        decide
      omega
    have hr := h.refused
    rw [Nat.max_eq_left hle] at hr
    exact hr hb hc

/-- The request has been passed on by a full page. -/
theorem Allocs.of_tidied {r : Option Ptr} (ht : Tidied w w'')
    (hsteps : ∀ {S A}, Steps S A w q w'' q) (hcan : ∀ n, w.CannotServe n → w''.CannotServe n)
    (harenas : w''.arenas = w.arenas ∧ w''.arenaCount = w.arenaCount)
    (h : Allocs D th size w'' q r w' q') : Allocs D th size w q r w' q' where
  sound := h.sound
  steps hth := hsteps.trans (h.steps hth)
  served a ha := by
    obtain ⟨p, blk, hs⟩ := h.served a ha
    exact ⟨p, blk, hs.of_steps hsteps⟩
  growth hb := by
    rw [← ht.created]
    exact (h.growth hb).imp_right fun hall p hp => ht.full.mp (hall p hp)
  refused hb hc := by
    rw [← harenas.1, ← harenas.2]
    exact h.refused hb (hcan _ hc)

/-- **`alloc`**. -/
theorem alloc_ends (h : Sound w q D none ∅) (hth : th ∈ D) (hsize : size < usizeRange)
    (hn : bin size < miBinHuge ∨ hugeSlices size ≤ 512 ∨ panics ∨
      w.CannotServe (hugeSlices size)) :
    ProcEnds refuses panics (alloc th size) w fun r w' => ∃ q', Allocs D th size w q r w' q' := by
  have hpos : 0 < max size miIntptrSize := Nat.lt_of_lt_of_le (by decide) (Nat.le_max_right ..)
  have hsize' : max size miIntptrSize < usizeRange := Nat.max_lt.mpr ⟨hsize, by decide⟩
  have hn' : bin (max size miIntptrSize) < miBinHuge ∨ hugeSlices (max size miIntptrSize) ≤ 512 ∨
      panics ∨ w.CannotServe (hugeSlices (max size miIntptrSize)) := by
    by_cases hle : miIntptrSize ≤ size
    · rwa [Nat.max_eq_left hle]
    · rw [Nat.max_eq_right (by omega)]
      exact Or.inl (by decide)
  have generic : ∀ {w₁}, Sound w₁ q D none ∅ → (∀ n, w.CannotServe n → w₁.CannotServe n) →
      ProcEnds refuses panics (allocGeneric th (max size miIntptrSize)
        (wsizeFromSize (max size miIntptrSize))) w₁ fun r w' => ∃ q', Allocs D th
          (max size miIntptrSize) w₁ q r w' q' := by
    intro w₁ h₁ hcan
    exact allocGeneric_ends h₁ hpos hsize' (hn'.imp_right (Or.imp_right (Or.imp_right (hcan _))))
  have finish : ∀ {r w'}, (∃ q', Allocs D th (max size miIntptrSize) w q r w' q') →
      ∃ q', Allocs D th size w q r w' q' := by
    rintro r w' ⟨q', ha⟩
    exact ⟨q', ha.of_max⟩
  simp only [alloc, fetch, Prog.bind_eq, Prog.pure_eq, Prog.perform_bind]
  split
  · next hw =>
    have hb := bin_lt_of_small hw
    apply ProcEnds.fetch
    cases hd : w.pagesFreeDirect th (wsizeFromSize (max size miIntptrSize)) with
    | none => exact (generic h fun _ hc => hc).mono fun _ _ => finish
    | some p =>
      obtain ⟨-, hp⟩ := h.direct th hth _ p hd
      rw [bin_wsize] at hp
      apply Ends.bind
      apply (allocQueued_ends h hp).mono
      rintro r _ ⟨m, rfl, h₁, hsteps₁, hblock, hr⟩
      cases r with
      | none =>
        apply (generic h₁ fun _ hc => hc).mono
        rintro r w' ⟨q', ha⟩
        exact finish ⟨q', ha.of_tidied hr.2 hsteps₁ (fun _ hc => hc) ⟨rfl, rfl⟩⟩
      | some blk =>
        apply ProcEnds.fetch
        apply Ends.ret
        refine finish ⟨q, h₁, fun _ => hsteps₁, ?_, fun _ => Or.inl rfl, fun hc => by omega⟩
        rintro _ ⟨⟩
        exact ⟨p, blk, .of_queued hpos hb h hp hr.1 hr.2 hblock rfl rfl⟩
  · exact (generic h fun _ hc => hc).mono fun _ _ => finish

end ThreadHeap

/-! ## Pointers into blocks -/

/-- The address `a` lies in the live block `x`. Unless it is the start of the block, the page is
flagged. -/
structure Process.InBlock (w : Process) (a : Ptr) (x : PagePtr × Blk) : Prop where
  live : w.Live x
  arena : a.arena = (w.desc x.1).arena
  le : (w.desc x.1).pageStart + x.2 * (w.page x.1).page.blockSize ≤ a.off
  lt : a.off < (w.desc x.1).pageStart + (x.2 + 1) * (w.page x.1).page.blockSize
  start : (w.page x.1).flags = 0 → a = w.blockPtr x.1 x.2

theorem Process.InBlock.keeps {a : Ptr} {x : PagePtr × Blk} (h : w.InBlock a x) (hx : x ∈ S)
    (hk : KeepsPage S w w') : w'.InBlock a x := by
  have hdesc := hk.desc x hx h.live
  have hsize := hk.blockSize x hx h.live
  refine ⟨hk.live x hx h.live, ?_, ?_, ?_, fun hf => ?_⟩
  · rw [hdesc]
    exact h.arena
  · rw [hdesc, hsize]
    exact h.le
  · rw [hdesc, hsize]
    exact h.lt
  · have hstart := h.start (by_contra fun hne => hk.flags x hx h.live hne hf)
    unfold Process.blockPtr at hstart ⊢
    rwa [hdesc, hsize]

/-- The start of a live block lies in it. -/
theorem Sound.inBlock_start {blk : Blk} (h : Sound w q D H T) (hl : w.Live (p, blk)) :
    w.InBlock (w.blockPtr p blk) (p, blk) := by
  have hpos := (h.pageOk p hl.1).blockSize_pos
  refine ⟨hl, rfl, le_rfl, ?_, fun _ => rfl⟩
  show (w.desc p).pageStart + blk * (w.page p).page.blockSize <
    (w.desc p).pageStart + (blk + 1) * (w.page p).page.blockSize
  rw [Nat.add_mul]
  omega

/-- A page has at most as many live blocks as it can hold, so an address in one of them is mapped to
the page. -/
theorem Sound.lookup_eq {a : Ptr} {x : PagePtr × Blk} (h : Sound w q D H T) (ha : w.InBlock a x) :
    w.lookup a = some x.1 := by
  obtain ⟨p, blk⟩ := x
  have hok := h.pageOk p ha.live.1
  obtain ⟨fr, lo, xs, hblocks⟩ := hok.blocks
  have hlt : blk + 1 ≤ (w.page p).page.reserved := hblocks.lt_reserved ha.live.2
  have hend := Nat.mul_le_mul_right (w.page p).page.blockSize hlt
  have hle : (w.desc p).pageStart + blk * (w.page p).page.blockSize ≤ a.off := ha.le
  have hoff : a.off < (w.desc p).pageStart + (blk + 1) * (w.page p).page.blockSize := ha.lt
  have hstart := hok.start
  have hfits := hok.fits
  apply (h.mapped _ _ _).mpr
  refine ⟨ha.live.1, ha.arena, ?_, ?_⟩
  · show (w.desc p).sliceIndex ≤ a.off / miArenaSliceSize
    rw [Nat.le_div_iff_mul_le (by decide)]
    omega
  · show a.off / miArenaSliceSize < (w.desc p).sliceIndex + (w.desc p).sliceCount
    rw [Nat.div_lt_iff_lt_mul (by decide)]
    omega

/-- What a request for `size` bytes hands out: a block that was not live, with enough bytes from the
address on. -/
structure Hands (D : Set TheapPtr) (th : TheapPtr) (size : ℕ) (w : Process) (q : Queues)
    (r : Option Ptr) (w' : Process) (q' : Queues) : Prop where
  sound : Sound w' q' D none ∅
  steps : ∀ {S A}, th ∈ A → Steps S A w q w' q'
  handed : ∀ a, r = some a → ∃ x, ¬ w.Live x ∧ w'.InBlock a x ∧
    a.off + size ≤ (w'.desc x.1).pageStart + (x.2 + 1) * (w'.page x.1).page.blockSize

namespace ThreadHeap

theorem Allocs.hands {r : Option Ptr} (h : Allocs D th size w q r w' q') :
    Hands D th size w q r w' q' where
  sound := h.sound
  steps := h.steps
  handed a ha := by
    obtain ⟨p, blk, hs⟩ := h.served a ha
    refine ⟨(p, blk), hs.fresh, ?_, ?_⟩
    · rw [hs.ptr]
      exact h.sound.inBlock_start hs.live
    · have hle := hs.le
      rw [hs.ptr]
      show (w'.desc p).pageStart + blk * (w'.page p).page.blockSize + size ≤
        (w'.desc p).pageStart + (blk + 1) * (w'.page p).page.blockSize
      rw [Nat.add_mul, hs.blockSize]
      omega

/-- **`alloc_zeroed`**. -/
theorem allocZeroed_ends (h : Sound w q D none ∅) (hth : th ∈ D) (hsize : size < usizeRange)
    (hn : bin size < miBinHuge ∨ hugeSlices size ≤ 512 ∨ panics ∨
      w.CannotServe (hugeSlices size)) :
    ProcEnds refuses panics (allocZeroed th size) w fun r w' =>
      ∃ q', Allocs D th size w q r w' q' := by
  simp only [allocZeroed, fetch, Prog.bind_eq, Prog.pure_eq, Prog.perform_bind]
  apply Ends.bind
  apply (alloc_ends h hth hsize hn).mono
  rintro r w' ⟨q', ha⟩
  cases r with
  | none => exact Ends.ret ⟨q', ha⟩
  | some a =>
    obtain ⟨p, blk, hs⟩ := ha.served a rfl
    dsimp only
    split
    · apply ProcEnds.fetch
      rw [hs.ptr, ha.sound.lookup_eq (ha.sound.inBlock_start hs.live), ← hs.ptr]
      exact Ends.ret ⟨q', ha⟩
    · exact Ends.ret ⟨q', ha⟩

end ThreadHeap

/-! ## Aligned requests -/

/-- An arena has at most 16 GiB. -/
theorem Arena.region_le (a : Arena) : a.sliceCount * miArenaSliceSize ≤ 2 ^ 34 := by
  have hcount := a.chunkCount_eq
  have hle := a.chunkCount_le
  unfold chunksFor at hcount
  rw [chunkBits_eq] at *
  unfold miArenaSliceSize
  omega

/-- A live block ends within the region of its arena. -/
theorem Sound.block_end {blk : Blk} (h : Sound w q D H T) (hl : w.Live (p, blk)) :
    ∃ a, w.arenas (w.desc p).arena = some a ∧
      (w.desc p).pageStart + (blk + 1) * (w.page p).page.blockSize ≤
        a.sliceCount * miArenaSliceSize := by
  have hok := h.pageOk p hl.1
  obtain ⟨fr, lo, xs, hblocks⟩ := hok.blocks
  obtain ⟨⟨a, ha, -, hle, -⟩, -⟩ := h.placed p hl.1
  have hlt : blk + 1 ≤ (w.page p).page.reserved := hblocks.lt_reserved hl.2
  have hend := Nat.mul_le_mul_right (w.page p).page.blockSize hlt
  have hfits := hok.fits
  have hslices := Nat.mul_le_mul_right miArenaSliceSize hle
  exact ⟨a, ha, by omega⟩

theorem Process.PowerOfTwo.even {align : ℕ} (h : Process.PowerOfTwo align)
    (hlt : miIntptrSize < align) : 2 ∣ align := by
  unfold Process.PowerOfTwo at h
  unfold miIntptrSize at hlt
  cases hlog : Nat.log2 align with
  | zero =>
    rw [hlog] at h
    omega
  | succ k =>
    rw [hlog, Nat.pow_succ] at h
    omega

/-- The flag of interior pointers is set, and the owner id stays. -/
theorem LivePage.flagged (m : LivePage) :
    LivePage.ownerId ⟨{ m.page with xthreadId := m.page.xthreadId ||| miPageHasInteriorPointers },
      m.live⟩ = m.ownerId ∧
    LivePage.flags ⟨{ m.page with xthreadId := m.page.xthreadId ||| miPageHasInteriorPointers },
      m.live⟩ ≠ 0 := by
  have hdiv : (m.page.xthreadId ||| miPageHasInteriorPointers) / 4 = m.page.xthreadId / 4 := by
    have := Nat.shiftRight_or_distrib (a := m.page.xthreadId) (b := miPageHasInteriorPointers) (i := 2)
    simpa [Nat.shiftRight_eq_div_pow, miPageHasInteriorPointers] using this
  have hbit : (m.page.xthreadId ||| miPageHasInteriorPointers).testBit 1 = true := by
    rw [Nat.testBit_or, show Nat.testBit miPageHasInteriorPointers 1 = true from rfl, Bool.or_true]
  rw [Nat.testBit_eq_decide_div_mod_eq, decide_eq_true_eq] at hbit
  simp only [LivePage.ownerId, LivePage.flags, miPageFlagMask] at *
  omega

theorem Sound.setHasInterior (h : Sound w q D none T) (hp : p ∈ q th b) :
    Sound (w.setHasInterior p) q D none T := by
  obtain ⟨hmem, -, hq⟩ := h.queued th b p hp
  have hok := h.pageOk p hmem
  obtain ⟨fr, lo, xs, hblocks⟩ := hok.blocks
  apply h.setPage
  · exact { hok with blocks := ⟨fr, lo, xs, hblocks.setId⟩ }
  · exact Or.inr ⟨hq.owned, hq.owned, (w.page p).flagged.1⟩

theorem Steps.setHasInterior : Steps S A w q (w.setHasInterior p) q :=
  Steps.setPage (fun _ _ hb => hb) rfl fun _ => (w.page p).flagged.2

namespace ThreadHeap

/-- **`alloc_aligned`**. -/
theorem allocAligned_ends {align : ℕ} (h : Sound w q D none ∅) (hth : th ∈ D)
    (hsize : size < usizeRange) (halign : Process.PowerOfTwo align) (hp : panics) :
    ProcEnds refuses panics (allocAligned th size align) w fun r w' => (∃ q',
      Hands D th size w q r w' q') ∧ ∀ a, r = some a → miIntptrSize < align →
        ∃ arena, w'.arenas a.arena = some arena ∧ align ∣ arena.start + a.off := by
  have hn : ∀ size, bin size < miBinHuge ∨ hugeSlices size ≤ 512 ∨ panics ∨
      w.CannotServe (hugeSlices size) := fun _ => Or.inr (Or.inr (Or.inl hp))
  simp only [allocAligned, fetch, store, Prog.bind_eq, Prog.pure_eq, Prog.perform_bind]
  split
  · next hsmall =>
    apply (alloc_ends h hth hsize (hn _)).mono
    rintro r w' ⟨q', ha⟩
    exact ⟨⟨q', ha.hands⟩, fun a _ hlt => by omega⟩
  · next hlarge =>
    split
    · exact Ends.ret ⟨⟨q, h, fun _ => Steps.refl, fun a ha => (by cases ha)⟩,
        fun a ha => (by cases ha)⟩
    · next hle =>
      apply Ends.bind
      apply (alloc_ends h hth (Nat.lt_of_not_le hle) (hn _)).mono
      rintro r w' ⟨q', ha⟩
      cases r with
      | none =>
        exact Ends.ret ⟨⟨q', ha.sound, ha.steps, fun a ha => (by cases ha)⟩,
          fun a ha => (by cases ha)⟩
      | some a =>
        obtain ⟨p, blk, hs⟩ := ha.served a rfl
        obtain ⟨arena, harena, hend⟩ := ha.sound.block_end hs.live
        obtain ⟨-, hstart⟩ := ha.sound.region _ _ harena
        have hregion := arena.region_le
        have hpos := (ha.sound.pageOk p hs.live.1).blockSize_pos
        have hle' := hs.le
        rw [← hs.blockSize] at hle'
        have hoff : a.off = (w'.desc p).pageStart + blk * (w'.page p).page.blockSize := by
          rw [hs.ptr]
          rfl
        have hlast : a.off + (size + (align - 1)) ≤
            (w'.desc p).pageStart + (blk + 1) * (w'.page p).page.blockSize := by
          rw [Nat.add_mul]
          omega
        have ha_arena : a.arena = (w'.desc p).arena := by
          rw [hs.ptr]
          rfl
        have hwrap : arena.start + a.off + (align - 1) < usizeRange := by
          unfold usizeRange
          unfold miMaxVabits at hstart
          omega
        obtain ⟨hup, hdown, hdvd⟩ := alignUp_spec (Nat.lt_of_le_of_lt (Nat.zero_le _)
          (Nat.lt_of_not_le hlarge)) hwrap
        apply ProcEnds.fetch
        rw [ha_arena, harena]
        dsimp only
        split
        · apply ProcEnds.fetch
          rw [hs.ptr, ha.sound.lookup_eq (ha.sound.inBlock_start hs.live), ← hs.ptr]
          apply ProcEnds.store
          apply Ends.ret
          have hsteps : ∀ {S A}, Steps S A w' q' (w'.setHasInterior p) q' := Steps.setHasInterior
          have hself : (w'.setHasInterior p).page p = ⟨{ (w'.page p).page with
              xthreadId := (w'.page p).page.xthreadId ||| miPageHasInteriorPointers },
              (w'.page p).live⟩ := Function.update_self ..
          refine ⟨⟨q', ha.sound.setHasInterior hs.queued, fun hth => (ha.steps hth).trans hsteps,
            ?_⟩, ?_⟩
          · rintro _ ⟨⟩
            refine ⟨(p, blk), hs.fresh, ⟨?_, rfl, ?_, ?_, ?_⟩, ?_⟩
            · exact (hsteps (S := Set.univ) (A := ∅)).live _ (Set.mem_univ _) hs.live
            · show (w'.desc p).pageStart + blk * ((w'.setHasInterior p).page p).page.blockSize ≤ _
              rw [hself]
              show (w'.desc p).pageStart + blk * (w'.page p).page.blockSize ≤
                alignUp (arena.start + a.off) align - arena.start
              omega
            · show _ < (w'.desc p).pageStart + (blk + 1) *
                ((w'.setHasInterior p).page p).page.blockSize
              rw [hself]
              show alignUp (arena.start + a.off) align - arena.start <
                (w'.desc p).pageStart + (blk + 1) * (w'.page p).page.blockSize
              -- a block has a whole number of words, and `align - 1` is odd
              have hne : a.off + (align - 1) ≠
                  (w'.desc p).pageStart + (blk + 1) * (w'.page p).page.blockSize := by
                have hword := dvd_servedSize (size + (align - 1))
                rw [← hs.blockSize] at hword
                have heven := halign.even (Nat.lt_of_not_le hlarge)
                unfold miIntptrSize at hword
                rw [Nat.add_mul]
                omega
              omega
            · intro hf
              rw [hself] at hf
              exact ((w'.page p).flagged.2 hf).elim
            · show _ + size ≤ (w'.desc p).pageStart + (blk + 1) *
                ((w'.setHasInterior p).page p).page.blockSize
              rw [hself]
              show alignUp (arena.start + a.off) align - arena.start + size ≤
                (w'.desc p).pageStart + (blk + 1) * (w'.page p).page.blockSize
              omega
          · rintro _ ⟨⟩ -
            refine ⟨arena, harena, ?_⟩
            show align ∣ arena.start + (alignUp (arena.start + a.off) align - arena.start)
            rwa [Nat.add_sub_of_le (by omega)]
        · next haligned =>
          apply Ends.ret
          refine ⟨⟨q', ?_⟩, ?_⟩
          · refine ⟨ha.sound, ha.steps, ?_⟩
            rintro _ ⟨⟩
            refine ⟨(p, blk), hs.fresh, ?_, ?_⟩
            · rw [hs.ptr]
              exact ha.sound.inBlock_start hs.live
            · show a.off + size ≤ (w'.desc p).pageStart + (blk + 1) * (w'.page p).page.blockSize
              omega
          · rintro _ ⟨⟩ -
            refine ⟨arena, by rw [ha_arena, harena], ?_⟩
            rw [← not_not.mp haligned]
            exact hdvd

end ThreadHeap

end MimallocRs
