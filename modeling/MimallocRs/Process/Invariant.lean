import MimallocRs.Process.Alone
import MimallocRs.Process.Ops
import MimallocRs.Foundations.DList

/-!
# The invariant of a process

`Sound w q D H T` links the structures of the allocator while an operation runs: the arenas and the
page map, the pages, the queues with their direct tables, and the abandoned registries. `q` lists the
pages of each queue. `D` are the theaps whose direct tables are in use, `H` is the page that the
running operation has in hand, if any, which is in no queue, and `T` are the slices that it has taken
and not given to a page yet. `Steps` is what the operations promise about what they do not work on.
-/

namespace MimallocRs

open Interleave Prog

/-- The pages of each queue, first page first. -/
abbrev Queues := TheapPtr → ℕ → List PagePtr

/-- A run of slices. -/
def slicesOf (i idx n : ℕ) : Set (ℕ × ℕ) := {s | s.1 = i ∧ idx ≤ s.2 ∧ s.2 < idx + n}

theorem mem_slicesOf {i idx n : ℕ} {s : ℕ × ℕ} :
    s ∈ slicesOf i idx n ↔ s.1 = i ∧ idx ≤ s.2 ∧ s.2 < idx + n := Iff.rfl

instance (s : ℕ × ℕ) (i idx n : ℕ) : Decidable (s ∈ slicesOf i idx n) :=
  inferInstanceAs (Decidable (_ ∧ _ ∧ _))

/-- The slices of a page. -/
def PageDesc.slices (d : PageDesc) : Set (ℕ × ℕ) := slicesOf d.arena d.sliceIndex d.sliceCount

instance (s : ℕ × ℕ) (d : PageDesc) : Decidable (s ∈ d.slices) :=
  inferInstanceAs (Decidable (s ∈ slicesOf _ _ _))

theorem Process.mapSlices_pageMap (w : Process) (i idx n : ℕ) (p : Option PagePtr) (i' j : ℕ) :
    (w.mapSlices i idx n p).pageMap i' j =
      if (i', j) ∈ slicesOf i idx n then p else w.pageMap i' j := by
  simp only [Process.mapSlices, mem_slicesOf]
  by_cases hi : i' = i
  · subst hi
    simp
  · simp [hi]

/-- The owner id of a page, without the flags. -/
def LivePage.ownerId (m : LivePage) : ℕ := m.page.xthreadId - m.page.xthreadId % (miPageFlagMask + 1)

/-- The flags of a page. -/
def LivePage.flags (m : LivePage) : ℕ := m.page.xthreadId % (miPageFlagMask + 1)

/-- A page is owned. -/
def LivePage.Owned (m : LivePage) : Prop := m.page.xthreadFree.owned = true

/-- The header of a page at `p` describes its blocks. -/
structure PageOk (p : PagePtr) (d : PageDesc) (m : LivePage) : Prop where
  blocks : ∃ fr lo xs, m.Blocks none fr lo xs []
  blockSize_pos : 0 < m.page.blockSize
  reserved_pos : 0 < m.page.reserved
  start : d.sliceIndex * miArenaSliceSize ≤ d.pageStart
  word : miIntptrSize ∣ d.pageStart
  fits : d.pageStart + m.page.reserved * m.page.blockSize ≤
    (d.sliceIndex + d.sliceCount) * miArenaSliceSize
  place : match p with
    | .slice i idx => d.arena = i ∧ d.sliceIndex = idx ∧ d.bin < miBinHuge ∧
        m.page.blockSize = binBlockSize d.bin
    | .header _ => d.bin = miBinHuge ∧ m.page.reserved = 1 ∧
        d.pageStart = d.sliceIndex * miArenaSliceSize

/-- A page that has been handed off has live blocks, and its owner id tells whether it has room. -/
def LivePage.Abandoned (m : LivePage) : Prop :=
  m.live.Nonempty ∧ (m.ownerId = miThreadidAbandonedMapped ∧ ¬ m.Full ∨
    m.ownerId = miThreadidAbandoned ∧ m.Full)

/-- The last event on a page. -/
def lastEvent (log : List PageEvent) (p : PagePtr) : Option PageEvent :=
  log.find? fun e => decide (e.page = p)

theorem lastEvent_cons_of_ne {e : PageEvent} {log : List PageEvent} {p : PagePtr} (h : e.page ≠ p) :
    lastEvent (e :: log) p = lastEvent log p := by
  simp [lastEvent, h]

theorem lastEvent_cons_self {e : PageEvent} {log : List PageEvent} :
    lastEvent (e :: log) e.page = some e := by
  simp [lastEvent]

/-- A page is reclaimed only when it has been abandoned since it was last reclaimed. -/
def Alternates : List PageEvent → Prop
  | [] => True
  | e :: log => (∀ p, e = .reclaimed p → lastEvent log p = some (.abandoned p)) ∧ Alternates log

namespace Process

/-- The page lies in one chunk of its arena, and its header is allocated. -/
def Placed (w : Process) (p : PagePtr) : Prop :=
  (∃ a, w.arenas (w.desc p).arena = some a ∧
    Bitmap.InChunk a.chunkCount (w.desc p).sliceIndex (w.desc p).sliceCount ∧
    (w.desc p).sliceIndex + (w.desc p).sliceCount ≤ a.sliceCount ∧ 0 < (w.desc p).sliceCount) ∧
  ∀ h, p = .header h → (h, Page.sizeOf) ∈ w.metadata.live

/-- The registry of arena `i` for bin `b` has a bit for slice `j`. -/
def Registered (w : Process) (i b j : ℕ) : Prop :=
  w.abandonedBase i = true ∧
    ∃ a, w.arenas i = some a ∧ j ∈ bitsOf a.chunkCount (w.pagesAbandoned i b)

/-- The page is in the registry. -/
def InRegistry (w : Process) (p : PagePtr) : Prop :=
  w.Registered (w.desc p).arena (w.desc p).bin (w.desc p).sliceIndex

end Process

/-- A queue, with its first and last page and its length, holds the pages `l`. -/
structure Queue (next prev : PagePtr → Option PagePtr) (first last : Option PagePtr) (count : ℕ)
    (l : List PagePtr) : Prop where
  dlist : DList next prev first l
  last : last = l.getLast?
  count : count = l.length

/-- A page of the theap `owner` that is in the queue of the theap `th` for bin `b`. -/
structure Queued (th : TheapPtr) (b : ℕ) (owner : TheapPtr) (d : PageDesc) (m : LivePage) : Prop where
  theap : owner = th
  bin : d.bin = b
  owned : m.Owned
  ownerId : m.ownerId = th.tid

/-- **The invariant.** -/
structure Sound (w : Process) (q : Queues) (D : Set TheapPtr) (H : Option PagePtr)
    (T : Set (ℕ × ℕ)) : Prop where
  arenas : ∀ i, (w.arenas i).isSome = true ↔ i < w.arenaCount
  region : ∀ i a, w.arenas i = some a → a.Region
  free_iff : ∀ i a j, w.arenas i = some a →
    (j ∈ a.freeBits (w.arenaMem i) ↔ j < a.sliceCount ∧ w.pageMap i j = none ∧ (i, j) ∉ T)
  taken : ∀ i j, (i, j) ∈ T → w.pageMap i j = none
  mapped : ∀ i j p, w.pageMap i j = some p ↔ p ∈ w.pages ∧ (i, j) ∈ (w.desc p).slices
  metadata : w.metadata.Holds w.metadata.live
  placed : ∀ p ∈ w.pages, w.Placed p
  pageOk : ∀ p ∈ w.pages, PageOk p (w.desc p) (w.page p)
  queues : ∀ th b, Queue w.next w.prev (w.first th b) (w.last th b) (w.count th b) (q th b)
  queued : ∀ th b, ∀ p ∈ q th b,
    p ∈ w.pages ∧ H ≠ some p ∧ Queued th b (w.theap p) (w.desc p) (w.page p)
  held : ∀ p, H = some p → p ∈ w.pages
  owned : ∀ p ∈ w.pages, H ≠ some p → (w.page p).Owned → p ∈ q (w.theap p) (w.desc p).bin
  abandoned : ∀ p ∈ w.pages, H ≠ some p → ¬ (w.page p).Owned →
    (w.page p).Abandoned ∧ lastEvent w.log p = some (.abandoned p)
  alternates : Alternates w.log
  based : ∀ i, w.abandonedBase i = true → (w.arenas i).isSome = true
  unbased : ∀ i, w.abandonedBase i = false → w.pagesAbandoned i = fun _ _ => 0#64
  covered : ∀ i a b, w.arenas i = some a → Covered a.chunkCount (w.pagesAbandoned i b)
  registered : ∀ i b j, w.Registered i b j → ∃ p ∈ w.pages, (w.desc p).arena = i ∧
    (w.desc p).bin = b ∧ (w.desc p).sliceIndex = j ∧ (H = some p ∨ (¬ (w.page p).Owned ∧
      (w.page p).ownerId = miThreadidAbandonedMapped))
  inRegistry : w.registryRefused = false → ∀ p ∈ w.pages, H ≠ some p → ¬ (w.page p).Owned →
    (w.page p).ownerId = miThreadidAbandonedMapped → w.InRegistry p
  direct : ∀ th ∈ D, ∀ i p, w.pagesFreeDirect th i = some p →
    i ≤ miSmallWsizeMax ∧ p ∈ q th (bin (i * miIntptrSize))

/-! ## What is left alone -/

/-- A block of a page is live. -/
def Process.Live (w : Process) (x : PagePtr × Blk) : Prop := x.1 ∈ w.pages ∧ x.2 ∈ (w.page x.1).live

/-- The live blocks in `S` stay live, in the same place. The flags of a page are never dropped. -/
structure KeepsPage (S : Set (PagePtr × Blk)) (w w' : Process) : Prop where
  live : ∀ x ∈ S, w.Live x → w'.Live x
  desc : ∀ x ∈ S, w.Live x → w'.desc x.1 = w.desc x.1
  blockSize : ∀ x ∈ S, w.Live x → (w'.page x.1).page.blockSize = (w.page x.1).page.blockSize
  flags : ∀ x ∈ S, w.Live x → (w.page x.1).flags ≠ 0 → (w'.page x.1).flags ≠ 0
  arenas : ∀ i a, w.arenas i = some a → w'.arenas i = some a

/-- The clients of the allocator: the theaps of the threads, the pointers that have been handed out,
the heaps, and the threads that have exited. -/
def Process.clients (w : Process) :
    (ℕ → List ℕ) × (Ptr → Option ℕ) × Finset ℕ × ℕ × Finset ℕ :=
  (w.theaps, w.given, w.heaps, w.heapSeq, w.exited)

@[simp] theorem Process.setPage_clients (w : Process) (p : PagePtr) (m : LivePage) :
    (w.setPage p m).clients = w.clients := rfl

@[simp] theorem Process.initPage_clients (w : Process) (p : PagePtr) (d : PageDesc) (page : Page)
    (th : TheapPtr) : (w.initPage p d page th).clients = w.clients := rfl

@[simp] theorem Process.mapSlices_clients (w : Process) (i idx n : ℕ) (p : Option PagePtr) :
    (w.mapSlices i idx n p).clients = w.clients := rfl

@[simp] theorem Process.publish_clients (w : Process) (th : TheapPtr) (b : ℕ) (p : PagePtr) :
    (w.publish th b p).clients = w.clients := rfl

/-- What the functions of a theap leave alone: the clients, and the queues of the theaps outside
`A`. -/
structure Steps (S : Set (PagePtr × Blk)) (A : Set TheapPtr) (w : Process) (q : Queues)
    (w' : Process) (q' : Queues) : Prop extends KeepsPage S w w' where
  clients : w'.clients = w.clients
  others : ∀ th ∉ A, q' th = q th

variable {S : Set (PagePtr × Blk)} {A : Set TheapPtr} {w w' w'' : Process} {q q' q'' : Queues}
  {D : Set TheapPtr} {H : Option PagePtr} {T : Set (ℕ × ℕ)}

theorem KeepsPage.refl : KeepsPage S w w :=
  ⟨fun _ _ h => h, fun _ _ _ => rfl, fun _ _ _ => rfl, fun _ _ _ h => h, fun _ _ h => h⟩

theorem KeepsPage.trans (h : KeepsPage S w w') (h' : KeepsPage S w' w'') : KeepsPage S w w'' where
  live x hx hl := h'.live x hx (h.live x hx hl)
  desc x hx hl := (h'.desc x hx (h.live x hx hl)).trans (h.desc x hx hl)
  blockSize x hx hl := (h'.blockSize x hx (h.live x hx hl)).trans (h.blockSize x hx hl)
  flags x hx hl hf := h'.flags x hx (h.live x hx hl) (h.flags x hx hl hf)
  arenas i a ha := h'.arenas i a (h.arenas i a ha)

theorem KeepsPage.mono {S' : Set (PagePtr × Blk)} (h : KeepsPage S w w') (hS : S' ⊆ S) : KeepsPage S' w w' where
  live x hx := h.live x (hS hx)
  desc x hx := h.desc x (hS hx)
  blockSize x hx := h.blockSize x (hS hx)
  flags x hx := h.flags x (hS hx)
  arenas := h.arenas

theorem Steps.refl : Steps S A w q w q := ⟨KeepsPage.refl, rfl, fun _ _ => rfl⟩

theorem Steps.trans (h : Steps S A w q w' q') (h' : Steps S A w' q' w'' q'') :
    Steps S A w q w'' q'' where
  toKeepsPage := h.toKeepsPage.trans h'.toKeepsPage
  clients := h'.clients.trans h.clients
  others th hth := (h'.others th hth).trans (h.others th hth)

theorem Steps.theaps (h : Steps S A w q w' q') : w'.theaps = w.theaps :=
  congrArg (fun c => c.1) h.clients

theorem Steps.given (h : Steps S A w q w' q') : w'.given = w.given :=
  congrArg (fun c => c.2.1) h.clients

theorem Steps.heaps (h : Steps S A w q w' q') : w'.heaps = w.heaps :=
  congrArg (fun c => c.2.2.1) h.clients

theorem Steps.heapSeq (h : Steps S A w q w' q') : w'.heapSeq = w.heapSeq :=
  congrArg (fun c => c.2.2.2.1) h.clients

theorem Steps.exited (h : Steps S A w q w' q') : w'.exited = w.exited :=
  congrArg (fun c => c.2.2.2.2) h.clients

theorem Steps.mono {S' : Set (PagePtr × Blk)} (h : Steps S A w q w' q') (hS : S' ⊆ S) :
    Steps S' A w q w' q' :=
  { h with toKeepsPage := h.toKeepsPage.mono hS }

theorem Steps.widen {A' : Set TheapPtr} (h : Steps S A w q w' q') (hA : A ⊆ A') :
    Steps S A' w q w' q' :=
  { h with others := fun th hth => h.others th fun hc => hth (hA hc) }

/-- A change that is about no page that is live. -/
theorem KeepsPage.of_agree (hpages : ∀ p ∈ w.pages, p ∈ w'.pages ∧ w'.page p = w.page p ∧
      w'.desc p = w.desc p) (harenas : ∀ i a, w.arenas i = some a → w'.arenas i = some a) :
    KeepsPage S w w' := by
  refine ⟨fun x _ hl => ?_, fun x _ hl => (hpages x.1 hl.1).2.2, fun x _ hl => ?_,
    fun x _ hl hf => ?_, harenas⟩
  · obtain ⟨hp, hpage, -⟩ := hpages x.1 hl.1
    refine ⟨hp, ?_⟩
    rw [hpage]
    exact hl.2
  · rw [(hpages x.1 hl.1).2.1]
  · rw [(hpages x.1 hl.1).2.1]
    exact hf

/-- A change that is about no page. -/
theorem KeepsPage.of_rfl (hpages : w'.pages = w.pages) (hpage : w'.page = w.page)
    (hdesc : w'.desc = w.desc) (harenas : ∀ i a, w.arenas i = some a → w'.arenas i = some a) :
    KeepsPage S w w' := by
  refine KeepsPage.of_agree (fun p hp => ?_) harenas
  rw [hpages, hpage, hdesc]
  exact ⟨hp, rfl, rfl⟩

theorem Steps.of_agree (hpages : ∀ p ∈ w.pages, p ∈ w'.pages ∧ w'.page p = w.page p ∧
      w'.desc p = w.desc p) (harenas : ∀ i a, w.arenas i = some a → w'.arenas i = some a)
    (hclients : w'.clients = w.clients) (hothers : ∀ th ∉ A, q' th = q th) :
    Steps S A w q w' q' :=
  ⟨KeepsPage.of_agree hpages harenas, hclients, hothers⟩

theorem Steps.of_rfl (hpages : w'.pages = w.pages) (hpage : w'.page = w.page)
    (hdesc : w'.desc = w.desc) (harenas : ∀ i a, w.arenas i = some a → w'.arenas i = some a)
    (hclients : w'.clients = w.clients) (hothers : ∀ th ∉ A, q' th = q th) :
    Steps S A w q w' q' :=
  ⟨KeepsPage.of_rfl hpages hpage hdesc harenas, hclients, hothers⟩

/-- A change of one page that keeps its live blocks in `S`. -/
theorem Steps.setPage {p : PagePtr} {m : LivePage}
    (hlive : ∀ b, (p, b) ∈ S → b ∈ (w.page p).live → b ∈ m.live)
    (hsize : m.page.blockSize = (w.page p).page.blockSize)
    (hflags : (w.page p).flags ≠ 0 → m.flags ≠ 0) : Steps S A w q (w.setPage p m) q := by
  refine ⟨⟨fun x hx hl => ⟨hl.1, ?_⟩, fun _ _ _ => rfl, fun x _ _ => ?_, fun x _ _ hf => ?_,
    fun _ _ h => h⟩, rfl, fun _ _ => rfl⟩
  · obtain ⟨p', b⟩ := x
    by_cases hp : p' = p
    · subst hp
      show b ∈ ((w.setPage p' m).page p').live
      rw [w.setPage_page]
      exact hlive b hx hl.2
    · show b ∈ ((w.setPage p m).page p').live
      rw [w.setPage_of_ne m hp]
      exact hl.2
  · by_cases hp : x.1 = p
    · rw [hp, w.setPage_page, hsize]
    · rw [w.setPage_of_ne m hp]
  · by_cases hp : x.1 = p
    · rw [hp] at hf ⊢
      rw [w.setPage_page]
      exact hflags hf
    · rwa [w.setPage_of_ne m hp]

namespace Sound

variable {p p' : PagePtr} {m : LivePage} {th : TheapPtr} {b : ℕ}

/-! ## Pages -/

theorem subset {D' : Set TheapPtr} (h : Sound w q D H T) (hD : D' ⊆ D) : Sound w q D' H T :=
  { h with direct := fun th hth => h.direct th (hD hth) }

/-- A page is in one queue at most. -/
theorem queue_unique {th' : TheapPtr} {b' : ℕ} (h : Sound w q D H T) (hp : p ∈ q th b)
    (hp' : p ∈ q th' b') : th' = th ∧ b' = b := by
  obtain ⟨-, -, hq⟩ := h.queued th b p hp
  obtain ⟨-, -, hq'⟩ := h.queued th' b' p hp'
  exact ⟨hq'.theap.symm.trans hq.theap, hq'.bin.symm.trans hq.bin⟩

/-- Pages that share a slice are the same. -/
theorem eq_of_slices {s : ℕ × ℕ} (h : Sound w q D H T) (hp : p ∈ w.pages) (hp' : p' ∈ w.pages)
    (hs : s ∈ (w.desc p).slices) (hs' : s ∈ (w.desc p').slices) : p' = p := by
  have hmap := (h.mapped s.1 s.2 p).mpr ⟨hp, hs⟩
  have hmap' := (h.mapped s.1 s.2 p').mpr ⟨hp', hs'⟩
  exact Option.some.inj (hmap'.symm.trans hmap)

/-- The first slice of a page is one of its slices. -/
theorem first_mem (h : Sound w q D H T) (hp : p ∈ w.pages) :
    ((w.desc p).arena, (w.desc p).sliceIndex) ∈ (w.desc p).slices := by
  obtain ⟨⟨a, -, -, -, hpos⟩, -⟩ := h.placed p hp
  exact ⟨rfl, le_rfl, by omega⟩

/-- **A page changes** that is in hand, or is owned and stays so. -/
theorem setPage (h : Sound w q D H T) (hok : PageOk p (w.desc p) m)
    (hkeep : H = some p ∨ (w.page p).Owned ∧ m.Owned ∧ m.ownerId = (w.page p).ownerId) :
    Sound (w.setPage p m) q D H T := by
  have hself : (w.setPage p m).page p = m := w.setPage_page p m
  have hother : ∀ {p'}, p' ≠ p → (w.setPage p m).page p' = w.page p' := fun hp' =>
    w.setPage_of_ne m hp'
  refine { h with pageOk := ?_, queued := ?_, owned := ?_, abandoned := ?_, registered := ?_,
                  inRegistry := ?_ }
  · intro p' hp'
    by_cases heq : p' = p
    · subst heq
      rwa [hself]
    · rw [hother heq]
      exact h.pageOk p' hp'
  · intro th b p' hp'
    obtain ⟨hpages, hH, hq⟩ := h.queued th b p' hp'
    refine ⟨hpages, hH, ?_⟩
    by_cases heq : p' = p
    · subst heq
      obtain ⟨-, hm, hid⟩ := hkeep.resolve_left hH
      rw [hself]
      exact ⟨hq.theap, hq.bin, hm, hid.trans hq.ownerId⟩
    · rwa [hother heq]
  · intro p' hp' hH ho
    apply h.owned p' hp' hH
    by_cases heq : p' = p
    · subst heq
      exact (hkeep.resolve_left hH).1
    · rwa [hother heq] at ho
  · intro p' hp' hH ho
    by_cases heq : p' = p
    · subst heq
      rw [hself] at ho
      exact (ho (hkeep.resolve_left hH).2.1).elim
    · rw [hother heq] at ho ⊢
      exact h.abandoned p' hp' hH ho
  · intro i b j hbit
    obtain ⟨p', hp', hi, hb, hj, hor⟩ := h.registered i b j hbit
    refine ⟨p', hp', hi, hb, hj, ?_⟩
    by_cases heq : p' = p
    · subst heq
      rcases hkeep with hH | ⟨ho, -⟩
      · exact Or.inl hH
      · exact Or.inl (hor.resolve_right fun hno => hno.1 ho)
    · rwa [hother heq]
  · intro hrefused p' hp' hH ho hid
    by_cases heq : p' = p
    · subst heq
      rw [hself] at ho
      exact (ho (hkeep.resolve_left hH).2.1).elim
    · rw [hother heq] at ho hid
      exact h.inRegistry hrefused p' hp' hH ho hid

/-- A page that is not owned is taken in hand. -/
theorem hold (h : Sound w q D none T) (hp : p ∈ w.pages) (hno : ¬ (w.page p).Owned) :
    Sound w q D (some p) T := by
  refine { h with queued := ?_, held := ?_, owned := ?_, abandoned := ?_, registered := ?_,
                  inRegistry := ?_ }
  · intro th b p' hp'
    obtain ⟨hpages, -, hq⟩ := h.queued th b p' hp'
    refine ⟨hpages, ?_, hq⟩
    intro heq
    cases heq
    exact hno hq.owned
  · intro p' heq
    cases heq
    exact hp
  · exact fun p' hp' _ => h.owned p' hp' (by simp)
  · exact fun p' hp' _ => h.abandoned p' hp' (by simp)
  · intro i b j hbit
    obtain ⟨p', hp', hi, hb, hj, hor⟩ := h.registered i b j hbit
    exact ⟨p', hp', hi, hb, hj, Or.inr (hor.resolve_left (by simp))⟩
  · exact fun hrefused p' hp' _ => h.inRegistry hrefused p' hp' (by simp)

/-- The page in hand is let go: it has been given up, and its owner id tells whether it is in the
registry. -/
theorem letGo (h : Sound w q D (some p) T) (hno : ¬ (w.page p).Owned)
    (hab : (w.page p).Abandoned) (hlog : lastEvent w.log p = some (.abandoned p))
    (hbit : w.InRegistry p → (w.page p).ownerId = miThreadidAbandonedMapped)
    (hreg : w.registryRefused = false → (w.page p).ownerId = miThreadidAbandonedMapped →
      w.InRegistry p) : Sound w q D none T := by
  refine { h with queued := ?_, held := ?_, owned := ?_, abandoned := ?_, registered := ?_,
                  inRegistry := ?_ }
  · intro th b p' hp'
    obtain ⟨hpages, -, hq⟩ := h.queued th b p' hp'
    exact ⟨hpages, by simp, hq⟩
  · intro p' heq
    cases heq
  · intro p' hp' _ ho
    apply h.owned p' hp' _ ho
    rintro ⟨⟩
    exact hno ho
  · intro p' hp' _ ho
    by_cases heq : p' = p
    · subst heq
      exact ⟨hab, hlog⟩
    · exact h.abandoned p' hp' (fun hc => heq (Option.some.inj hc).symm) ho
  · intro i b j hb
    obtain ⟨p', hp', hi, hbin, hj, hor⟩ := h.registered i b j hb
    refine ⟨p', hp', hi, hbin, hj, Or.inr ?_⟩
    rcases hor with heq | hor
    · cases heq
      refine ⟨hno, hbit ?_⟩
      unfold Process.InRegistry
      rwa [hi, hbin, hj]
    · exact hor
  · intro hrefused p' hp' _ ho hid
    by_cases heq : p' = p
    · subst heq
      exact hreg hrefused hid
    · exact h.inRegistry hrefused p' hp' (fun hc => heq (Option.some.inj hc).symm) ho hid

end Sound

end MimallocRs
