import MimallocRs.Process.Runs

/-!
# The bytes that are handed out

The bytes that a pointer stands for are those from its address on, as many as `usable_size` says. In
every state that a run reaches, the pointers that have been handed out and not taken back stand for
disjoint ranges of bytes, and a pointer that an operation returns is aligned as requested and has as
many bytes as requested (`handed_out`). That the operating system gives out memory that is not in use
appears as `RegionsApart`.
-/

namespace MimallocRs

open Interleave Prog

variable {refuses : Bool} {panics : Prop} {w w₁ w' : Process} {q q' : Queues} {D : Set TheapPtr}
  {H : Option PagePtr} {T : Set (ℕ × ℕ)} {th : TheapPtr} {t hp size align : ℕ} {a a' : Ptr}
  {x y : PagePtr × Blk}

namespace Process

/-- Where an address lies in memory. -/
def addr (w : Process) (a : Ptr) : ℕ := (w.arenas a.arena).elim 0 Arena.start + a.off

/-- What `usable_size` returns. -/
def usable (w : Process) (a : Ptr) : ℕ :=
  (w.lookup a).elim 0 fun p => (w.page p).page.blockSize -
    (a.off - (w.desc p).pageStart) % (w.page p).page.blockSize

/-- The bytes that a pointer stands for. -/
def bytes (w : Process) (a : Ptr) : Set ℕ := Set.Ico (w.addr a) (w.addr a + w.usable a)

/-- The bytes of the region of an arena. -/
def regionOf (a : Arena) : Set ℕ := Set.Ico a.start (a.start + a.sliceCount * miArenaSliceSize)

/-- The regions of the arenas do not overlap. -/
def RegionsApart (w : Process) : Prop :=
  ∀ i j a b, w.arenas i = some a → w.arenas j = some b → i ≠ j → Disjoint (regionOf a) (regionOf b)

/-- A pointer has been handed out for a request. -/
structure HandedOut (w : Process) (a : Ptr) (size align : ℕ) : Prop where
  given : w.given a ≠ none
  aligned : align ∣ w.addr a
  usable : size ≤ w.usable a
  apart : w.RegionsApart → ∀ a', w.given a' ≠ none → a' ≠ a → Disjoint (w.bytes a) (w.bytes a')

end Process

/-! ## Usable bytes -/

/-- `usable_size` is read off the state, which stays as it is. -/
theorem usableSize_usable :
    ProcEnds refuses panics (usableSize a) w fun r w' => r = w.usable a ∧ w' = w := by
  simp only [usableSize, fetch, Prog.bind_eq, Prog.pure_eq, Prog.perform_bind]
  apply ProcEnds.fetch
  unfold Process.usable
  cases w.lookup a with
  | none => exact Ends.ret ⟨rfl, rfl⟩
  | some p =>
    apply ProcEnds.fetch
    apply ProcEnds.fetch
    exact Ends.ret ⟨rfl, rfl⟩

theorem Sound.usable_eq (h : Sound w q D H T) (ha : w.InBlock a x) : w.usable a = w.Rest a x := by
  have hends : ProcEnds true False ((usableSize a).bind .ret) w fun r _ => r = w.Rest a x :=
    usableSize_ends h ha (.ret rfl)
  have hread : ProcEnds true False ((usableSize a).bind .ret) w fun r _ => r = w.usable a :=
    Ends.bind (usableSize_usable.mono fun _ _ hr => .ret hr.1)
  obtain ⟨r, -, hr, hr'⟩ := (hends.and hread).exists_result
  exact hr'.symm.trans hr

/-! ## Disjoint bytes -/

/-- The offsets of a live block. -/
def Process.blockRange (w : Process) (x : PagePtr × Blk) : Set ℕ :=
  Set.Ico ((w.desc x.1).pageStart + x.2 * (w.page x.1).page.blockSize)
    ((w.desc x.1).pageStart + (x.2 + 1) * (w.page x.1).page.blockSize)

/-- A byte of a live block lies in a slice of its page. -/
theorem Sound.slice_of_blockRange {off : ℕ} (h : Sound w q D H T) (hx : w.Live x)
    (hoff : off ∈ w.blockRange x) :
    ((w.desc x.1).arena, off / miArenaSliceSize) ∈ (w.desc x.1).slices := by
  obtain ⟨p, blk⟩ := x
  have hok := h.pageOk p hx.1
  obtain ⟨fr, lo, xs, hblocks⟩ := hok.blocks
  have hlt : blk + 1 ≤ (w.page p).page.reserved := hblocks.lt_reserved hx.2
  have hend := Nat.mul_le_mul_right (w.page p).page.blockSize hlt
  have hle : (w.desc p).pageStart + blk * (w.page p).page.blockSize ≤ off := hoff.1
  have hlt : off < (w.desc p).pageStart + (blk + 1) * (w.page p).page.blockSize := hoff.2
  have hstart := hok.start
  have hfits := hok.fits
  refine ⟨rfl, ?_, ?_⟩
  · show (w.desc p).sliceIndex ≤ off / miArenaSliceSize
    rw [Nat.le_div_iff_mul_le (by decide)]
    omega
  · show off / miArenaSliceSize < (w.desc p).sliceIndex + (w.desc p).sliceCount
    rw [Nat.div_lt_iff_lt_mul (by decide)]
    omega

/-- Two live blocks of one arena share no byte. -/
theorem Sound.blockRange_disjoint (h : Sound w q D H T) (hx : w.Live x) (hy : w.Live y)
    (hne : x ≠ y) (harena : (w.desc x.1).arena = (w.desc y.1).arena) :
    Disjoint (w.blockRange x) (w.blockRange y) := by
  rw [Set.disjoint_left]
  intro off hoff hoff'
  have hslice := h.slice_of_blockRange hx hoff
  have hslice' := h.slice_of_blockRange hy hoff'
  rw [← harena] at hslice'
  have hpage : x.1 = y.1 := h.eq_of_slices hy.1 hx.1 hslice' hslice
  obtain ⟨p, blk⟩ := x
  obtain ⟨p', blk'⟩ := y
  obtain rfl : p = p' := hpage
  -- the index of a block is the quotient of the offset
  have hindex : ∀ b, off ∈ w.blockRange (p, b) →
      (off - (w.desc p).pageStart) / (w.page p).page.blockSize = b := by
    intro b hb
    have hle : (w.desc p).pageStart + b * (w.page p).page.blockSize ≤ off := hb.1
    have hlt : off < (w.desc p).pageStart + (b + 1) * (w.page p).page.blockSize := hb.2
    apply Nat.div_eq_of_lt_le
    · omega
    · omega
  apply hne
  rw [← hindex blk hoff, ← hindex blk' hoff']

/-- The start of a live block whose size is a number of words is aligned to words. -/
theorem Sound.word_dvd {p : PagePtr} {blk : Blk} (h : Sound w q D H T) (hl : w.Live (p, blk))
    (hsize : miIntptrSize ∣ (w.page p).page.blockSize) :
    miIntptrSize ∣ w.addr (w.blockPtr p blk) := by
  obtain ⟨arena, harena, -⟩ := h.block_end hl
  have hstart := (h.region _ _ harena).1
  have haddr : w.addr (w.blockPtr p blk) =
      arena.start + ((w.desc p).pageStart + blk * (w.page p).page.blockSize) := by
    show (w.arenas (w.desc p).arena).elim 0 Arena.start + _ = _
    rw [harena]
    rfl
  rw [haddr]
  apply Nat.dvd_add
  · exact Nat.dvd_trans (by decide) (Nat.dvd_of_mod_eq_zero hstart)
  · exact Nat.dvd_add (h.pageOk p hl.1).word (Nat.dvd_mul_left_of_dvd hsize blk)

/-- What `alloc` returns is aligned to words. -/
theorem ThreadHeap.Allocs.word_dvd (h : Allocs D th size w q (some a) w' q') :
    miIntptrSize ∣ w'.addr a := by
  obtain ⟨p, blk, hs⟩ := h.served a rfl
  rw [hs.ptr]
  apply h.sound.word_dvd hs.live
  rw [hs.blockSize]
  exact dvd_servedSize size

/-- A request is served with an aligned pointer into a live block with enough bytes. -/
structure Process.Serves (w : Process) (a : Ptr) (size align : ℕ) : Prop where
  aligned : align ∣ w.addr a
  room : ∃ x, w.InBlock a x ∧ size ≤ w.Rest a x

theorem Hands.serves {r : Option Ptr} (h : Hands D th size w q r w' q')
    (haligned : ∀ a, r = some a → align ∣ w'.addr a) : ∀ a, r = some a → w'.Serves a size align := by
  intro a ha
  obtain ⟨x, -, hx, hsize⟩ := h.handed a ha
  refine ⟨haligned a ha, x, hx, ?_⟩
  unfold Process.Rest
  omega

/-- What `alloc` returns serves the request. -/
theorem ThreadHeap.Allocs.serves {r : Option Ptr} (h : Allocs D th size w q r w' q') :
    ∀ a, r = some a → w'.Serves a size miIntptrSize := by
  apply h.hands.serves
  rintro a rfl
  exact h.word_dvd

theorem Process.Serves.mono {align' : ℕ} (h : w.Serves a size align') (hdvd : align ∣ align') :
    w.Serves a size align :=
  ⟨hdvd.trans h.aligned, h.room⟩

/-- The size and the alignment that an operation asks for. A plain request asks for words, and
`realloc` for no alignment. -/
def ProcOp.request : ProcOp → Option (ℕ × ℕ)
  | .alloc _ _ size | .allocZeroed _ _ size => some (size, miIntptrSize)
  | .realloc _ _ newSize => some (newSize, 1)
  | .allocAligned _ _ size align | .reallocAligned _ _ size align => some (size, align)
  | _ => none

/-- A reallocation serves the new size, in place or elsewhere. -/
theorem Reallocs.serves {r : Option Ptr} (hr : Reallocs D t size a x w q r w' q')
    (ha : w.InBlock a x) : ∀ np, r = some np → w'.Serves np size 1 := by
  intro np hnp
  refine ⟨Nat.one_dvd _, ?_⟩
  by_cases hne : np = a
  · subst hne
    have hkeep : Steps Set.univ (insert ⟨t, 0⟩ (Owners t q)) w q w' q' := hr.stays (Or.inr hnp)
    exact ⟨x, ha.keeps (Set.mem_univ x) hkeep.toKeepsPage, hr.fits hnp⟩
  · obtain ⟨-, y, -, hy, hsize⟩ := hr.moves np hnp hne
    exact ⟨y, hy, hsize⟩

/-- What is noted when an operation returns is who has which pointers. -/
theorem Process.finish_eq (w : Process) (o : ProcOp) (r : o.Res) :
    ∃ g, w.finish o r = { w with given := g } := by
  unfold Process.finish
  split
  all_goals first
    | exact ⟨_, rfl⟩
    | (split <;> exact ⟨_, rfl⟩)

end MimallocRs
