import MimallocRs.Bits
import MimallocRs.Foundations.Interleave.Alone
import Mathlib.Data.Nat.Log
import Mathlib.Order.Interval.Finset.Nat

/-!
# Aligned memory from the operating system

`os::alloc_aligned` and `os::free` of `os.rs`, over the two calls of `prim` that map and unmap memory.
The operating system keeps a set of mapped pages. It may place a mapping at any page that leaves the
whole of it unmapped so far, or refuse it; it unmaps a range of whole pages that are all mapped. A
request that breaks the contract of `prim` has no answer.
-/

namespace MimallocRs

open Interleave Prog

/-- The part of `OsMemConfig` that is used here. -/
structure OsMemConfig where
  pageSize : ℕ
  allocGranularity : ℕ
  hasPartialFree : Bool

/-- `PrimAlloc`. -/
structure PrimAlloc where
  addr : ℕ
  isLarge : Bool
  isZero : Bool

/-- `MemKind`. -/
inductive MemKind
  | memNone | memStatic | memMeta | memOs | memOsHuge | memArena
  deriving DecidableEq

/-- `MemId`. -/
structure MemId where
  kind : MemKind
  base : ℕ
  size : ℕ
  isPinned : Bool
  initiallyCommitted : Bool
  initiallyZero : Bool
  deriving DecidableEq

/-- `MemId::is_os`. -/
def MemId.isOs (m : MemId) : Bool := m.kind = .memOs ∨ m.kind = .memOsHuge

/-- The calls of `Prim`. -/
inductive OsAct (β : Type) : Type
  /-- `Prim::alloc` at no hint. -/
  | alloc (size tryAlign : ℕ) (commit allowLarge : Bool) (answer : Option PrimAlloc → β)
  /-- `Prim::free`. -/
  | free (addr size : ℕ) (answer : Unit → β)

namespace Os

variable (cfg : OsMemConfig)

/-- The direct attempt of `os::alloc_aligned`. -/
def allocDirect (size alignment : ℕ) (commit allowLarge : Bool) :
    Prog OsAct (Option (ℕ × MemId)) := do
  match ← perform (.alloc size alignment commit allowLarge id) with
  | none => return none
  | some a =>
    if a.addr % alignment = 0 then
      return some (a.addr, ⟨.memOs, a.addr, size, a.isLarge, commit, a.isZero⟩)
    else
      perform (.free a.addr size id)
      return none

/-- Unmap one of the ends of a mapping, if it is not empty. -/
def trim (addr size : ℕ) : Prog OsAct Unit :=
  if 0 < size then perform (.free addr size id) else return ()

/-- What `os::alloc_aligned` does if the direct attempt has failed: over-allocate and trim. -/
def allocTrimmed (size alignment : ℕ) (commit : Bool) : Prog OsAct (Option (ℕ × MemId)) :=
  if usizeRange - 1 - alignment ≤ size then return none
  else if !cfg.hasPartialFree then return none
  else do
    let overSize := size + alignment
    match ← perform (.alloc overSize 1 commit false id) with
    | none => return none
    | some a =>
      let base := a.addr
      let aligned := alignUp base alignment
      let pre := aligned - base
      let mid := size
      let post := overSize - pre - mid
      trim base pre
      trim (aligned + mid) post
      return some (aligned, ⟨.memOs, aligned, mid, a.isLarge, commit, a.isZero⟩)

/-- `os::alloc_aligned`: the pointer and its provenance. -/
def allocAligned (size alignment : ℕ) (commit allowLarge : Bool) :
    Prog OsAct (Option (ℕ × MemId)) :=
  if size = 0 then return none
  else
    let ps := cfg.pageSize
    let alignment := max alignment ps
    let size := alignUp size ps
    let allowLarge := allowLarge && commit
    let tryDirect := alignment ≤ cfg.allocGranularity ∨ alignment ≤ size / 4
    if tryDirect then do
      match ← allocDirect size alignment commit allowLarge with
      | some r => return some r
      | none => allocTrimmed cfg size alignment commit
    else allocTrimmed cfg size alignment commit

/-- `os::free`. -/
def free (m : MemId) : Prog OsAct Unit :=
  if m.isOs ∧ m.base ≠ 0 ∧ 0 < m.size then perform (.free m.base m.size id) else return ()

end Os

/-! ## The operating system -/

/-- The numbers of the pages that are mapped. -/
structure OsMem where
  mapped : Finset ℕ
  deriving DecidableEq

namespace OsMem

variable (cfg : OsMemConfig)

/-- An address is mapped. -/
def Mapped (s : OsMem) (a : ℕ) : Prop := a / cfg.pageSize ∈ s.mapped

/-- The pages of a range of whole pages. -/
def pages (addr size : ℕ) : Finset ℕ :=
  Finset.Ico (addr / cfg.pageSize) ((addr + size) / cfg.pageSize)

/-- A mapping of `size` bytes may be placed at an address. -/
def Fits (s : OsMem) (addr size : ℕ) : Prop :=
  0 < addr ∧ cfg.pageSize ∣ addr ∧ addr + size ≤ usizeRange ∧ Disjoint s.mapped (pages cfg addr size)

instance (s : OsMem) (addr size : ℕ) : Decidable (s.Fits cfg addr size) :=
  inferInstanceAs (Decidable (_ ∧ _))

/-- The calls of `Prim`. The choice is the place the operating system proposes, and what it says of
the memory; a place that is taken is a refusal. -/
def exec {β : Type} (e : OsAct β) (s : OsMem) (choice : ℕ) : Option (β × OsMem) :=
  match e with
  | .alloc size _ _ _ k =>
    if 0 < size ∧ cfg.pageSize ∣ size then
      if s.Fits cfg (choice / 4) size then
        some (k (some ⟨choice / 4, choice.testBit 0, choice.testBit 1⟩),
          ⟨s.mapped ∪ pages cfg (choice / 4) size⟩)
      else some (k none, s)
    else none
  | .free addr size k =>
    if 0 < size ∧ cfg.pageSize ∣ addr ∧ cfg.pageSize ∣ size ∧ pages cfg addr size ⊆ s.mapped then
      some (k (), ⟨s.mapped \ pages cfg addr size⟩)
    else none

end OsMem

/-- The operating system. -/
def osMachine (cfg : OsMemConfig) : Machine OsAct Unit OsMem where
  exec _ e s choice := s.exec cfg e choice

/-- Every execution of a program against the operating system comes to an end, and keeps to the
contract of `Prim`. -/
abbrev OsEnds {α : Type} (cfg : OsMemConfig) (p : Prog OsAct α) (s : OsMem) (Q : α → OsMem → Prop) :
    Prop :=
  Ends (osMachine cfg) () False p s Q

namespace OsEnds

variable {cfg : OsMemConfig} {α : Type} {s : OsMem} {Q : α → OsMem → Prop}

theorem alloc {size tryAlign : ℕ} {commit allowLarge : Bool} {k : Option PrimAlloc → Prog OsAct α}
    (hpos : 0 < size) (hdvd : cfg.pageSize ∣ size) (hno : OsEnds cfg (k none) s Q)
    (hyes : ∀ a : PrimAlloc, s.Fits cfg a.addr size →
      OsEnds cfg (k (some a)) ⟨s.mapped ∪ OsMem.pages cfg a.addr size⟩ Q) :
    OsEnds cfg (.act (.alloc size tryAlign commit allowLarge id) k) s Q := by
  have hexec : ∀ choice, (osMachine cfg).exec () (.alloc size tryAlign commit allowLarge id) s choice =
      if s.Fits cfg (choice / 4) size then
        some (some ⟨choice / 4, choice.testBit 0, choice.testBit 1⟩,
          ⟨s.mapped ∪ OsMem.pages cfg (choice / 4) size⟩)
      else some (none, s) := fun choice => if_pos ⟨hpos, hdvd⟩
  apply Ends.act
  · intro choice hnone
    rw [hexec] at hnone
    split at hnone <;> cases hnone
  · intro choice b s' hsome
    rw [hexec] at hsome
    split at hsome
    · next hfits =>
      cases hsome
      exact hyes _ hfits
    · cases hsome
      exact hno

theorem free {addr size : ℕ} {k : Unit → Prog OsAct α} (hpos : 0 < size)
    (haddr : cfg.pageSize ∣ addr) (hsize : cfg.pageSize ∣ size)
    (hmapped : OsMem.pages cfg addr size ⊆ s.mapped)
    (h : OsEnds cfg (k ()) ⟨s.mapped \ OsMem.pages cfg addr size⟩ Q) :
    OsEnds cfg (.act (.free addr size id) k) s Q := by
  have hexec : ∀ choice, (osMachine cfg).exec () (.free addr size id) s choice =
      some ((), ⟨s.mapped \ OsMem.pages cfg addr size⟩) :=
    fun choice => if_pos ⟨hpos, haddr, hsize, hmapped⟩
  apply Ends.act
  · intro choice hnone
    cases (hexec choice).symm.trans hnone
  · intro choice b s' hsome
    cases (hexec choice).symm.trans hsome
    exact h

theorem trim {addr size : ℕ} {k : Unit → Prog OsAct α} (haddr : cfg.pageSize ∣ addr)
    (hsize : cfg.pageSize ∣ size) (hmapped : OsMem.pages cfg addr size ⊆ s.mapped)
    (h : OsEnds cfg (k ()) ⟨s.mapped \ OsMem.pages cfg addr size⟩ Q) :
    OsEnds cfg ((Os.trim addr size).bind k) s Q := by
  unfold Os.trim
  by_cases hpos : 0 < size
  · rw [if_pos hpos]
    exact free hpos haddr hsize hmapped h
  · rw [if_neg hpos]
    have hempty : OsMem.pages cfg addr size = ∅ := by
      rw [Nat.eq_zero_of_not_pos hpos]
      simp [OsMem.pages]
    rw [hempty, Finset.sdiff_empty] at h
    exact h

end OsEnds

/-! ## What is mapped -/

namespace OsMem

variable {cfg : OsMemConfig} {s : OsMem} {addr size pre mid post : ℕ}

/-- The addresses of a range of whole pages. -/
theorem mem_pages {a : ℕ} (hps : 0 < cfg.pageSize) (haddr : cfg.pageSize ∣ addr)
    (hsize : cfg.pageSize ∣ size) :
    a / cfg.pageSize ∈ pages cfg addr size ↔ addr ≤ a ∧ a < addr + size := by
  obtain ⟨i, rfl⟩ := haddr
  obtain ⟨n, rfl⟩ := hsize
  rw [pages, Finset.mem_Ico, ← Nat.mul_add, Nat.mul_div_cancel_left _ hps,
    Nat.mul_div_cancel_left _ hps, Nat.le_div_iff_mul_le hps, Nat.div_lt_iff_lt_mul hps,
    Nat.mul_comm i, Nat.mul_comm (i + n)]

/-- What is left of a mapping after its two ends have been unmapped. -/
theorem trim_eq (haddr : cfg.pageSize ∣ addr) (hpre : cfg.pageSize ∣ pre)
    (hmid : cfg.pageSize ∣ mid) (hpost : cfg.pageSize ∣ post) (hps : 0 < cfg.pageSize)
    (hdisj : Disjoint s.mapped (pages cfg addr (pre + mid + post))) :
    pages cfg addr pre ⊆ s.mapped ∪ pages cfg addr (pre + mid + post) ∧
      pages cfg (addr + pre + mid) post ⊆
        (s.mapped ∪ pages cfg addr (pre + mid + post)) \ pages cfg addr pre ∧
      ((s.mapped ∪ pages cfg addr (pre + mid + post)) \ pages cfg addr pre) \
        pages cfg (addr + pre + mid) post = s.mapped ∪ pages cfg (addr + pre) mid ∧
      Disjoint s.mapped (pages cfg (addr + pre) mid) := by
  obtain ⟨i, rfl⟩ := haddr
  obtain ⟨j, rfl⟩ := hpre
  obtain ⟨n, rfl⟩ := hmid
  obtain ⟨k, rfl⟩ := hpost
  simp only [pages, ← Nat.mul_add, Nat.mul_div_cancel_left _ hps, Finset.disjoint_left,
    Finset.mem_Ico, Finset.subset_iff, Finset.mem_union, Finset.mem_sdiff] at hdisj ⊢
  refine ⟨fun x hx => Or.inr (by omega), fun x hx => ⟨Or.inr (by omega), by omega⟩, ?_,
    fun x hx => ?_⟩
  · ext x
    simp only [Finset.mem_sdiff, Finset.mem_union, Finset.mem_Ico]
    constructor
    · rintro ⟨⟨hx | hx, hpre⟩, hpost⟩
      · exact Or.inl hx
      · exact Or.inr (by omega)
    · rintro (hx | hx)
      · have hnot := hdisj hx
        exact ⟨⟨Or.inl hx, by omega⟩, by omega⟩
      · exact ⟨⟨Or.inr (by omega), by omega⟩, by omega⟩
  · have hnot := hdisj hx
    omega

end OsMem

/-! ## The calls -/

/-- What `os::alloc_aligned` returns: nothing, with nothing mapped, or a range of its own. -/
def OsMem.Answered (cfg : OsMemConfig) (size alignment : ℕ) (s : OsMem) (r : Option (ℕ × MemId))
    (s' : OsMem) : Prop :=
  match r with
  | none => s' = s
  | some (p, m) => p ≠ 0 ∧ alignment ∣ p ∧ m.kind = .memOs ∧ m.base = p ∧ m.size = size ∧
      cfg.pageSize ∣ p ∧ p + size ≤ usizeRange ∧ Disjoint s.mapped (OsMem.pages cfg p size) ∧
      s' = ⟨s.mapped ∪ OsMem.pages cfg p size⟩

namespace Os

variable {cfg : OsMemConfig} {size alignment : ℕ} {commit allowLarge : Bool} {s : OsMem}

theorem allocDirect_ends (hpos : 0 < size) (hsize : cfg.pageSize ∣ size) :
    OsEnds cfg (allocDirect size alignment commit allowLarge) s
      (s.Answered cfg size alignment) := by
  simp only [allocDirect, Prog.bind_eq, Prog.pure_eq, Prog.perform_bind]
  apply OsEnds.alloc hpos hsize
  · exact .ret rfl
  · intro a hfits
    obtain ⟨hnull, hdvd, hend, hdisj⟩ := hfits
    by_cases haligned : a.addr % alignment = 0
    · simp only [if_pos haligned]
      exact .ret ⟨by omega, Nat.dvd_of_mod_eq_zero haligned, rfl, rfl, rfl, hdvd, hend, hdisj, rfl⟩
    · simp only [if_neg haligned]
      apply OsEnds.free hpos hdvd hsize Finset.subset_union_right
      apply Ends.ret
      show OsMem.mk _ = s
      rw [Finset.union_sdiff_cancel_right hdisj]

theorem allocTrimmed_ends (hps : 0 < cfg.pageSize) (hpos : 0 < size) (hsize : cfg.pageSize ∣ size)
    (halign : 0 < alignment) (hdvd : cfg.pageSize ∣ alignment) :
    OsEnds cfg (allocTrimmed cfg size alignment commit) s (s.Answered cfg size alignment) := by
  unfold allocTrimmed
  by_cases hover : usizeRange - 1 - alignment ≤ size
  · rw [if_pos hover]
    exact .ret rfl
  rw [if_neg hover]
  by_cases hpartial : (!cfg.hasPartialFree) = true
  · rw [if_pos hpartial]
    exact .ret rfl
  rw [if_neg hpartial]
  simp only [Prog.bind_eq, Prog.pure_eq, Prog.perform_bind]
  apply OsEnds.alloc (by omega) (Nat.dvd_add hsize hdvd)
  · exact .ret rfl
  · intro a hfits
    obtain ⟨hnull, hbase, hend, hdisj⟩ := hfits
    -- the mapping ends within the address space, so that rounding its base up does not wrap
    obtain ⟨hup, hdown, haligned⟩ := alignUp_spec (x := a.addr) halign (by omega)
    have hps_aligned : cfg.pageSize ∣ alignUp a.addr alignment := hdvd.trans haligned
    have hpre : cfg.pageSize ∣ alignUp a.addr alignment - a.addr := Nat.dvd_sub hps_aligned hbase
    have hpost : cfg.pageSize ∣
        size + alignment - (alignUp a.addr alignment - a.addr) - size :=
      Nat.dvd_sub (Nat.dvd_sub (Nat.dvd_add hsize hdvd) hpre) hsize
    have hsplit : size + alignment = (alignUp a.addr alignment - a.addr) + size +
        (size + alignment - (alignUp a.addr alignment - a.addr) - size) := by omega
    rw [hsplit] at hdisj
    have htrim := OsMem.trim_eq hbase hpre hsize hpost hps hdisj
    rw [← hsplit, Nat.add_sub_cancel' hup] at htrim
    obtain ⟨hhead, htail, hleft, hdisj⟩ := htrim
    apply OsEnds.trim hbase hpre hhead
    apply OsEnds.trim (Nat.dvd_add hps_aligned hsize) hpost htail
    rw [hleft]
    exact .ret ⟨by omega, haligned, rfl, rfl, rfl, hps_aligned, by omega, hdisj, rfl⟩

theorem free_ends {m : MemId} (hkind : m.kind = .memOs) (hbase : cfg.pageSize ∣ m.base)
    (hsize : cfg.pageSize ∣ m.size) (hnull : m.base ≠ 0)
    (hpos : 0 < m.size) (hmapped : OsMem.pages cfg m.base m.size ⊆ s.mapped) :
    OsEnds cfg (free m) s fun _ s' => s' = ⟨s.mapped \ OsMem.pages cfg m.base m.size⟩ := by
  unfold free
  rw [if_pos ⟨by simp [MemId.isOs, hkind], hnull, hpos⟩]
  exact OsEnds.free hpos hbase hsize hmapped (.ret rfl)

end Os

/-- The addresses of a mapping. -/
def MemId.Holds (m : MemId) (a : ℕ) : Prop := m.base ≤ a ∧ a < m.base + m.size

/-- What a call of `os::alloc_aligned` for `size` bytes leaves behind: the memory as it was, or with
the range of the `MemId` mapped as well, which `os::free` unmaps again, whatever has been mapped
beside it. -/
def OsMem.Kept (cfg : OsMemConfig) (size alignment : ℕ) (s : OsMem) (r : Option (ℕ × MemId))
    (s' : OsMem) : Prop :=
  match r with
  | none => s' = s
  | some (p, m) => alignment ∣ p ∧ m.base = p ∧ m.size = alignUp size cfg.pageSize ∧ size ≤ m.size ∧
      (∀ a, s'.Mapped cfg a ↔ s.Mapped cfg a ∨ m.Holds a) ∧
      (∀ a, m.Holds a → ¬ s.Mapped cfg a) ∧
      ∀ s₁ : OsMem, (∀ a, m.Holds a → s₁.Mapped cfg a) → OsEnds cfg (Os.free m) s₁ fun _ s₂ =>
        ∀ a, s₂.Mapped cfg a ↔ s₁.Mapped cfg a ∧ ¬ m.Holds a

variable {cfg : OsMemConfig} {size alignment n : ℕ} {s s' : OsMem} {r : Option (ℕ × MemId)}

/-- In terms of addresses instead of pages. -/
theorem OsMem.Answered.kept (h : s.Answered cfg n alignment r s') (hps : 0 < cfg.pageSize)
    (hpos : 0 < n) (hn : cfg.pageSize ∣ n) (hsize : n = alignUp size cfg.pageSize)
    (hle : size ≤ n) {align : ℕ} (halign : align ∣ alignment) : s.Kept cfg size align r s' := by
  cases r with
  | none => exact h
  | some r =>
    obtain ⟨p, m⟩ := r
    obtain ⟨hnull, hdvd, hkind, rfl, rfl, hp, -, hdisj, rfl⟩ := h
    have hpages : ∀ a, a / cfg.pageSize ∈ OsMem.pages cfg m.base m.size ↔ m.Holds a := fun a =>
      OsMem.mem_pages hps hp hn
    refine ⟨halign.trans hdvd, rfl, hsize, hle, fun a => ?_, fun a ha hmapped => ?_,
      fun s₁ hs₁ => ?_⟩
    · show a / cfg.pageSize ∈ s.mapped ∪ OsMem.pages cfg m.base m.size ↔ _
      rw [Finset.mem_union, hpages]
      rfl
    · exact Finset.disjoint_left.mp hdisj hmapped ((hpages a).mpr ha)
    · apply (Os.free_ends hkind hp hn hnull hpos _).mono
      · intro _ s₂ hs₂ a
        rw [hs₂]
        show a / cfg.pageSize ∈ s₁.mapped \ OsMem.pages cfg m.base m.size ↔ _
        rw [Finset.mem_sdiff, hpages]
        rfl
      · intro x hx
        have hbyte : x * cfg.pageSize / cfg.pageSize = x := Nat.mul_div_cancel _ hps
        rw [← hbyte]
        apply hs₁
        rw [← hpages, hbyte]
        exact hx

/-- **`os::alloc_aligned`** leaves nothing mapped but the range it returns, which is aligned and
which `os::free` gives back, wherever the operating system puts its mappings. -/
theorem os_alloc_aligned (cfg : OsMemConfig) (hpage : cfg.pageSize.isPowerOfTwo) (size alignment : ℕ)
    (hpow : alignment.isPowerOfTwo) (hpos : 0 < size)
    (hround : size + (cfg.pageSize - 1) < usizeRange) (commit allowLarge : Bool) (s : OsMem) :
    OsEnds cfg (Os.allocAligned cfg size alignment commit allowLarge) s
      (s.Kept cfg size alignment) := by
  obtain ⟨i, hpage⟩ := hpage
  obtain ⟨k, rfl⟩ := hpow
  have hps : 0 < cfg.pageSize := by
    rw [hpage]
    exact Nat.two_pow_pos i
  obtain ⟨hle, -, hn⟩ := alignUp_spec hps hround
  have halign : 2 ^ k ∣ max (2 ^ k) cfg.pageSize ∧ cfg.pageSize ∣ max (2 ^ k) cfg.pageSize := by
    rw [hpage]
    rcases Nat.le_total (2 ^ k) (2 ^ i) with hki | hik
    · rw [Nat.max_eq_right hki]
      exact ⟨(Nat.pow_dvd_pow_iff_le_right (by decide)).mpr
        ((Nat.pow_le_pow_iff_right (by decide)).mp hki), dvd_rfl⟩
    · rw [Nat.max_eq_left hik]
      exact ⟨dvd_rfl, (Nat.pow_dvd_pow_iff_le_right (by decide)).mpr
        ((Nat.pow_le_pow_iff_right (by decide)).mp hik)⟩
  have hkept : ∀ r s', s.Answered cfg (alignUp size cfg.pageSize) (max (2 ^ k) cfg.pageSize) r s' →
      s.Kept cfg size (2 ^ k) r s' := fun r s' h =>
    h.kept hps (Nat.lt_of_lt_of_le hpos hle) hn rfl hle halign.1
  have htrimmed : OsEnds cfg (Os.allocTrimmed cfg (alignUp size cfg.pageSize)
      (max (2 ^ k) cfg.pageSize) commit) s (s.Kept cfg size (2 ^ k)) :=
    (Os.allocTrimmed_ends hps (Nat.lt_of_lt_of_le hpos hle) hn
      (Nat.lt_of_lt_of_le hps (Nat.le_max_right ..)) halign.2).mono hkept
  unfold Os.allocAligned
  rw [if_neg (Nat.ne_of_gt hpos)]
  simp only [Prog.bind_eq, Prog.pure_eq]
  split
  · apply Ends.bind
    apply (Os.allocDirect_ends (Nat.lt_of_lt_of_le hpos hle) hn).mono
    intro r s' hr
    cases r with
    | some r => exact .ret (hkept _ _ hr)
    | none =>
      cases hr
      exact htrimmed
  · exact htrimmed

/-- Memory aligned to a slice, where the pages have 4096 bytes. -/
theorem os_alloc_aligned_slice :
    OsEnds ⟨4096, 4096, true⟩ (Os.allocAligned ⟨4096, 4096, true⟩ 70000 65536 true false) ⟨∅⟩
      (OsMem.Kept ⟨4096, 4096, true⟩ 70000 65536 ⟨∅⟩) :=
  os_alloc_aligned ⟨4096, 4096, true⟩ ⟨12, rfl⟩ 70000 65536 ⟨16, rfl⟩ (by decide) (by decide) true
    false ⟨∅⟩

end MimallocRs
