import MimallocRs.Process.Adds
import MimallocRs.Process.Store

/-!
# No block is lost

An allocation adds at most one live block, and returns it; a free ends the life of one. So in a run
that destroys no heap every live block is the block of exactly one pointer that has been handed out
(`no_leak`): the live blocks are counted against the names of the store. When all pointers have been
freed, the pages that are left are empty and in use, a forced collect returns those of a theap, and
nothing is left when the threads have exited (`all_returned`).
-/

namespace MimallocRs

open Interleave Prog

variable {refuses : Bool} {panics : Prop} {D : Set TheapPtr} {w w₁ w' : Process} {q q' : Queues}
  {th : TheapPtr} {t hp size : ℕ} {a np : Ptr} {x : PagePtr × Blk} {s s' : BlockStore Ptr Ptr}
  {c : Config ProcAct Unit ProcOp ProcOp.Res Process}

/-- A process before its first call, in which no block is live. -/
structure Process.InitEmpty (w : Process) : Prop extends w.Init where
  live : ∀ p, (w.page p).live = ∅

/-- The operations other than `Heap::destroy`, which ends the life of blocks whose pointers the
client has not given back. -/
def ProcOp.KeepsBlocks : ProcOp → Prop
  | .destroyHeap .. => False
  | _ => True

/-- What an operation that returns `r` does to the number of live blocks. -/
def ProcOp.Counts : (o : ProcOp) → o.Res → ℕ∞ → ℕ∞ → Prop
  | .alloc .., r, n, n' | .allocAligned .., r, n, n' | .allocZeroed .., r, n, n' =>
    n' ≤ n ∨ n' ≤ n + 1 ∧ r ≠ none
  | .free .., _, n, n' => n' + 1 ≤ n
  | _, _, n, n' => n' ≤ n

/-! ## What the operations do to the number of live blocks -/

theorem withTheap_counts {f : TheapPtr → Prog ProcAct (Option Ptr)} {Q : Option Ptr → Process → Prop}
    (h : ProcEnds refuses panics (withTheap t hp f) w Q) (hf : ∀ th, AddsOne (f th)) :
    ProcEnds refuses panics (withTheap t hp f) w fun r w' =>
      w'.blocks.encard ≤ w.blocks.encard ∨ w'.blocks.encard ≤ w.blocks.encard + 1 ∧ r ≠ none := by
  apply (ProcEnds.addsOne h (withTheap_addsOne hf)).mono
  rintro r w' ⟨-, hsub | ⟨⟨x, hsub⟩, hr⟩⟩
  · exact Or.inl (Set.encard_le_encard hsub)
  · exact Or.inr ⟨(Set.encard_le_encard hsub).trans (Set.encard_insert_le _ _), hr⟩

/-- A block that has been freed, among others that may have been added. -/
theorem Process.Frees.encard_le {y : PagePtr × Blk} (h : Process.Frees x w₁ w')
    (hsub : w₁.blocks ⊆ insert y w.blocks) (hx : x ∈ w.blocks) (hne : y ≠ x) :
    w'.blocks.encard ≤ w.blocks.encard := by
  have hdiff : w'.blocks ⊆ insert y (w.blocks \ {x}) := by
    intro z hz
    have hzx : z ≠ x := by
      rintro rfl
      exact h.freed hz
    obtain rfl | hz' := hsub (h.toFewer.blocks hz)
    · exact Or.inl rfl
    · exact Or.inr ⟨hz', hzx⟩
  calc w'.blocks.encard
      ≤ (insert y (w.blocks \ {x})).encard := Set.encard_le_encard hdiff
    _ ≤ (w.blocks \ {x}).encard + 1 := Set.encard_insert_le _ _
    _ = w.blocks.encard := Set.encard_sdiff_singleton_add_one hx

/-- A new block is handed out, and the old one is freed. -/
theorem move_counts {f : Prog ProcAct (Option Ptr)} (ha : w.InBlock a x)
    (hf : ProcEnds refuses panics f w fun r w' => ∃ q', Hands D ⟨t, 0⟩ size w q r w' q')
    (hadds : AddsOne f) :
    ProcEnds refuses panics (f.bind fun r =>
      match r with
      | none => .ret none
      | some np => (free t a).bind fun _ => .ret (some np)) w fun _ w' =>
        w'.blocks.encard ≤ w.blocks.encard := by
  apply Ends.bind
  apply (ProcEnds.addsOne hf hadds).mono
  rintro r w₁ ⟨⟨q₁, hh⟩, hblocks⟩
  cases r with
  | none =>
    obtain hsub | ⟨-, hr⟩ := hblocks
    · exact .ret (Set.encard_le_encard hsub)
    · exact (hr rfl).elim
  | some np =>
    have hsteps : Steps Set.univ {⟨t, 0⟩} w q w₁ q₁ := hh.steps rfl
    have ha₁ := ha.keeps (Set.mem_univ x) hsteps.toKeepsPage
    obtain ⟨y, hy⟩ : ∃ y, w₁.blocks ⊆ insert y w.blocks := by
      obtain hsub | ⟨hsub, -⟩ := hblocks
      · exact ⟨x, hsub.trans (Set.subset_insert _ _)⟩
      · exact hsub
    apply Ends.bind
    apply (free_ends hh.sound ha₁).mono
    rintro _ w' ⟨q', -, -, hfrees⟩
    apply Ends.ret
    by_cases hyx : y = x
    · subst hyx
      have hmem : y ∈ w.blocks := ha.live.2
      rw [Set.insert_eq_of_mem hmem] at hy
      exact (Set.encard_le_encard hfrees.toFewer.blocks).trans (Set.encard_le_encard hy)
    · exact hfrees.encard_le hy ha.live.2 hyx

/-- **The step lemma** for the number of live blocks. -/
theorem Idle.op_counts {o : ProcOp} (h : Idle w q) (hstart : w.start o = some w₁)
    (ho : o.KeepsBlocks) :
    ProcEnds true True o.prog w₁ fun r w' => o.Counts r w.blocks.encard w'.blocks.encard := by
  have hends := h.op_ends hstart
  have none_added : w₁.blocks = w.blocks → o.prog.Every ProcAct.AddsNone →
      ProcEnds true True o.prog w₁ fun _ w' => w'.blocks.encard ≤ w.blocks.encard := by
    intro hw hevery
    apply (ProcEnds.addsNone hends hevery).mono
    rintro r w' ⟨-, hsub⟩
    rw [hw] at hsub
    exact Set.encard_le_encard hsub
  cases o with
  | alloc t hp size =>
    obtain ⟨-, rfl⟩ := Option.ite_some_none_eq_some.mp hstart
    exact withTheap_counts hends fun _ => ThreadHeap.alloc_addsOne
  | allocZeroed t hp size =>
    obtain ⟨-, rfl⟩ := Option.ite_some_none_eq_some.mp hstart
    exact withTheap_counts hends fun _ => ThreadHeap.allocZeroed_addsOne
  | allocAligned t hp size align =>
    obtain ⟨-, rfl⟩ := Option.ite_some_none_eq_some.mp hstart
    exact withTheap_counts hends fun _ => ThreadHeap.allocAligned_addsOne
  | free t a =>
    obtain ⟨⟨-, hgiven⟩, rfl⟩ := Option.ite_some_none_eq_some.mp hstart
    obtain ⟨x, hx⟩ := h.given.inBlock a (Option.isSome_iff_ne_none.mp hgiven)
    have h₁ : Idle { w with given := Function.update w.given a none } q := h.takeBack
    have hx₁ : Process.InBlock { w with given := Function.update w.given a none } a x :=
      { hx with }
    apply (free_ends h₁.sound hx₁).mono
    rintro _ w' ⟨q', -, -, hfrees⟩
    have hsub : w'.blocks ⊆ w.blocks \ {x} := by
      refine fun z hz => ⟨hfrees.toFewer.blocks hz, ?_⟩
      rintro rfl
      exact hfrees.freed hz
    calc w'.blocks.encard + 1
        ≤ (w.blocks \ {x}).encard + 1 := by gcongr
      _ = w.blocks.encard := Set.encard_sdiff_singleton_add_one hx.live.2
  | realloc t a size =>
    obtain ⟨⟨hruns, hgiven, hsize⟩, rfl⟩ := Option.ite_some_none_eq_some.mp hstart
    obtain ⟨x, hx⟩ := h.given.inBlock a (Option.isSome_iff_ne_none.mp hgiven)
    simp only [ProcOp.prog, realloc, Prog.bind_eq, Prog.pure_eq]
    apply usableSize_ends h.sound hx
    split
    · exact Ends.ret (le_refl w.blocks.encard)
    · exact move_counts hx ((ThreadHeap.alloc_ends h.sound ⟨hruns, Or.inl rfl⟩ hsize
        (by simp)).mono fun _ _ => Exists.imp fun _ => ThreadHeap.Allocs.hands)
        ThreadHeap.alloc_addsOne
  | reallocAligned t a size align =>
    obtain ⟨⟨hruns, hgiven, hsize, halign, -⟩, rfl⟩ := Option.ite_some_none_eq_some.mp hstart
    obtain ⟨x, hx⟩ := h.given.inBlock a (Option.isSome_iff_ne_none.mp hgiven)
    simp only [ProcOp.prog, reallocAligned, Prog.bind_eq, Prog.pure_eq]
    apply usableSize_ends h.sound hx
    exact move_counts hx ((ThreadHeap.allocAligned_ends h.sound ⟨hruns, Or.inl rfl⟩ hsize
      halign trivial).mono fun _ _ hh => hh.1) ThreadHeap.allocAligned_addsOne
  | collect t hp force =>
    obtain ⟨-, rfl⟩ := Option.ite_some_none_eq_some.mp hstart
    refine none_added rfl (currentTheap_addsNone.bind fun r => ?_)
    cases r with
    | none => trivial
    | some th => exact ThreadHeap.collect_addsNone
  | collectRetired t hp force =>
    obtain ⟨-, rfl⟩ := Option.ite_some_none_eq_some.mp hstart
    exact none_added rfl ThreadHeap.collectRetired_addsNone
  | reclaim t hp b =>
    obtain ⟨-, rfl⟩ := Option.ite_some_none_eq_some.mp hstart
    exact none_added rfl ThreadHeap.tryReclaim_addsNone
  | newHeap =>
    cases hstart
    exact none_added rfl newHeap_addsNone
  | deleteHeap t hp =>
    obtain ⟨-, rfl⟩ := Option.ite_some_none_eq_some.mp hstart
    exact none_added rfl deleteHeap_addsNone
  | destroyHeap t hp => exact ho.elim
  | exit t registryFirst =>
    obtain ⟨-, rfl⟩ := Option.ite_some_none_eq_some.mp hstart
    exact none_added rfl exitThread_addsNone
  | pass msecs =>
    cases hstart
    exact none_added rfl trivial

/-- The names of the store keep up with the live blocks. -/
theorem ProcOp.Counts.le_size {o : ProcOp} {r : o.Res} {n n' : ℕ∞} (h : o.Counts r n n')
    (ho : o.KeepsBlocks) (hspec : o.Spec r s s') (hn : n ≤ s.size) : n' ≤ s'.size := by
  have served : ∀ {size} {r : Option Ptr}, ProcOp.Serves size s s' r →
      n' ≤ n ∨ n' ≤ n + 1 ∧ r ≠ none → n' ≤ s'.size := by
    intro size r hs hn'
    cases r with
    | none =>
      have heq : s' = s := hs
      subst heq
      exact (hn'.resolve_right fun hc => hc.2 rfl).trans hn
    | some a =>
      obtain ⟨ha, A, -, hfits, rfl⟩ := hs
      rw [BlockStore.size_give ha]
      obtain hle | ⟨hle, -⟩ := hn'
      · exact hle.trans (hn.trans le_self_add)
      · exact hle.trans (by gcongr)
  have resized : ∀ {a size} {r : Option Ptr}, ProcOp.Resizes a size s s' r → n' ≤ n →
      n' ≤ s'.size := by
    intro a size r hs hn'
    refine hn'.trans (hn.trans ?_)
    cases r with
    | none =>
      have heq : s' = s := hs
      rw [heq]
    | some np =>
      have hs : if np = a then _ else _ := hs
      split at hs
      · rw [hs.1]
      · next hne =>
        obtain ⟨hnp, A, -, hfits, rfl⟩ := hs
        have hnone : (s.without {a}).block np = none := by
          rwa [BlockStore.without_of_notMem (show np ∉ ({a} : Set Ptr) from hne)]
        rw [BlockStore.size_give hnone]
        exact s.size_le_without a
  have same : s' = s → n' ≤ n → n' ≤ s'.size := by
    rintro rfl hn'
    exact hn'.trans hn
  cases o with
  | alloc t hp size => exact served hspec h
  | allocZeroed t hp size => exact served hspec h
  | allocAligned t hp size align => exact served hspec h
  | free t a =>
    have heq : s' = s.without {a} := hspec
    subst heq
    have hlt : n' + 1 ≤ n := h
    have hle := (hlt.trans hn).trans (s.size_le_without a)
    exact (ENat.add_le_add_iff_right ENat.one_ne_top).mp hle
  | realloc t a size => exact resized hspec h
  | reallocAligned t a size align => exact resized hspec h
  | destroyHeap t hp => exact ho.elim
  | collect t hp force => exact same hspec h
  | collectRetired t hp force => exact same hspec h
  | reclaim t hp b => exact same hspec h
  | newHeap => exact same hspec h
  | deleteHeap t hp => exact same hspec h
  | exit t registryFirst => exact same hspec h
  | pass msecs => exact same hspec h

/-! ## Runs -/

/-- The moves that do not start `Heap::destroy`. -/
abbrev DestroysNone : Config ProcAct Unit ProcOp ProcOp.Res Process → Move Unit ProcOp → Prop :=
  System.Starts fun _ o => o.KeepsBlocks

theorem Idle.store_block (h : Idle w q) : h.store.block a ≠ none ↔ w.given a ≠ none := by
  show w.block a ≠ none ↔ w.given a ≠ none
  unfold Process.block
  rw [Ne, Option.map_eq_none_iff]

/-- There are no more live blocks than pointers that have been handed out. -/
theorem reachable_counts (h : processSystem.Reachable Process.InitEmpty DestroysNone c)
    (hc : c.Quiescent) :
    ∃ q, Idle c.mem q ∧ c.mem.blocks.encard ≤ {a | c.mem.given a ≠ none}.encard := by
  have hrun : Serial processSystem (processMachine true) True
      (fun w => ∃ q, Idle w q ∧ ∀ s, w.Stored s → w.blocks.encard ≤ s.size)
      (fun o _ r w' => ∃ q', Idle (w'.finish o r) q' ∧
        ∀ s, (w'.finish o r).Stored s → w'.blocks.encard ≤ s.size) c := by
    apply System.Reachable.serial_starts (fun _ _ _ _ _ _ _ _ _ h => h) _ _ _ h
    · intro w hw
      refine ⟨_, hw.toInit.idle, fun s _ => ?_⟩
      have hempty : w.blocks = ∅ := by
        ext x
        simp [Process.blocks, hw.live]
      rw [hempty, Set.encard_empty]
      exact zero_le
    · rintro c o w₁ hok ⟨q, hidle, hle⟩ hstart
      have ho : o.KeepsBlocks := hok () o rfl
      have hstored : c.mem.Stored hidle.store := rfl
      apply (((hidle.op_ends hstart).and (hidle.op_spec hstart hstored)).and
        (hidle.op_counts hstart ho)).mono
      rintro r w' ⟨⟨⟨q', hidle'⟩, hspec⟩, hcounts⟩
      exact ⟨q', hidle', fun s hs => hcounts.le_size ho (hspec s hs) (hle _ hstored)⟩
    · rintro o w w₁ r w' - - ⟨q', hidle', hle⟩
      refine ⟨q', hidle', fun s hs => ?_⟩
      obtain ⟨g, hg⟩ := w'.finish_eq o r
      have hblocks : (w'.finish o r).blocks = w'.blocks := by
        rw [hg]
        rfl
      show (w'.finish o r).blocks.encard ≤ s.size
      rw [hblocks]
      exact hle s hs
  obtain ⟨q, hidle, hle⟩ := hrun.idle (hc ())
  refine ⟨q, hidle, (hle hidle.store rfl).trans (le_of_eq ?_)⟩
  unfold BlockStore.size
  congr 1
  ext a
  exact hidle.store_block

theorem Process.live_finite (w : Process) : {x | w.Live x}.Finite := by
  refine (w.pages.biUnion fun p => (w.page p).live.image (Prod.mk p)).finite_toSet.subset ?_
  rintro ⟨p, b⟩ hx
  simp only [Finset.coe_biUnion, Set.mem_iUnion, Finset.mem_coe, Finset.mem_image]
  exact ⟨p, hx.1, b, hx.2, rfl⟩

/-- When there are no more live blocks than pointers, every block has its pointer. -/
theorem Idle.blocks_eq (h : Idle w q) (hle : w.blocks.encard ≤ {a | w.given a ≠ none}.encard)
    (hx : x ∈ w.blocks) : ∃ a, w.given a ≠ none ∧ w.InBlock a x := by
  have hblock : ∀ a, ∃ x, w.given a ≠ none → w.InBlock a x := by
    intro a
    by_cases ha : w.given a = none
    · exact ⟨(.slice 0 0, 0), fun hc => (hc ha).elim⟩
    · exact (h.given.inBlock a ha).imp fun _ hx _ => hx
  choose f hf using hblock
  have hinj : Set.InjOn f {a | w.given a ≠ none} := by
    intro a ha b hb heq
    have hb' := hf b hb
    rw [← heq] at hb'
    exact h.given.apart b a (f a) hb ha hb' (hf a ha)
  have hlive : f '' {a | w.given a ≠ none} ⊆ {x | w.Live x} := by
    rintro _ ⟨a, ha, rfl⟩
    exact (hf a ha).live
  have hall : f '' {a | w.given a ≠ none} = w.blocks := by
    apply (w.live_finite.subset hlive).eq_of_subset_of_encard_le
    · exact fun x hx => (hlive hx).2
    · rwa [hinj.encard_image]
  rw [← hall] at hx
  obtain ⟨a, ha, rfl⟩ := hx
  exact ⟨a, ha, hf a ha⟩

/-- **No block is lost.** In every run that destroys no heap, whenever no operation is running, each
live block is in a page that is in use, and is the block of exactly one pointer that has been handed
out and not given back. -/
theorem no_leak (h : processSystem.Reachable Process.InitEmpty DestroysNone c) (hc : c.Quiescent)
    (hx : x ∈ c.mem.blocks) :
    x.1 ∈ c.mem.pages ∧ ∃! a, c.mem.given a ≠ none ∧ c.mem.InBlock a x := by
  obtain ⟨q, hidle, hle⟩ := reachable_counts h hc
  obtain ⟨a, ha, hin⟩ := hidle.blocks_eq hle hx
  refine ⟨hin.live.1, a, ⟨ha, hin⟩, ?_⟩
  rintro b ⟨hb, hinb⟩
  exact hidle.given.apart a b x ha hb hin hinb

theorem Process.blank_initEmpty : (Process.blank true).InitEmpty where
  toInit := Process.blank_init true
  live _ := rfl

/-- The block of the first pointer of a process. -/
theorem no_leak_first : ∃ w x, x ∈ Process.blocks w ∧ x.1 ∈ w.pages ∧
    ∃! a, w.given a ≠ none ∧ w.InBlock a x := by
  have hcalls : (processSystem.runCalls 4 1000 [((), .alloc 0 0 600000)] (.blank true)).any
      (fun w => (w.given ⟨0, 0⟩).isSome) = true := by
    decide +kernel
  obtain ⟨w, hw, htest⟩ := System.exists_runCalls hcalls
  have hreach : processSystem.Reachable Process.InitEmpty DestroysNone ⟨w, fun _ => none⟩ :=
    System.Reachable.runCalls_starts (by simp [ProcOp.KeepsBlocks])
      (.init Process.blank_initEmpty) hw
  obtain ⟨q, hidle, -⟩ := reachable_counts hreach fun _ => rfl
  obtain ⟨x, hx⟩ := hidle.given.inBlock _ (Option.isSome_iff_ne_none.mp htest)
  exact ⟨w, x, hx.live.2, no_leak hreach (fun _ => rfl) hx.live.2⟩

/-- **Everything is returned.** In every run that destroys no heap, when all pointers have been given
back: no block is live; every page that is left is in the queue of a theap in use; a forced collect of
such a theap empties its queues and frees the slices of their pages; and if the threads whose theaps
the pages belong to have exited, there is no page, and every slice of every arena is free. -/
theorem all_returned (h : processSystem.Reachable Process.InitEmpty DestroysNone c)
    (hc : c.Quiescent) (hnone : ∀ a, c.mem.given a = none) :
    (∀ p, (c.mem.page p).live = ∅) ∧
    (∀ p ∈ c.mem.pages, c.mem.theap p ∈ c.mem.InUse ∧ ∃ b, p ∈ c.mem.queue (c.mem.theap p) b) ∧
    (∀ th ∈ c.mem.InUse, ProcEnds true False (ThreadHeap.collect th true) c.mem fun _ w' =>
      (∀ b, w'.queue th b = []) ∧
        ∀ b, ∀ p ∈ c.mem.queue th b, ∀ s ∈ (c.mem.desc p).slices, w'.FreeSlice s) ∧
    ((∀ p ∈ c.mem.pages, (c.mem.theap p).thread ∈ c.mem.exited) → c.mem.pages = ∅ ∧
      ∀ i a, c.mem.arenas i = some a → ∀ j, j ∈ a.freeBits (c.mem.arenaMem i) ↔ j < a.sliceCount) := by
  obtain ⟨q, hidle, hle⟩ := reachable_counts h hc
  have hqueue := hidle.sound.queue_eq
  have hlive : ∀ p, (c.mem.page p).live = ∅ := by
    intro p
    rw [Finset.eq_empty_iff_forall_notMem]
    intro b hb
    obtain ⟨a, ha, -⟩ := hidle.blocks_eq hle (x := (p, b)) hb
    exact ha (hnone a)
  have hqueued : ∀ p ∈ c.mem.pages, p ∈ q (c.mem.theap p) (c.mem.desc p).bin := by
    intro p hp
    apply hidle.sound.owned p hp (by simp)
    -- an abandoned page has a live block
    by_contra hno
    obtain ⟨⟨⟨b, hb⟩, -⟩, -⟩ := hidle.sound.abandoned p hp (by simp) hno
    rw [hlive] at hb
    cases hb
  have hinUse : ∀ p ∈ c.mem.pages, c.mem.theap p ∈ c.mem.InUse := fun p hp =>
    hidle.listed _ _ (List.ne_nil_of_mem (hqueued p hp))
  refine ⟨hlive, fun p hp => ⟨hinUse p hp, _, by rw [hqueue]; exact hqueued p hp⟩, ?_, ?_⟩
  · intro th hth
    apply (ThreadHeap.collect_ends hidle.sound).mono
    rintro _ w' ⟨q', h', hshrinks, hforce⟩
    have hnil : ∀ b, q' th b = [] := by
      intro b
      rw [List.eq_nil_iff_forall_not_mem]
      intro p hp
      have hne := (hforce rfl).1 b p hp
      rw [hlive] at hne
      exact Finset.not_nonempty_empty hne
    refine ⟨fun b => by rw [h'.queue_eq, hnil], fun b p hp s hs => ?_⟩
    rw [hqueue] at hp
    have hsteps : Steps Set.univ {th} c.mem q w' q' := hshrinks.steps rfl
    exact hidle.sound.freeSlice h' (hidle.sound.queued _ _ p hp).1
      (hshrinks.removed b p hp (by rw [hnil]; exact List.not_mem_nil)) hshrinks.pages hshrinks.desc
      hsteps.arenas hs
  · intro hexited
    have hpages : c.mem.pages = ∅ := by
      rw [Finset.eq_empty_iff_forall_notMem]
      exact fun p hp => (hinUse p hp).1 (hexited p hp)
    refine ⟨hpages, fun i a ha j => ?_⟩
    rw [hidle.sound.free_iff i a j ha]
    refine ⟨fun hj => hj.1, fun hj => ⟨hj, ?_, Set.notMem_empty _⟩⟩
    rw [Option.eq_none_iff_forall_ne_some]
    intro p hp
    have hmem := ((hidle.sound.mapped i j p).mp hp).1
    rw [hpages] at hmem
    cases hmem

/-- A whole call, and what it does to the store. -/
theorem Idle.call {o : ProcOp} {r : o.Res} {choice n : ℕ} (h : Idle w q)
    (hstart : w.start o = some w₁)
    (hr : (processMachine true).runAlone () choice n o.prog w₁ = some (r, w')) :
    ∃ q', ∃ h' : Idle (w'.finish o r) q', o.Spec r h.store h'.store := by
  have hstored : w.Stored h.store := rfl
  obtain ⟨⟨q', h'⟩, hspec⟩ :=
    ((h.op_ends hstart).and (h.op_spec hstart hstored)).result (.of_runAlone hr)
  exact ⟨q', h', hspec h'.store rfl⟩

/-- The first pointer of a process is freed. -/
theorem all_returned_first : ∃ w : Process, w.pagesCreated = 1 ∧ (∀ a, w.given a = none) ∧
    ∀ p, (w.page p).live = ∅ := by
  have hcalls : (processSystem.runCalls 4 1000 [((), .alloc 0 0 600000), ((), .free 0 ⟨0, 0⟩)]
      (.blank true)).any (fun w => w.pagesCreated = 1) = true := by
    decide +kernel
  obtain ⟨w, hw, htest⟩ := System.exists_runCalls hcalls
  have hreach : processSystem.Reachable Process.InitEmpty DestroysNone ⟨w, fun _ => none⟩ :=
    System.Reachable.runCalls_starts (by simp [ProcOp.KeepsBlocks])
      (.init Process.blank_initEmpty) hw
  have hnone : ∀ a, w.given a = none := by
    obtain ⟨w₁, hs₁, hw⟩ := Option.bind_eq_some_iff.mp hw
    obtain ⟨⟨r, w₂⟩, hr, hw⟩ := Option.bind_eq_some_iff.mp hw
    obtain ⟨w₃, hs₃, hw⟩ := Option.bind_eq_some_iff.mp hw
    obtain ⟨⟨r', w₄⟩, hr', hw⟩ := Option.bind_eq_some_iff.mp hw
    cases hw
    have h₀ := (Process.blank_init true).idle
    obtain ⟨q₁, h₁, hserves⟩ := h₀.call (o := .alloc 0 0 600000) (r := r) hs₁ hr
    obtain ⟨q₂, h₂, hfreed⟩ := h₁.call (o := .free 0 ⟨0, 0⟩) (r := r') hs₃ hr'
    have hblock : ∀ b, h₁.store.block b ≠ none → r = some b := by
      intro b hb
      cases r with
      | none =>
        have heq : h₁.store = h₀.store := hserves
        rw [heq] at hb
        exact (hb rfl).elim
      | some b' =>
        obtain ⟨-, A, -, hfits, heq⟩ := hserves
        by_contra hne
        have hne : b ≠ b' := fun hc => hne (congrArg some hc.symm)
        rw [heq, BlockStore.give_of_ne hne] at hb
        exact hb rfl
    have hfirst : r = some ⟨0, 0⟩ := by
      have hstart := Option.ite_some_none_eq_some.mp hs₃
      exact hblock _ (h₁.store_block.mpr (Option.isSome_iff_ne_none.mp hstart.1.2))
    intro a
    by_contra ha
    have hfreed : h₂.store = h₁.store.without {⟨0, 0⟩} := hfreed
    have hblock' := h₂.store_block.mpr ha
    rw [hfreed] at hblock'
    by_cases hzero : a = ⟨0, 0⟩
    · exact hblock' (BlockStore.without_of_mem hzero)
    · have hnot : a ∉ ({⟨0, 0⟩} : Set Ptr) := hzero
      rw [BlockStore.without_of_notMem hnot] at hblock'
      cases hfirst.symm.trans (hblock a hblock')
      exact hzero rfl
  exact ⟨w, of_decide_eq_true htest, hnone, (all_returned hreach (fun _ => rfl) hnone).1⟩

end MimallocRs
