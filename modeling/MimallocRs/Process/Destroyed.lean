import MimallocRs.Process.Blocks
import MimallocRs.Process.Released
import MimallocRs.Foundations.Interleave.Progress

/-!
# What goes with a heap

`Heap::destroy` takes the pages in the queues of one theap, that of the calling thread for the heap,
and nothing else: those pages are released whatever lives in them, and every block of another page
stays where it is (`heap_destroyed`). The queues of the theap also hold the pages that it has
reclaimed, with blocks from other heaps, and those blocks go as well.
-/

namespace MimallocRs

open Interleave Prog

variable {refuses : Bool} {panics : Prop} {w w₁ w' : Process} {q q' : Queues} {D : Set TheapPtr}
  {th : TheapPtr} {t hp : ℕ} {a : Ptr} {x : PagePtr × Blk} {p : PagePtr}

/-- The pages of a theap have been released, and nothing else has happened to pages and blocks. -/
structure Process.Destroyed (th : TheapPtr) (w w' : Process) : Prop where
  pages : ∀ p, p ∈ w'.pages ↔ p ∈ w.pages ∧ ∀ b, p ∉ w.queue th b
  /-- A pointer into another page is one into the same block. -/
  kept : ∀ a x, w.InBlock a x → (∀ b, x.1 ∉ w.queue th b) →
    w'.InBlock a x ∧ w'.lookup a = some x.1 ∧ w'.usable a = w.usable a
  released : ∀ b, ∀ p ∈ w.queue th b, ∀ s ∈ (w.desc p).slices, w'.FreeSlice s
  emptied : ∀ b, w'.queue th b = []
  others : ∀ th', th' ≠ th → ∀ b, w'.queue th' b = w.queue th' b
  given : w'.given = w.given

/-- The blocks of the pages that are not in the queues of a theap. -/
def Queues.elsewhere (q : Queues) (th : TheapPtr) : Set (PagePtr × Blk) := {x | ∀ b, x.1 ∉ q th b}

theorem KeepsPage.usable_eq {S : Set (PagePtr × Blk)} {D' : Set TheapPtr} {H : Option PagePtr}
    {T : Set (ℕ × ℕ)} (hk : KeepsPage S w w') (h : Sound w q D H T)
    (h' : Sound w' q' D' none ∅) (hx : w.InBlock a x) (hS : x ∈ S) : w'.usable a = w.usable a := by
  rw [h.usable_eq hx, h'.usable_eq (hx.keeps hS hk)]
  unfold Process.Rest
  rw [hk.desc x hS hx.live, hk.blockSize x hS hx.live]

/-- The theap's pages have been released one by one. -/
theorem Process.Destroyed.of_gone (h : Sound w q D none ∅) (h' : Sound w' q' D none ∅)
    (hnil : ∀ b, q' th b = []) (hsteps : Steps (q.elsewhere th) {th} w q w' q')
    (hgone : ThreadHeap.Gone th w q w' q') : w.Destroyed th w' := by
  have hqueue := h.queue_eq
  have hqueue' := h'.queue_eq
  have hothers : ∀ th', th' ≠ th → ∀ b, q' th' b = q th' b := fun th' hne b => by
    rw [hsteps.others th' hne]
  refine ⟨fun p => ⟨fun hp => ⟨hgone.pages hp, fun b hb => ?_⟩, fun ⟨hp, hno⟩ => ?_⟩,
    fun a x hx hno => ?_, fun b p hp s hs => ?_, fun b => ?_, fun th' hne b => ?_, hsteps.given⟩
  · rw [hqueue] at hb
    exact hgone.gone b (hnil b) p hb hp
  · by_cases ho : (w.page p).Owned
    · -- the page is in a queue of another theap
      have hq := h.owned p hp (by simp) ho
      have hne : w.theap p ≠ th := by
        intro heq
        rw [heq, ← hqueue] at hq
        exact hno _ hq
      rw [← hothers _ hne] at hq
      exact (h'.queued _ _ p hq).1
    · obtain ⟨⟨⟨blk, hblk⟩, -⟩, -⟩ := h.abandoned p hp (by simp) ho
      have helse : (p, blk) ∈ q.elsewhere th := fun b hb => hno b (by rwa [hqueue])
      exact (hsteps.live _ helse ⟨hp, hblk⟩).1
  · have helse : x ∈ q.elsewhere th := fun b hb => hno b (by rwa [hqueue])
    have hx' := hx.keeps helse hsteps.toKeepsPage
    exact ⟨hx', h'.lookup_eq hx', hsteps.toKeepsPage.usable_eq h h' hx helse⟩
  · rw [hqueue] at hp
    exact h.freeSlice h' (h.queued _ _ p hp).1 (hgone.gone b (hnil b) p hp) hgone.pages hgone.desc
      hsteps.arenas hs
  · rw [hqueue', hnil]
  · rw [hqueue, hqueue', hothers th' hne]

/-- A theap that is not in use has no pages. -/
theorem Idle.queue_nil (h : Idle w q) (hno : th ∉ w.InUse) (b : ℕ) : q th b = [] := by
  by_contra hne
  exact hno (h.listed th b hne)

/-- **`Heap::destroy`** releases the pages of the thread's theap for the heap, and no others. -/
theorem destroyHeap_destroyed (h : Idle w q) (hmem : hp ∈ w.heaps) :
    ProcEnds refuses panics (destroyHeap t hp) { w with heaps := w.heaps.erase hp }
      fun _ w' => w.Destroyed ⟨t, hp⟩ w' := by
  have hpos : hp ≠ 0 := by
    rintro rfl
    exact h.heaps.heaps_pos hmem
  simp only [destroyHeap, withTakenTheap, fetch, store, Prog.bind_eq, Prog.pure_eq,
    Prog.perform_bind]
  apply ProcEnds.fetch
  split
  · next htheap =>
    apply ProcEnds.store
    generalize hw₂ : ({ w with
      heaps := w.heaps.erase hp
      theaps := Function.update w.theaps t ((w.theaps t).erase hp) } : Process) = w₂
    have hinUse : ∀ th, th ∈ w₂.InUse ↔ th ∈ w.InUse ∧ th ≠ ⟨t, hp⟩ := by
      rw [← hw₂]
      exact fun th => h.inUse_take hpos
    have h₂ : Sound w₂ q w₂.InUse none ∅ := by
      rw [← hw₂] at hinUse ⊢
      exact { h.sound.subset fun th hth => ((hinUse th).mp hth).1 with }
    apply (ThreadHeap.teardownBulk_ends h₂ fun hc => ((hinUse _).mp hc).2 rfl).mono
    rintro _ w' ⟨q', h', hnil, hsteps, hgone⟩
    have hd : w₂.Destroyed ⟨t, hp⟩ w' := .of_gone h₂ h' hnil
      (hsteps rfl fun b p hp _ hc => hc b hp) hgone
    rw [← hw₂] at hd
    exact { hd with kept := fun a x hx hno => hd.kept a x { hx with } hno }
  · next hno =>
    apply Ends.ret
    have hnil : ∀ b, w.queue ⟨t, hp⟩ b = [] := by
      intro b
      rw [h.sound.queue_eq]
      apply h.queue_nil
      rintro ⟨-, hzero | hin⟩
      · exact hpos hzero
      · exact hno hin
    refine ⟨fun p => ⟨fun hp => ⟨hp, fun b => ?_⟩, fun hp => hp.1⟩, fun a x hx _ =>
      ⟨{ hx with }, h.sound.lookup_eq hx, rfl⟩, fun b p hp => ?_, hnil, fun _ _ _ => rfl, rfl⟩
    · rw [hnil]
      exact List.not_mem_nil
    · rw [hnil] at hp
      cases hp

/-- **What goes with a heap.** From every state that a run reaches, `Heap::destroy` comes to an end;
the pages that the calling thread's theap for the heap has are released, with all that lives in them;
and every other page stays, with its blocks, and no pointer to one of them changes its block. -/
theorem heap_destroyed {c : Config ProcAct Unit ProcOp ProcOp.Res Process}
    (h : processSystem.Reachable Process.Init System.anyMove c) (hc : c.Quiescent)
    (hs : c.mem.start (.destroyHeap t hp) = some w) :
    ProcEnds true False (destroyHeap t hp) w fun _ w' => c.mem.Destroyed ⟨t, hp⟩ w' := by
  obtain ⟨q, hidle⟩ := reachable_idle h hc
  obtain ⟨⟨-, hmem⟩, rfl⟩ := Option.ite_some_none_eq_some.mp hs
  exact destroyHeap_destroyed hidle hmem

/-- The first heap of a process is destroyed while a huge block lives in it. -/
theorem heap_destroyed_first : ∃ w w' : Process,
    w.queue ⟨0, 1⟩ miBinHuge ≠ [] ∧ w.Destroyed ⟨0, 1⟩ w' := by
  have hcalls : (processSystem.runCalls 4 1000 [((), .newHeap), ((), .alloc 0 1 600000)]
      (.blank true)).any (fun w => !(w.queue ⟨0, 1⟩ miBinHuge).isEmpty &&
        (w.start (.destroyHeap 0 1)).isSome) = true := by
    decide +kernel
  obtain ⟨w, hw, htest⟩ := System.exists_runCalls hcalls
  simp only [Bool.and_eq_true, Bool.not_eq_true', List.isEmpty_eq_false_iff,
    Option.isSome_iff_exists] at htest
  obtain ⟨hne, w₁, hs⟩ := htest
  have hreach : processSystem.Reachable Process.Init System.anyMove ⟨w, fun _ => none⟩ :=
    System.Reachable.runCalls (.init (Process.blank_init true)) hw
  obtain ⟨-, w', hd⟩ := (heap_destroyed hreach (fun _ => rfl) hs).exists_result
  exact ⟨w, w', hne, hd⟩

end MimallocRs
