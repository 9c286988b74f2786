import MimallocRs.Heap.Runs
import MimallocRs.Foundations.Interleave.Serial

/-!
# The lifecycle of first-class heaps

For any number of threads and any order of their steps: no block is used that is not allocated as
what it is used; a heap is freed once, after it has been given up and its theaps have been torn down,
and is freed by then when no operation is running; a theap is torn down once, and by the exit of its
thread at the latest; and an allocation is served by the thread's only theap of the heap whose handle
it uses, whatever addresses have been handed out again.
-/

namespace MimallocRs

open Interleave

variable {m : HeapMem} {γ : ℕ → HeapGhost} {c : Config HeapAct ℕ HeapOp HeapOp.Res HeapMem}

/-- Two theaps of one thread for one heap are the same. -/
theorem HeapInv.theap_unique (h : HeapInv m γ) {tp tp' : Addr} {r r' : TheapRec}
    (hr : m.theap tp = some r) (hr' : m.theap tp' = some r') (htid : r.tid = r'.tid)
    (hseq : r.seq = r'.seq) : tp = tp' := by
  obtain ⟨q, hq, hqs⟩ := h.theaps.heap_of tp r hr
  obtain ⟨q', hq', hqs'⟩ := h.theaps.heap_of tp' r' hr'
  have hheap : r.heap = r'.heap := h.heaps.inj _ _ q q' hq hq' (by rw [hqs, hqs', hseq])
  have hv := h.registers.view r.tid
  have hnot : ∀ {x y : Addr × Addr}, x ∈ (γ r.tid).regs → (γ r.tid).mine = some y → x.2 ≠ y.2 := by
    intro x y hx hy heq
    exact (hv.mine y hy).2.1 (List.mem_map.mpr ⟨x, hx, heq⟩)
  have hown' := h.registers.owner tp' r' hr'
  rw [← htid] at hown'
  rcases h.registers.owner tp r hr with hown | hown <;> rcases hown' with hown' | hown'
  · have heq := List.inj_on_of_nodup_map hv.nodup hown hown' hheap
    exact congrArg Prod.fst heq
  · exact absurd hheap (hnot hown hown')
  · exact absurd hheap.symm (hnot hown' hown)
  · exact congrArg Prod.fst (Option.some.inj (hown.symm.trans hown'))

/-- When no operation is running, a heap that has been given up and has no theap is freed. -/
theorem HeapInv.freed_of_idle (h : HeapInv m γ) (hidle : ∀ t, HeapIdle (γ t)) {seq : ℕ}
    (hpos : 0 < seq) (hlt : seq < m.nextSeq) (hdeleted : seq ∈ m.deleted)
    (htorn : ∀ i < m.serials, (m.maker i).2 = seq → i ∈ m.torn) : seq ∈ m.freed := by
  rcases h.heaps.all seq hpos hlt with hfreed | ⟨hp, r, hr, rfl⟩
  · exact hfreed
  · have hnoref : ∀ x, x ∉ Refs m γ hp := by
      intro x hx
      cases x with
      | handle => exact h.heaps.not_deleted hp r hr (Or.inl hx) hdeleted
      | of t x =>
        cases x with
        | theap tp =>
          rcases hx with hx | ⟨hx, -⟩
          · obtain ⟨q, hq, -, rfl⟩ := (h.registers.view t).owns (Or.inl hx)
            obtain ⟨r', hr', hseq⟩ := h.theaps.heap_of tp q hq
            cases hr.symm.trans hr'
            have hmaker : (m.maker q.serial).2 = r.heapSeq := by
              rw [h.theaps.maker tp q hq]
              exact hseq.symm
            exact h.theaps.not_torn tp q hq (htorn _ (h.theaps.lt tp q hq) hmaker)
          · cases (hidle t).mine.symm.trans hx
        | torn => cases (hidle t).owes.symm.trans hx
        | fresh => cases (hidle t).fresh.symm.trans hx
        | held => cases (hidle t).holds.symm.trans hx
    have hzero : r.refcount = 0 := by
      have hcount := (h.counted hp).count r hr
      rw [Set.eq_empty_of_forall_notMem hnoref] at hcount
      rw [← hcount.2, Set.ncard_empty]
    obtain ⟨t, ht⟩ := (h.counted hp).zero r hr hzero
    cases (hidle t).frees.symm.trans ht

/-- What holds of heaps and theaps at any time. -/
structure HeapLifecycle (c : Config HeapAct ℕ HeapOp HeapOp.Res HeapMem) : Prop where
  /-- No block is used that is not allocated as what it is used. -/
  safe : c.mem.fault = false
  /-- A handle that may be used is that of a heap which has not been given up. -/
  handle : ∀ hp ∈ c.mem.handles, ∃ r, c.mem.heap hp = some r ∧ r.heapSeq ∉ c.mem.deleted
  freed_once : c.mem.freed.Nodup
  freed_after : ∀ seq ∈ c.mem.freed, seq ∈ c.mem.deleted ∧
    ∀ i < c.mem.serials, (c.mem.maker i).2 = seq → i ∈ c.mem.torn
  /-- A heap that is given up is freed once its theaps have been torn down. -/
  freed : (∀ t, c.thread t = none) → ∀ seq, 0 < seq → seq < c.mem.nextSeq → seq ∈ c.mem.deleted →
    (∀ i < c.mem.serials, (c.mem.maker i).2 = seq → i ∈ c.mem.torn) → seq ∈ c.mem.freed
  torn_once : c.mem.torn.Nodup
  /-- A theap is there until it is torn down. -/
  theaps : ∀ i < c.mem.serials, i ∈ c.mem.torn ∨ ∃ tp r, c.mem.theap tp = some r ∧ r.serial = i ∧
    (r.tid, r.seq) = c.mem.maker i
  /-- The theaps of a thread that has exited have been torn down. -/
  torn : ∀ t, c.mem.exited t = true → c.thread t = none → ∀ i < c.mem.serials,
    (c.mem.maker i).1 = t → i ∈ c.mem.torn
  one_theap : ∀ tp tp' r r', c.mem.theap tp = some r → c.mem.theap tp' = some r' →
    r.tid = r'.tid → r.seq = r'.seq → tp = tp'
  /-- An allocation is served by the thread's theap of the heap. -/
  serves : ∀ t hp tp, c.thread t = some ⟨.alloc hp, .ret (some tp)⟩ →
    ∃ r q, c.mem.theap tp = some r ∧ c.mem.heap hp = some q ∧ r.tid = t ∧ r.heap = hp ∧
      r.seq = q.heapSeq

/-- **First-class heaps**, over every run of the operations on them. -/
theorem heap_lifecycle (h : HeapReachable c) : HeapLifecycle c := by
  obtain ⟨γ, hi, hth⟩ := heapSystem_reachable h
  have hidle : ∀ t, c.thread t = none → HeapIdle (γ t) := by
    intro t ht
    have hrun := hth t
    rwa [ht] at hrun
  have hall : ∀ i < c.mem.serials, i ∈ c.mem.torn ∨ ∃ tp r, c.mem.theap tp = some r ∧
      r.serial = i ∧ (r.tid, r.seq) = c.mem.maker i := by
    intro i hlt
    apply (hi.theaps.all i hlt).imp_right
    rintro ⟨tp, r, hr, rfl⟩
    exact ⟨tp, r, hr, rfl, (hi.theaps.maker tp r hr).symm⟩
  constructor
  · exact hi.fault
  · intro hp hmem
    obtain ⟨r, hr⟩ := (hi.counted hp).live .handle hmem
    exact ⟨r, hr, hi.heaps.not_deleted hp r hr (Or.inl hmem)⟩
  · exact hi.heaps.freed_nodup
  · intro seq hmem
    refine ⟨hi.heaps.freed_deleted seq hmem, fun i hlt hseq => ?_⟩
    exact hi.theaps.freed i hlt (hseq ▸ hmem)
  · intro hquiet seq hpos hlt hdeleted htorn
    exact hi.freed_of_idle (fun t => hidle t (hquiet t)) hpos hlt hdeleted htorn
  · exact hi.theaps.torn_nodup
  · exact hall
  · intro t hexited ht i hlt hmaker
    rcases hall i hlt with htorn | ⟨tp, r, hr, -, hrm⟩
    · exact htorn
    · rw [← hrm] at hmaker
      obtain rfl : r.tid = t := hmaker
      have hidle := hidle _ ht
      have hnil := (hi.registers.view r.tid).exited hexited hidle.exiting
      have hown := hi.registers.owner tp r hr
      rw [hnil, hidle.mine] at hown
      simp at hown
  · exact fun tp tp' r r' hr hr' => hi.theap_unique hr hr'
  · intro t hp tp ht
    have hrun := hth t
    rw [ht] at hrun
    obtain ⟨-, -, hmem⟩ := Safe.of_ret hrun
    obtain ⟨r, hr, htid, rfl⟩ := (hi.registers.view t).owns (Or.inl (hmem tp rfl))
    obtain ⟨q, hq, hseq⟩ := hi.theaps.heap_of tp r hr
    exact ⟨r, q, hr, hq, htid, rfl, hseq.symm⟩

/-- The moves of an operation that runs alone, with the choices of its steps. -/
def heapMoves (t : ℕ) (o : HeapOp) (choices : List ℕ) : List (Move ℕ HeapOp) :=
  .start t o :: choices.map (.step t) ++ [.finish t]

/-- Two threads use a heap at address 1, which one of them deletes; when the other has exited, the
address is that of a new heap, from which thread 0 allocates. -/
def recycled : List (Move ℕ HeapOp) :=
  heapMoves 0 .newBoxed [2] ++ heapMoves 0 (.alloc 1) [0, 0, 0, 3, 0, 0, 0, 0, 0] ++
    heapMoves 1 (.alloc 1) [0, 0, 0, 4, 0, 0, 0, 0, 0] ++
    heapMoves 0 (.delete 1) (List.replicate 13 0) ++ heapMoves 1 .exit (List.replicate 11 0) ++
    heapMoves 0 .newBoxed [2] ++ (heapMoves 0 (.alloc 1) [0, 0, 0, 3, 0, 0, 0, 0, 0]).dropLast

/-- Thread 0 has allocated from the heap at address 1, and a heap has been freed. -/
def servedAgain (c : Config HeapAct ℕ HeapOp HeapOp.Res HeapMem) : Bool :=
  match c.thread 0 with
  | some ⟨.alloc hp, .ret r⟩ => hp = 1 ∧ r = some 2 ∧ c.mem.freed = [1] ∧ c.mem.torn = [1, 0]
  | _ => false

/-- The theap that serves thread 0 is not that of the heap which has been at the same address. -/
theorem heap_lifecycle_recycled : ∃ c, HeapReachable c ∧ c.mem.freed = [1] ∧ c.mem.torn = [1, 0] ∧
    ∃ r q, c.mem.theap 2 = some r ∧ c.mem.heap 1 = some q ∧ r.tid = 0 ∧ r.seq = q.heapSeq := by
  have hrun : (heapSystem.run recycled ⟨.init, fun _ => none⟩).any servedAgain = true := by
    decide +kernel
  obtain ⟨c, hc, htest⟩ := System.exists_run hrun
  have hreach : HeapReachable c := by
    apply System.reachable_of_run _ hc
    rfl
  unfold servedAgain at htest
  split at htest
  · next hp r ht =>
    obtain ⟨rfl, rfl, hfreed, htorn⟩ := of_decide_eq_true htest
    obtain ⟨r, q, hr, hq, htid, -, hseq⟩ := (heap_lifecycle hreach).serves 0 1 2 ht
    exact ⟨c, hreach, hfreed, htorn, r, q, hr, hq, htid, hseq⟩
  · cases htest

end MimallocRs
