import MimallocRs.Heap.Frame

/-!
# New heaps and theaps

The invariant after a heap or a theap has been allocated, at an address that was not in use, and
after a theap has been counted as a reference to its heap and put into its list. A thread counts a
theap only while it uses the handle of the heap, which is a reference itself.
-/

namespace MimallocRs

open Interleave

variable {m m' : HeapMem} {γ : ℕ → HeapGhost} {t u : ℕ} {g g' : HeapGhost} {a hp tp : Addr}

/-! ## New heaps -/

theorem HeapMem.vacant_of_metaZalloc {choice : ℕ} (h : m.metaZalloc choice = some a) :
    m.Vacant a := by
  cases choice with
  | zero => cases h
  | succ n =>
    simp only [HeapMem.metaZalloc] at h
    split at h
    · next hv =>
      cases h
      exact hv
    · cases h

/-- The references after a heap has been created. -/
theorem Counted.addHeap (h : Counted m γ a) (hnone : m.heap a = none) :
    Counted (m.addHeap a) (Function.update γ t { γ t with fresh := some a }) a := by
  have hnot := h.not_ref hnone
  have hfrees : ∀ u, (Function.update γ t { γ t with fresh := some a } u).frees ≠ some a := by
    intro u hu
    have hu' : (γ u).frees = some a := by
      by_cases hut : u = t
      · subst hut
        rwa [Function.update_self] at hu
      · rwa [Function.update_of_ne hut] at hu
    obtain ⟨r, hr, -⟩ := h.frees u hu'
    rw [hnone] at hr
    cases hr
  have hnew : (m.addHeap a).heap a = some ⟨m.nextSeq, none, 1⟩ := Function.update_self _ _ _
  have hrefs : ∀ z, z ∈ Refs (m.addHeap a) (Function.update γ t { γ t with fresh := some a }) a ↔
      z = .of t .fresh ∨ z ∈ Refs m γ a := by
    apply refs_insert Iff.rfl
    intro x
    cases x with
    | fresh => simp [HeapGhost.Holds]
    | theap tp => exact (or_iff_right (by simp)).symm
    | torn => exact (or_iff_right (by simp)).symm
    | held => exact (or_iff_right (by simp)).symm
  constructor
  · intro r hr
    rw [hnew] at hr
    cases hr
    exact (Counts.empty hnot).insert (hnot _) hrefs
  · exact fun _ _ => ⟨_, hnew⟩
  · intro r hr hzero
    rw [hnew] at hr
    cases hr
    cases hzero
  · exact fun u hu => absurd hu (hfrees u)
  · exact fun u _ hu => absurd hu (hfrees u)

/-- A heap is created. -/
theorem HeapInv.addHeap (h : HeapInv m γ) (hfresh : (γ t).fresh = none) (hv : m.Vacant a) :
    HeapInv (m.addHeap a) (Function.update γ t { γ t with fresh := some a }) := by
  obtain ⟨hheap, htheap⟩ := hv
  have hother : ∀ hp, hp ≠ a → (m.addHeap a).heap hp = m.heap hp := fun hp hne =>
    Function.update_of_ne hne _ _
  have hnew : (m.addHeap a).heap a = some ⟨m.nextSeq, none, 1⟩ := Function.update_self _ _ _
  -- a heap is the new one, or one of before
  have hcases : ∀ hp r, (m.addHeap a).heap hp = some r →
      (hp = a ∧ r = ⟨m.nextSeq, none, 1⟩) ∨ (hp ≠ a ∧ m.heap hp = some r) := by
    intro hp r hr
    by_cases hne : hp = a
    · subst hne
      rw [hnew] at hr
      exact Or.inl ⟨rfl, (Option.some.inj hr).symm⟩
    · rw [hother hp hne] at hr
      exact Or.inr ⟨hne, hr⟩
  have hne_of : ∀ hp r, m.heap hp = some r → hp ≠ a := by
    rintro hp r hr rfl
    rw [hheap] at hr
    cases hr
  have hnofresh : ∀ hp, hp ≠ a → ((∃ u, (Function.update γ t { γ t with fresh := some a } u).fresh =
      some hp) ↔ ∃ u, (γ u).fresh = some hp) := by
    intro hp hne
    apply exists_congr
    intro u
    by_cases hu : u = t
    · subst hu
      rw [Function.update_self, hfresh]
      simp [hne.symm]
    · rw [Function.update_of_ne hu]
  constructor
  · exact h.registers.of_same ⟨rfl, rfl, rfl, rfl, rfl, rfl, id⟩ ⟨rfl, rfl, rfl, rfl, rfl⟩
  · intro hp
    by_cases hne : hp = a
    · exact hne ▸ (h.counted a).addHeap hheap
    · apply (h.counted hp).of_step
      · rw [hother hp hne]
      · apply refs_of_step Iff.rfl
        intro x
        cases x with
        | fresh =>
          show some a = some hp ↔ (γ t).fresh = some hp
          simp [hfresh, Ne.symm hne]
        | theap tp => exact Iff.rfl
        | torn => exact Iff.rfl
        | held => exact Iff.rfl
      · exact Iff.rfl
  · have hh := h.handles
    have huses : ∀ u, (Function.update γ t { γ t with fresh := some a } u).uses = (γ u).uses :=
      same_field HeapGhost.uses rfl
    have hnot : a ∉ m.handles := fun hmem => (h.counted a).not_ref hheap .handle hmem
    have hold : ∀ u, (γ u).fresh ≠ some a := fun u hu =>
      (h.counted a).not_ref hheap (.of u .fresh) hu
    refine ⟨hh.nodup, fun u hp => ?_, hh.busy_nodup, fun u hp => ?_, fun u x => ?_,
      fun u hp hu => ?_, fun u v hp hu hv => ?_⟩
    · rw [huses]
      exact hh.busy u hp
    · rw [huses]
      exact hh.uses u hp
    · by_cases hut : u = t
      · subst hut
        rw [Function.update_self]
        exact hh.uncounted u x
      · rw [Function.update_of_ne hut]
        exact hh.uncounted u x
    · by_cases hut : u = t
      · subst hut
        rw [Function.update_self] at hu
        cases hu
        exact hnot
      · rw [Function.update_of_ne hut] at hu
        exact hh.fresh u hp hu
    · by_cases hut : u = t <;> by_cases hvt : v = t
      · rw [hut, hvt]
      · subst hut
        rw [Function.update_self] at hu
        rw [Function.update_of_ne hvt] at hv
        cases hu
        exact absurd hv (hold v)
      · subst hvt
        rw [Function.update_self] at hv
        rw [Function.update_of_ne hut] at hu
        cases hv
        exact absurd hu (hold u)
      · rw [Function.update_of_ne hut] at hu
        rw [Function.update_of_ne hvt] at hv
        exact hh.fresh_inj u v hp hu hv
  · intro hp r hr
    rcases hcases hp r hr with ⟨rfl, rfl⟩ | ⟨-, hr⟩
    · refine ⟨[], ⟨rfl, trivial, List.nodup_nil⟩, fun tp => ?_⟩
      apply iff_of_false (List.not_mem_nil)
      rintro ⟨-, r, hr, rfl⟩
      obtain ⟨x, hx⟩ := h.theap_ref hr
      exact (h.counted _).not_ref hheap x hx
    · exact h.listed hp r hr
  · have hseq : ∀ hp r, m.heap hp = some r → r.heapSeq ≠ m.nextSeq := fun hp r hr =>
      (h.heaps.lt hp r hr).ne
    constructor
    · intro hp r hr
      rcases hcases hp r hr with ⟨rfl, rfl⟩ | ⟨-, hr⟩
      · exact Nat.lt_succ_self _
      · exact Nat.lt_succ_of_lt (h.heaps.lt hp r hr)
    · intro hp hp' r r' hr hr' heq
      rcases hcases hp r hr with ⟨rfl, rfl⟩ | ⟨-, hr₀⟩ <;>
        rcases hcases hp' r' hr' with ⟨rfl, rfl⟩ | ⟨-, hr₀'⟩
      · rfl
      · exact absurd heq.symm (hseq hp' r' hr₀')
      · exact absurd heq (hseq hp r hr₀)
      · exact h.heaps.inj hp hp' r r' hr₀ hr₀' heq
    · intro hp r hr
      rcases hcases hp r hr with ⟨rfl, rfl⟩ | ⟨-, hr⟩
      · exact fun hmem => absurd (h.heaps.freed_lt _ hmem) (Nat.lt_irrefl _)
      · exact h.heaps.not_freed hp r hr
    · exact fun seq hmem => Nat.lt_succ_of_lt (h.heaps.freed_lt seq hmem)
    · exact h.heaps.freed_nodup
    · exact h.heaps.freed_deleted
    · intro seq hpos hlt
      rcases Nat.lt_succ_iff_lt_or_eq.mp hlt with hlt | rfl
      · apply (h.heaps.all seq hpos hlt).imp_right
        rintro ⟨hp, r, hr, hseq⟩
        exact ⟨hp, r, by rwa [hother hp (hne_of hp r hr)], hseq⟩
      · exact Or.inr ⟨a, _, hnew, rfl⟩
    · intro hp r hr
      rcases hcases hp r hr with ⟨rfl, rfl⟩ | ⟨hne, hr⟩
      · exact Or.inr (Or.inr ⟨t, by rw [Function.update_self]⟩)
      · rw [hnofresh hp hne]
        exact h.heaps.deleted hp r hr
    · intro hp r hr hor
      rcases hcases hp r hr with ⟨rfl, rfl⟩ | ⟨hne, hr⟩
      · exact fun hmem => absurd (h.heaps.deleted_lt _ hmem) (Nat.lt_irrefl _)
      · rw [hnofresh hp hne] at hor
        exact h.heaps.not_deleted hp r hr hor
    · exact fun seq hmem => Nat.lt_succ_of_lt (h.heaps.deleted_lt seq hmem)
  · have hth := h.theaps
    constructor
    · intro b
      by_cases hb : b = a
      · exact Or.inr (hb ▸ htheap)
      · rw [hother b hb]
        exact hth.apart b
    · intro tp r hr
      obtain ⟨q, hq, hseq⟩ := hth.heap_of tp r hr
      exact ⟨q, by rwa [hother _ (hne_of _ q hq)], hseq⟩
    · exact hth.lt
    · exact hth.inj
    · exact hth.maker
    · exact fun i hlt => Nat.lt_succ_of_lt (hth.maker_lt i hlt)
    · exact hth.not_torn
    · exact hth.torn_lt
    · exact hth.torn_nodup
    · exact hth.all
    · exact hth.freed
  · exact h.fault

/-! ## New theaps -/

/-- What the thread knows that has created a theap. -/
def HeapGhost.create (g : HeapGhost) (tp hp : Addr) : HeapGhost :=
  { g with mine := some (tp, hp), stage := .created }

/-- A theap is created, by a thread that uses the handle of its heap. -/
theorem HeapInv.addTheap (h : HeapInv m γ) (hmine : (γ t).mine = none)
    (huses : (γ t).uses = some hp) (hnot : hp ∉ (γ t).regs.map Prod.snd) (hv : m.Vacant a)
    {r : HeapRec} (hr : m.heap hp = some r) :
    HeapInv (m.addTheap t hp a r) (Function.update γ t ((γ t).create a hp)) := by
  obtain ⟨hheap, htheap⟩ := hv
  have hother : ∀ tp, tp ≠ a → (m.addTheap t hp a r).theap tp = m.theap tp := fun tp hne =>
    Function.update_of_ne hne _ _
  have hnew : (m.addTheap t hp a r).theap a = some ⟨t, hp, r.heapSeq, m.serials⟩ :=
    Function.update_self _ _ _
  have hne_of : ∀ tp r, m.theap tp = some r → tp ≠ a := by
    rintro tp r hr rfl
    rw [htheap] at hr
    cases hr
  -- a theap is the new one, or one of before
  have hcases : ∀ tp r', (m.addTheap t hp a r).theap tp = some r' →
      (tp = a ∧ r' = ⟨t, hp, r.heapSeq, m.serials⟩) ∨ (tp ≠ a ∧ m.theap tp = some r') := by
    intro tp r' hr'
    by_cases hne : tp = a
    · subst hne
      rw [hnew] at hr'
      exact Or.inl ⟨rfl, (Option.some.inj hr').symm⟩
    · rw [hother tp hne] at hr'
      exact Or.inr ⟨hne, hr'⟩
  have hv := h.registers.view t
  have hregs : ∀ x ∈ (γ t).regs, x.1 ≠ a := by
    intro x hx
    obtain ⟨-, q, hq, -⟩ := hv.regs x hx
    exact hne_of x.1 q hq
  constructor
  · apply h.registers.of_step
    · refine ⟨fun tp q hq _ => ?_, fun tp q hq hne => ?_, fun _ _ => rfl, fun _ _ => rfl⟩
      · have hne := hne_of tp q hq
        exact ⟨by rwa [hother tp hne], Function.update_of_ne hne _ _,
          Function.update_of_ne hne _ _⟩
      · rcases hcases tp q hq with ⟨rfl, rfl⟩ | ⟨-, hq⟩
        · exact absurd rfl hne
        · exact hq
    · constructor
      · apply hv.chain.update
        intro hmem
        obtain ⟨x, hx, heq⟩ := List.mem_map.mp hmem
        exact hregs x hx heq
      · exact hv.registry
      · intro x hx
        obtain ⟨hl, q, hq, hqt⟩ := hv.regs x hx
        exact ⟨(Function.update_of_ne (hregs x hx) _ _).trans hl, q,
          (hother _ (hregs x hx)).trans hq, hqt⟩
      · rintro _ ⟨⟩
        exact ⟨Function.update_self _ _ _, hnot, _, hnew, rfl, rfl⟩
      · rintro _ _ ⟨⟩
      · exact hv.nodup
      · exact hv.exited
      · exact hv.alive
    · intro tp q hq ht
      rcases hcases tp q hq with ⟨rfl, rfl⟩ | ⟨-, hq⟩
      · exact Or.inr rfl
      · have hown := h.registers.owner tp q hq
        rw [ht, hmine] at hown
        exact Or.inl (hown.resolve_right (by simp))
  · intro hp'
    apply (h.counted hp').of_step
    · rfl
    · apply refs_of_step Iff.rfl
      intro x
      cases x with
      | theap tp => simp [HeapGhost.Holds, HeapGhost.create, hmine]
      | torn => exact Iff.rfl
      | fresh => exact Iff.rfl
      | held => exact Iff.rfl
    · exact Iff.rfl
  · refine h.handles.of_step rfl rfl rfl rfl ?_
    rintro _ ⟨⟩ -
    exact huses
  · intro hp' r' hr'
    obtain ⟨l, hl, hmem⟩ := h.listed hp' r' hr'
    have hla : ∀ c ∈ l, c ≠ a := by
      intro c hc
      obtain ⟨-, q, hq, -⟩ := (hmem c).mp hc
      exact hne_of c q hq
    refine ⟨l, hl.congr (fun c hc => Function.update_of_ne (hla c hc) _ _)
      (fun c hc => Function.update_of_ne (hla c hc) _ _), fun tp => ?_⟩
    by_cases hne : tp = a
    · subst hne
      apply iff_of_false fun hc => hla tp hc rfl
      rintro ⟨hlinked, -⟩
      simp [HeapMem.addTheap] at hlinked
    · rw [hother tp hne, hmem tp]
      simp [HeapMem.addTheap, hne]
  · exact h.heaps.of_step ⟨fun _ => rfl, rfl, rfl⟩ rfl rfl rfl
  · have hth := h.theaps
    have hserial : ∀ tp q, m.theap tp = some q → q.serial ≠ m.serials := fun tp q hq =>
      (hth.lt tp q hq).ne
    have hmaker : ∀ i < m.serials, (m.addTheap t hp a r).maker i = m.maker i := fun i hi =>
      Function.update_of_ne hi.ne _ _
    have hself : (m.addTheap t hp a r).maker m.serials = (t, r.heapSeq) :=
      Function.update_self _ _ _
    constructor
    · intro b
      by_cases hb : b = a
      · exact Or.inl (hb ▸ hheap)
      · rw [hother b hb]
        exact hth.apart b
    · intro tp q hq
      rcases hcases tp q hq with ⟨rfl, rfl⟩ | ⟨-, hq⟩
      · exact ⟨r, hr, rfl⟩
      · exact hth.heap_of tp q hq
    · intro tp q hq
      rcases hcases tp q hq with ⟨rfl, rfl⟩ | ⟨-, hq⟩
      · exact Nat.lt_succ_self _
      · exact Nat.lt_succ_of_lt (hth.lt tp q hq)
    · intro tp tp' q q' hq hq' heq
      rcases hcases tp q hq with ⟨rfl, rfl⟩ | ⟨-, hq₀⟩ <;>
        rcases hcases tp' q' hq' with ⟨rfl, rfl⟩ | ⟨-, hq₀'⟩
      · rfl
      · exact absurd heq.symm (hserial tp' q' hq₀')
      · exact absurd heq (hserial tp q hq₀)
      · exact hth.inj tp tp' q q' hq₀ hq₀' heq
    · intro tp q hq
      rcases hcases tp q hq with ⟨rfl, rfl⟩ | ⟨-, hq⟩
      · exact hself
      · rw [hmaker _ (hth.lt tp q hq)]
        exact hth.maker tp q hq
    · intro i hi
      rcases Nat.lt_succ_iff_lt_or_eq.mp hi with hi | rfl
      · rw [hmaker i hi]
        exact hth.maker_lt i hi
      · rw [hself]
        exact h.heaps.lt hp r hr
    · intro tp q hq
      rcases hcases tp q hq with ⟨rfl, rfl⟩ | ⟨-, hq⟩
      · exact fun hmem => absurd (hth.torn_lt _ hmem) (Nat.lt_irrefl _)
      · exact hth.not_torn tp q hq
    · exact fun i hi => Nat.lt_succ_of_lt (hth.torn_lt i hi)
    · exact hth.torn_nodup
    · intro i hi
      rcases Nat.lt_succ_iff_lt_or_eq.mp hi with hi | rfl
      · apply (hth.all i hi).imp_right
        rintro ⟨tp, q, hq, hqi⟩
        exact ⟨tp, q, by rwa [hother tp (hne_of tp q hq)], hqi⟩
      · exact Or.inr ⟨a, _, hnew, rfl⟩
    · intro i hi hfreed
      rcases Nat.lt_succ_iff_lt_or_eq.mp hi with hi | rfl
      · rw [hmaker i hi] at hfreed
        exact hth.freed i hi hfreed
      · rw [hself] at hfreed
        exact absurd hfreed (h.heaps.not_freed hp r hr)
  · exact h.fault

/-! ## Counts -/

/-- A step that changes the count of the heap at `hp` only. -/
theorem HeapInv.setCount (h : HeapInv m γ) {r : HeapRec} (hr : m.heap hp = some r) {n : ℕ}
    (hview : SameView (γ t) g') (hholds : ∀ hp', hp' ≠ hp → ∀ x, g'.Holds hp' x ↔ (γ t).Holds hp' x)
    (hfrees : ∀ hp', hp' ≠ hp → (g'.frees = some hp' ↔ (γ t).frees = some hp'))
    (hfresh : g'.fresh = (γ t).fresh) (huses : g'.uses = (γ t).uses)
    (hmine : ∀ x, g'.mine = some x → g'.stage = .created → g'.uses = some x.2)
    (hcounted : Counted (m.setCount hp r n) (Function.update γ t g') hp) :
    HeapInv (m.setCount hp r n) (Function.update γ t g') := by
  have hother : ∀ hp', hp' ≠ hp → (m.setCount hp r n).heap hp' = m.heap hp' := fun hp' hne =>
    Function.update_of_ne hne _ _
  have hself : (m.setCount hp r n).heap hp = some { r with refcount := n } :=
    Function.update_self _ _ _
  have hs : SameHeaps m (m.setCount hp r n) := by
    refine ⟨fun hp' => ?_, rfl, rfl⟩
    by_cases hne : hp' = hp
    · rw [hne, hself, hr]
      rfl
    · rw [hother hp' hne]
  constructor
  · exact h.registers.of_same hview ⟨rfl, rfl, rfl, rfl, rfl⟩
  · intro hp'
    by_cases hne : hp' = hp
    · rwa [hne]
    · apply (h.counted hp').of_step
      · rw [hother hp' hne]
      · exact refs_of_step Iff.rfl (hholds hp' hne)
      · exact hfrees hp' hne
  · exact h.handles.of_step rfl rfl huses hfresh hmine
  · refine h.listed.of_step (fun hp' => ?_) rfl rfl rfl rfl
    by_cases hne : hp' = hp
    · rw [hne, hself, hr]
      rfl
    · rw [hother hp' hne]
  · exact h.heaps.of_step hs rfl rfl hfresh
  · exact h.theaps.of_step hs rfl rfl rfl rfl
  · exact h.fault

/-- A new theap is counted. -/
theorem HeapInv.count (h : HeapInv m γ) {r : HeapRec} (hr : m.heap hp = some r)
    (hmine : (γ t).mine = some (tp, hp)) (hstage : (γ t).stage = .created) :
    HeapInv (m.setCount hp r (r.refcount + 1))
      (Function.update γ t { γ t with stage := .counted }) := by
  have hhandle : Ref.handle ∈ Refs m γ hp :=
    h.handles.uses t hp (h.handles.uncounted t _ hmine hstage)
  have hfrees : ∀ u, (Function.update γ t { γ t with stage := .counted } u).frees ≠ some hp := by
    intro u
    have hu := (h.counted hp).not_frees hhandle (u := u)
    by_cases hut : u = t
    · subst hut
      rwa [Function.update_self]
    · rwa [Function.update_of_ne hut]
  have hself : (m.setCount hp r (r.refcount + 1)).heap hp =
      some { r with refcount := r.refcount + 1 } := Function.update_self _ _ _
  have hnot : (tp, hp) ∉ (γ t).regs := fun hmem =>
    (h.registers.view t).mine_notMem hmine (List.mem_map_of_mem hmem)
  refine h.setCount hr ⟨rfl, rfl, rfl, rfl, rfl, by rw [hstage]; rfl, by rintro ⟨⟩⟩ ?_
    (fun _ _ => Iff.rfl) rfl rfl (by rintro _ _ ⟨⟩) ?_
  · intro hp' hne x
    cases x with
    | theap tp' => simp [HeapGhost.Holds, hmine, hne.symm]
    | torn => exact Iff.rfl
    | fresh => exact Iff.rfl
    | held => exact Iff.rfl
  · constructor
    · intro r' hr'
      cases hself.symm.trans hr'
      apply ((h.counted hp).count r hr).insert (x := .of t (.theap tp))
      · rintro (hmem | ⟨-, hc⟩)
        · exact hnot hmem
        · exact hc hstage
      · apply refs_insert Iff.rfl
        intro x
        cases x with
        | theap tp' =>
          simp only [HeapGhost.Holds, hmine, hstage]
          simp [eq_comm, or_comm]
        | torn => exact (or_iff_right (by simp)).symm
        | fresh => exact (or_iff_right (by simp)).symm
        | held => exact (or_iff_right (by simp)).symm
    · exact fun _ _ => ⟨_, hself⟩
    · intro r' hr' hzero
      cases hself.symm.trans hr'
      cases hzero
    · exact fun u hu => absurd hu (hfrees u)
    · exact fun u _ hu => absurd hu (hfrees u)

/-! ## The lists of the heaps -/

/-- A step that changes the list of one heap, and whether one theap of thread `t` is linked. -/
theorem HeapInv.relink (h : HeapInv m γ) {r r' : HeapRec} (hr : m.heap hp = some r)
    (hseq : r'.heapSeq = r.heapSeq) (hcount : r'.refcount = r.refcount)
    (hheap : m'.heap = Function.update m.heap hp (some r'))
    (hlinked : ∀ tp', tp' ≠ tp → m'.linked tp' = m.linked tp')
    (hm : m' = { m with heap := m'.heap, hnext := m'.hnext, hprev := m'.hprev, linked := m'.linked })
    (hmine : (γ t).mine = some (tp, hp)) {x : Stage} (hx : m'.linked tp = x.isListed)
    (hstage : (γ t).stage ≠ .created) (hcreated : x ≠ .created) (hready : x ≠ .ready)
    (hlisted : Listed m') : HeapInv m' (Function.update γ t { γ t with stage := x }) := by
  have hs : SameHeaps m m' := by
    refine ⟨fun hp' => ?_, by rw [hm], by rw [hm]⟩
    rw [hheap]
    by_cases hne : hp' = hp
    · subst hne
      simp [hr, hseq]
    · rw [Function.update_of_ne hne]
  have htheap : m'.theap = m.theap := by rw [hm]
  have htnext : m'.tnext = m.tnext := by rw [hm]
  have hv := h.registers.view t
  obtain ⟨-, hnot, q, hq, hqt, hqh⟩ := hv.mine _ hmine
  have hne_of : ∀ y ∈ (γ t).regs, y.1 ≠ tp := fun y hy heq =>
    hv.mine_notMem hmine (List.mem_map.mpr ⟨y, hy, heq⟩)
  constructor
  · apply h.registers.of_step
    · refine ⟨fun tp' q' hq' hne => ⟨by rwa [htheap], hlinked tp' ?_, by rw [htnext]⟩,
        fun tp' q' hq' _ => by rwa [htheap] at hq', fun _ _ => by rw [hm], fun _ _ => by rw [hm]⟩
      rintro rfl
      cases hq.symm.trans hq'
      exact hne hqt
    · constructor
      · rw [htnext]
        exact hv.chain
      · rw [hm]
        exact hv.registry
      · intro y hy
        rw [hlinked y.1 (hne_of y hy), htheap]
        exact hv.regs y hy
      · intro y hy
        cases hmine.symm.trans hy
        rw [htheap]
        exact ⟨hx, hnot, q, hq, hqt, hqh⟩
      · exact fun _ _ hc => absurd hc hready
      · exact hv.nodup
      · rw [hm]
        exact hv.exited
      · rw [hm]
        exact hv.alive
    · intro tp' q' hq' ht
      rw [htheap] at hq'
      subst ht
      exact h.registers.owner tp' q' hq'
  · intro hp'
    apply (h.counted hp').of_step
    · rw [hheap]
      by_cases hne : hp' = hp
      · subst hne
        simp [hr, hcount]
      · rw [Function.update_of_ne hne]
    · apply refs_of_step (by rw [hm])
      intro y
      cases y with
      | theap tp' => simp [HeapGhost.Holds, hstage, hcreated]
      | torn => exact Iff.rfl
      | fresh => exact Iff.rfl
      | held => exact Iff.rfl
    · exact Iff.rfl
  · exact h.handles.of_step (by rw [hm]) (by rw [hm]) rfl rfl fun _ _ hc => absurd hc hcreated
  · exact hlisted
  · exact h.heaps.of_step hs (by rw [hm]) (by rw [hm]) rfl
  · exact h.theaps.of_step hs htheap (by rw [hm]) (by rw [hm]) (by rw [hm])
  · rw [hm]
    exact h.fault

/-- The lists of two heaps have no theap in common. -/
theorem ListOf.apart {hp' : Addr} {l l' : List Addr} (hl : ListOf m hp l) (hl' : ListOf m hp' l')
    (hne : hp' ≠ hp) (htp : tp ∈ l') : tp ∉ l := by
  intro hmem
  obtain ⟨-, r, hr, rfl⟩ := (hl tp).mp hmem
  obtain ⟨-, r', hr', rfl⟩ := (hl' tp).mp htp
  cases hr.symm.trans hr'
  exact hne rfl

/-- Another theap is linked, or no longer linked. -/
theorem ListOf.relink {hp' : Addr} {l : List Addr} (hl : ListOf m hp' l)
    (htheap : m'.theap = m.theap) (hlinked : ∀ tp', tp' ≠ tp → m'.linked tp' = m.linked tp')
    {r : TheapRec} (hr : m.theap tp = some r) (hne : r.heap ≠ hp') : ListOf m' hp' l := by
  intro tp'
  rw [hl tp', htheap]
  by_cases heq : tp' = tp
  · subst heq
    have hno : ¬ ∃ r, m.theap tp' = some r ∧ r.heap = hp' := by
      rintro ⟨r', hr', rfl⟩
      cases hr.symm.trans hr'
      exact hne rfl
    simp [hno]
  · rw [hlinked tp' heq]

/-- A theap is put into the list of its heap. -/
theorem HeapInv.pushTheap (h : HeapInv m γ) {r : HeapRec} (hr : m.heap hp = some r)
    (hmine : (γ t).mine = some (tp, hp)) (hstage : (γ t).stage = .counted) :
    HeapInv (m.pushTheap hp tp r) (Function.update γ t { γ t with stage := .listed }) := by
  obtain ⟨hlinked, -, q, hq, -, hqh⟩ := (h.registers.view t).mine _ hmine
  rw [hstage] at hlinked
  have hother : ∀ tp', tp' ≠ tp → (m.pushTheap hp tp r).linked tp' = m.linked tp' :=
    fun _ hne => Function.update_of_ne hne _ _
  have hself : (m.pushTheap hp tp r).linked tp = true := Function.update_self _ _ _
  obtain ⟨l, hl, hmem⟩ := h.listed hp r hr
  have htp : ∀ hp' l', ListOf m hp' l' → tp ∉ l' := by
    intro hp' l' hl' hc
    cases hlinked.symm.trans ((hl' tp).mp hc).1
  have hseq : ({ r with theaps := some tp } : HeapRec).heapSeq = r.heapSeq := rfl
  refine h.relink hr hseq rfl rfl hother rfl hmine hself (by simp [hstage]) (by simp) (by simp) ?_
  intro hp' r' hr'
  by_cases hne : hp' = hp
  · subst hne
    have hheap : (m.pushTheap hp' tp r).heap hp' = some { r with theaps := some tp } :=
      Function.update_self _ _ _
    cases hheap.symm.trans hr'
    refine ⟨tp :: l, hl.push (htp _ l hmem), fun tp' => ?_⟩
    by_cases heq : tp' = tp
    · subst heq
      exact iff_of_true List.mem_cons_self ⟨hself, q, hq, hqh⟩
    · rw [List.mem_cons, or_iff_right heq, hmem tp', hother tp' heq]
      exact Iff.rfl
  · have hheap : (m.pushTheap hp tp r).heap hp' = m.heap hp' := Function.update_of_ne hne _ _
    rw [hheap] at hr'
    obtain ⟨l', hl', hmem'⟩ := h.listed hp' r' hr'
    have hout : ∀ c ∈ l', c ≠ tp ∧ c ∉ l := fun c hc =>
      ⟨fun heq => htp hp' l' hmem' (heq ▸ hc), ListOf.apart hmem hmem' hne hc⟩
    refine ⟨l', hl'.congr (fun c hc => ?_) (fun c hc => ?_), ?_⟩
    · exact (hl.push_other (hout c hc).1 (hout c hc).2).1
    · exact (hl.push_other (hout c hc).1 (hout c hc).2).2
    · exact ListOf.relink hmem' rfl hother hq fun heq => hne (heq.symm.trans hqh)

end MimallocRs
