import MimallocRs.Heap.Create

/-!
# The end of heaps and theaps

The invariant after a theap has been taken off the list of its heap, after it has been freed, and
after a reference to a heap has been released. The thread that releases the last one frees the heap,
which nothing refers to any more.
-/

namespace MimallocRs

open Interleave

variable {m m' : HeapMem} {γ : ℕ → HeapGhost} {t u : ℕ} {g g' : HeapGhost} {a hp tp : Addr}

/-- A theap is taken off the list of its heap. -/
theorem HeapInv.unlinkTheap (h : HeapInv m γ) {r : HeapRec} (hr : m.heap hp = some r)
    (hmine : (γ t).mine = some (tp, hp)) (hstage : (γ t).stage = .listed) :
    HeapInv (m.unlinkTheap hp tp r) (Function.update γ t { γ t with stage := .counted }) := by
  obtain ⟨hlinked, -, q, hq, -, hqh⟩ := (h.registers.view t).mine _ hmine
  rw [hstage] at hlinked
  have hother : ∀ tp', tp' ≠ tp → (m.unlinkTheap hp tp r).linked tp' = m.linked tp' :=
    fun _ hne => Function.update_of_ne hne _ _
  have hself : (m.unlinkTheap hp tp r).linked tp = false := Function.update_self _ _ _
  obtain ⟨l, hl, hmem⟩ := h.listed hp r hr
  obtain ⟨l₁, l₂, rfl⟩ := List.append_of_mem ((hmem tp).mpr ⟨hlinked, q, hq, hqh⟩)
  have hseq : ({ r with theaps := (m.hprev tp).elim (m.hnext tp) fun _ => r.theaps } :
      HeapRec).heapSeq = r.heapSeq := rfl
  refine h.relink hr hseq rfl rfl hother rfl hmine hself (by simp [hstage]) (by simp) (by simp) ?_
  intro hp' r' hr'
  by_cases hne : hp' = hp
  · subst hne
    have hheap : (m.unlinkTheap hp' tp r).heap hp' =
        some { r with theaps := (m.hprev tp).elim (m.hnext tp) fun _ => r.theaps } :=
      Function.update_self _ _ _
    cases hheap.symm.trans hr'
    have hnot : tp ∉ l₁ ++ l₂ := (List.nodup_middle.mp hl.nodup).notMem
    refine ⟨l₁ ++ l₂, hl.remove, fun tp' => ?_⟩
    by_cases heq : tp' = tp
    · subst heq
      apply iff_of_false hnot
      rintro ⟨hc, -⟩
      cases hself.symm.trans hc
    · rw [hother tp' heq]
      show tp' ∈ l₁ ++ l₂ ↔ m.linked tp' = true ∧ ∃ r', m.theap tp' = some r' ∧ r'.heap = hp'
      rw [← hmem tp']
      simp [heq]
  · have hheap : (m.unlinkTheap hp tp r).heap hp' = m.heap hp' := Function.update_of_ne hne _ _
    rw [hheap] at hr'
    obtain ⟨l', hl', hmem'⟩ := h.listed hp' r' hr'
    have hout : ∀ c ∈ l', c ∉ l₁ ++ tp :: l₂ := fun c hc => ListOf.apart hmem hmem' hne hc
    refine ⟨l', hl'.congr (fun c hc => ?_) (fun c hc => ?_), ?_⟩
    · exact (hl.remove_other (hout c hc)).1
    · exact (hl.remove_other (hout c hc)).2
    · exact ListOf.relink hmem' rfl hother hq fun heq => hne (heq.symm.trans hqh)

/-- A thread gives up a reference to the heap at `hp`. -/
structure Releases (g g' : HeapGhost) (hp : Addr) (y : Holding) : Prop where
  view : SameView g g'
  held : g.Holds hp y
  holds : ∀ x, g'.Holds hp x ↔ g.Holds hp x ∧ x ≠ y
  others : ∀ hp', hp' ≠ hp → ∀ x, g'.Holds hp' x ↔ g.Holds hp' x
  fresh : g'.fresh = g.fresh
  uses : g'.uses = g.uses
  stage : g'.stage = g.stage

/-- A reference is released; the thread that releases the last one frees the heap. -/
theorem HeapInv.release (h : HeapInv m γ) {r : HeapRec} {y : Holding}
    (hr : m.heap hp = some r) (hg : Releases (γ t) g' hp y) (hfrees : (γ t).frees = none)
    (hfrees' : g'.frees = if r.refcount = 1 then some hp else none) :
    HeapInv (m.setCount hp r (r.refcount - 1)) (Function.update γ t g') := by
  have hself : (m.setCount hp r (r.refcount - 1)).heap hp =
      some { r with refcount := r.refcount - 1 } := Function.update_self _ _ _
  have hmem : Ref.of t y ∈ Refs m γ hp := hg.held
  have hother : ∀ u, u ≠ t → (Function.update γ t g' u).frees ≠ some hp := by
    intro u hu
    rw [Function.update_of_ne hu]
    exact (h.counted hp).not_frees hmem
  have hpos := (h.counted hp).refcount_ne_zero hmem hr
  refine h.setCount hr hg.view hg.others ?_ hg.fresh hg.uses ?_ ?_
  · intro hp' hne
    rw [hfrees, hfrees']
    split <;> simp [hne.symm]
  · intro x hx hc
    rw [hg.view.mine] at hx
    rw [hg.stage] at hc
    rw [hg.uses]
    exact h.handles.uncounted t x hx hc
  · constructor
    · intro r' hr'
      cases hself.symm.trans hr'
      exact ((h.counted hp).count r hr).erase hmem (refs_erase Iff.rfl hg.holds)
    · exact fun _ _ => ⟨_, hself⟩
    · intro r' hr' hzero
      cases hself.symm.trans hr'
      have hone : r.refcount = 1 := by
        have hzero' : r.refcount - 1 = 0 := hzero
        omega
      refine ⟨t, ?_⟩
      rw [Function.update_self, hfrees', if_pos hone]
    · intro u hu
      refine ⟨_, hself, ?_⟩
      have hut : u = t := Decidable.byContradiction fun hne => hother u hne hu
      rw [hut, Function.update_self, hfrees'] at hu
      show r.refcount - 1 = 0
      split at hu
      · omega
      · cases hu
    · intro u v hu hv
      have hut : u = t := Decidable.byContradiction fun hne => hother u hne hu
      have hvt : v = t := Decidable.byContradiction fun hne => hother v hne hv
      rw [hut, hvt]

/-- A theap is freed. -/
def HeapMem.dropTheap (m : HeapMem) (tp : Addr) (r : TheapRec) : HeapMem :=
  { m with theap := Function.update m.theap tp none, torn := r.serial :: m.torn }

/-- A heap is freed. -/
def HeapMem.dropHeap (m : HeapMem) (hp : Addr) (r : HeapRec) : HeapMem :=
  { m with heap := Function.update m.heap hp none, freed := r.heapSeq :: m.freed }

/-- What the thread knows that has freed its theap. -/
def HeapGhost.tear (g : HeapGhost) (hp : Addr) : HeapGhost :=
  { g with mine := none, owes := some hp }

theorem HeapInv.dropTheap (h : HeapInv m γ) (hmine : (γ t).mine = some (tp, hp))
    (hstage : (γ t).stage = .counted) (howes : (γ t).owes = none) {q : TheapRec}
    (hq : m.theap tp = some q) :
    HeapInv (m.dropTheap tp q) (Function.update γ t ((γ t).tear hp)) := by
  have hv := h.registers.view t
  obtain ⟨hlinked, -, q', hq', ht, hh⟩ := hv.mine _ hmine
  cases hq.symm.trans hq'
  rw [hstage] at hlinked
  have hother : ∀ tp', tp' ≠ tp → (m.dropTheap tp q).theap tp' = m.theap tp' := fun _ hne =>
    Function.update_of_ne hne _ _
  have hself : (m.dropTheap tp q).theap tp = none := Function.update_self _ _ _
  have hback : ∀ tp' r, (m.dropTheap tp q).theap tp' = some r → tp' ≠ tp ∧ m.theap tp' = some r := by
    intro tp' r hr
    have hne : tp' ≠ tp := by
      rintro rfl
      rw [hself] at hr
      cases hr
    rw [hother tp' hne] at hr
    exact ⟨hne, hr⟩
  have hregs : ∀ y ∈ (γ t).regs, y.1 ≠ tp := fun y hy heq =>
    hv.mine_notMem hmine (List.mem_map.mpr ⟨y, hy, heq⟩)
  have hnot : (tp, hp) ∉ (γ t).regs := fun hmem => hregs _ hmem rfl
  constructor
  · apply h.registers.of_step
    · refine ⟨fun tp' r hr hne => ⟨?_, rfl, rfl⟩, fun tp' r hr _ => (hback tp' r hr).2,
        fun _ _ => rfl, fun _ _ => rfl⟩
      rw [hother tp' ?_]
      · exact hr
      · rintro rfl
        cases hq.symm.trans hr
        exact hne ht
    · refine ⟨hv.chain, hv.registry, fun y hy => ?_, ?_, ?_, hv.nodup, hv.exited, hv.alive⟩
      · rw [hother y.1 (hregs y hy)]
        exact hv.regs y hy
      · rintro _ ⟨⟩
      · rintro _ ⟨⟩
    · intro tp' r hr hrt
      obtain ⟨hne, hr⟩ := hback tp' r hr
      have hown := h.registers.owner tp' r hr
      rw [hrt, hmine] at hown
      apply Or.inl
      apply hown.resolve_right
      rintro ⟨⟩
      exact hne rfl
  · intro hp'
    by_cases hne : hp' = hp
    · subst hne
      have hc := h.counted hp'
      have hmem : Ref.of t (.theap tp) ∈ Refs m γ hp' := Or.inr ⟨hmine, by simp [hstage]⟩
      have hnew : Ref.of t .torn ∉ Refs m γ hp' := by
        intro hc
        cases howes.symm.trans hc
      have hfrees : ∀ u, (Function.update γ t ((γ t).tear hp') u).frees = (γ u).frees := by
        intro u
        by_cases hu : u = t
        · subst hu
          rw [Function.update_self]
          rfl
        · rw [Function.update_of_ne hu]
      constructor
      · intro r hr
        apply (hc.count r hr).replace hmem hnew
        intro z
        cases z with
        | handle =>
          show hp' ∈ m.handles ↔ Ref.handle = .of t .torn ∨ hp' ∈ m.handles ∧ Ref.handle ≠ .of t _
          simp
        | of u x =>
          show (Function.update γ t ((γ t).tear hp') u).Holds hp' x ↔
            Ref.of u x = .of t .torn ∨ (γ u).Holds hp' x ∧ Ref.of u x ≠ .of t (.theap tp)
          by_cases hu : u = t
          · subst hu
            rw [Function.update_self]
            cases x with
            | theap tp' =>
              simp only [HeapGhost.Holds, HeapGhost.tear, hmine]
              by_cases heq : tp' = tp
              · subst heq
                simp [hnot]
              · simp [heq, Ne.symm heq]
            | torn => simp [HeapGhost.Holds, HeapGhost.tear]
            | fresh => simp [HeapGhost.Holds, HeapGhost.tear]
            | held => simp [HeapGhost.Holds, HeapGhost.tear]
          · rw [Function.update_of_ne hu]
            simp [hu]
      · intro x _
        exact hc.live _ hmem
      · intro r hr hzero
        exact absurd hzero (hc.refcount_ne_zero hmem hr)
      · intro u hu
        rw [hfrees] at hu
        exact hc.frees u hu
      · intro u v hu hv
        rw [hfrees] at hu hv
        exact hc.frees_inj u v hu hv
    · refine (h.counted hp').of_step rfl (refs_of_step Iff.rfl fun x => ?_) Iff.rfl
      cases x with
      | theap tp' => simp [HeapGhost.Holds, HeapGhost.tear, hmine, Ne.symm hne]
      | torn => simp [HeapGhost.Holds, HeapGhost.tear, howes, Ne.symm hne]
      | fresh => exact Iff.rfl
      | held => exact Iff.rfl
  · exact h.handles.of_step rfl rfl rfl rfl (by rintro _ ⟨⟩)
  · intro hp' r hr
    obtain ⟨l, hl, hmem⟩ := h.listed hp' r hr
    refine ⟨l, hl, fun tp' => ?_⟩
    by_cases heq : tp' = tp
    · subst heq
      apply iff_of_false
      · intro hc
        cases hlinked.symm.trans ((hmem tp').mp hc).1
      · rintro ⟨hc, -⟩
        cases hlinked.symm.trans hc
    · rw [hother tp' heq]
      exact hmem tp'
  · exact h.heaps.of_step ⟨fun _ => rfl, rfl, rfl⟩ rfl rfl rfl
  · have hth := h.theaps
    constructor
    · intro b
      by_cases hb : b = tp
      · exact Or.inr (hb ▸ hself)
      · rw [hother b hb]
        exact hth.apart b
    · exact fun tp' r hr => hth.heap_of tp' r (hback tp' r hr).2
    · exact fun tp' r hr => hth.lt tp' r (hback tp' r hr).2
    · exact fun a b r r' hr hr' => hth.inj a b r r' (hback a r hr).2 (hback b r' hr').2
    · exact fun tp' r hr => hth.maker tp' r (hback tp' r hr).2
    · exact hth.maker_lt
    · intro tp' r hr
      obtain ⟨hne, hr⟩ := hback tp' r hr
      show r.serial ∉ q.serial :: m.torn
      rw [List.mem_cons, not_or]
      exact ⟨fun heq => hne (hth.inj tp' tp r q hr hq heq), hth.not_torn tp' r hr⟩
    · intro i hi
      rcases List.mem_cons.mp hi with rfl | hi
      · exact hth.lt tp q hq
      · exact hth.torn_lt i hi
    · exact List.nodup_cons.mpr ⟨hth.not_torn tp q hq, hth.torn_nodup⟩
    · intro i hi
      show i ∈ q.serial :: m.torn ∨ _
      rw [List.mem_cons, or_assoc]
      rcases hth.all i hi with htorn | ⟨tp', r, hr, rfl⟩
      · exact Or.inr (Or.inl htorn)
      · by_cases heq : tp' = tp
        · subst heq
          cases hq.symm.trans hr
          exact Or.inl rfl
        · exact Or.inr (Or.inr ⟨tp', r, by rwa [hother tp' heq], rfl⟩)
    · exact fun i hi hfreed => List.mem_cons_of_mem _ (hth.freed i hi hfreed)
  · exact h.fault

/-- A heap is freed by the thread that has released its last reference. -/
theorem HeapInv.dropHeap (h : HeapInv m γ) {r : HeapRec} (hr : m.heap hp = some r)
    (hfrees : (γ t).frees = some hp) :
    HeapInv (m.dropHeap hp r) (Function.update γ t { γ t with frees := none }) := by
  have hc := h.counted hp
  obtain ⟨r', hr', hzero⟩ := hc.frees t hfrees
  cases hr.symm.trans hr'
  have hnoref : ∀ x, x ∉ Refs m γ hp := by
    have hcount := hc.count r hr
    rw [hzero] at hcount
    exact hcount.eq_empty
  have hother : ∀ hp', hp' ≠ hp → (m.dropHeap hp r).heap hp' = m.heap hp' := fun _ hne =>
    Function.update_of_ne hne _ _
  have hself : (m.dropHeap hp r).heap hp = none := Function.update_self _ _ _
  have hback : ∀ hp' q, (m.dropHeap hp r).heap hp' = some q → hp' ≠ hp ∧ m.heap hp' = some q := by
    intro hp' q hq
    have hne : hp' ≠ hp := by
      rintro rfl
      rw [hself] at hq
      cases hq
    rw [hother hp' hne] at hq
    exact ⟨hne, hq⟩
  have hrefs : ∀ hp', Refs (m.dropHeap hp r) (Function.update γ t { γ t with frees := none }) hp' =
      Refs m γ hp' := by
    intro hp'
    apply refs_of_step Iff.rfl
    intro x
    cases x <;> exact Iff.rfl
  have hfresh : ∀ hp', (∃ u, (Function.update γ t { γ t with frees := none } u).fresh = some hp') ↔
      ∃ u, (γ u).fresh = some hp' := by
    intro hp'
    apply exists_congr
    intro u
    by_cases hu : u = t
    · subst hu
      rw [Function.update_self]
    · rw [Function.update_of_ne hu]
  have hdeleted : r.heapSeq ∈ m.deleted := by
    rcases h.heaps.deleted hp r hr with hd | hhandle | ⟨u, hu⟩
    · exact hd
    · exact absurd hhandle (hnoref .handle)
    · exact absurd hu (hnoref (.of u .fresh))
  constructor
  · exact h.registers.of_same ⟨rfl, rfl, rfl, rfl, rfl, rfl, id⟩ ⟨rfl, rfl, rfl, rfl, rfl⟩
  · intro hp'
    by_cases hne : hp' = hp
    · subst hne
      have hnone : ∀ u, (Function.update γ t { γ t with frees := none } u).frees ≠ some hp' := by
        intro u hu
        by_cases hut : u = t
        · subst hut
          rw [Function.update_self] at hu
          cases hu
        · rw [Function.update_of_ne hut] at hu
          exact hut (hc.frees_inj u t hu hfrees)
      constructor
      · intro q hq
        cases hself.symm.trans hq
      · intro x hx
        rw [hrefs] at hx
        exact absurd hx (hnoref x)
      · intro q hq
        cases hself.symm.trans hq
      · exact fun u hu => absurd hu (hnone u)
      · exact fun u _ hu => absurd hu (hnone u)
    · apply (h.counted hp').of_step
      · rw [hother hp' hne]
      · exact hrefs hp'
      · simp [hfrees, Ne.symm hne]
  · exact h.handles.of_step rfl rfl rfl rfl (h.handles.uncounted t)
  · exact fun hp' q hq => h.listed hp' q (hback hp' q hq).2
  · have hh := h.heaps
    constructor
    · exact fun hp' q hq => hh.lt hp' q (hback hp' q hq).2
    · exact fun a b q q' hq hq' => hh.inj a b q q' (hback a q hq).2 (hback b q' hq').2
    · intro hp' q hq
      obtain ⟨hne, hq⟩ := hback hp' q hq
      show q.heapSeq ∉ r.heapSeq :: m.freed
      rw [List.mem_cons, not_or]
      exact ⟨fun heq => hne (hh.inj hp' hp q r hq hr heq), hh.not_freed hp' q hq⟩
    · intro seq hmem
      rcases List.mem_cons.mp hmem with rfl | hmem
      · exact hh.lt hp r hr
      · exact hh.freed_lt seq hmem
    · exact List.nodup_cons.mpr ⟨hh.not_freed hp r hr, hh.freed_nodup⟩
    · intro seq hmem
      rcases List.mem_cons.mp hmem with rfl | hmem
      · exact hdeleted
      · exact hh.freed_deleted seq hmem
    · intro seq hpos hlt
      show seq ∈ r.heapSeq :: m.freed ∨ _
      rw [List.mem_cons, or_assoc]
      rcases hh.all seq hpos hlt with hfreed | ⟨hp', q, hq, rfl⟩
      · exact Or.inr (Or.inl hfreed)
      · by_cases heq : hp' = hp
        · subst heq
          cases hr.symm.trans hq
          exact Or.inl rfl
        · exact Or.inr (Or.inr ⟨hp', q, by rwa [hother hp' heq], rfl⟩)
    · intro hp' q hq
      rw [hfresh]
      exact hh.deleted hp' q (hback hp' q hq).2
    · intro hp' q hq hor
      rw [hfresh] at hor
      exact hh.not_deleted hp' q (hback hp' q hq).2 hor
    · exact hh.deleted_lt
  · have hth := h.theaps
    constructor
    · intro b
      by_cases hb : b = hp
      · exact Or.inl (hb ▸ hself)
      · rw [hother b hb]
        exact hth.apart b
    · intro tp q hq
      have hne : q.heap ≠ hp := by
        rintro rfl
        obtain ⟨x, hx⟩ := h.theap_ref hq
        exact hnoref x hx
      rw [hother _ hne]
      exact hth.heap_of tp q hq
    · exact hth.lt
    · exact hth.inj
    · exact hth.maker
    · exact hth.maker_lt
    · exact hth.not_torn
    · exact hth.torn_lt
    · exact hth.torn_nodup
    · exact hth.all
    · intro i hi hfreed
      rcases List.mem_cons.mp hfreed with hseq | hfreed
      · rcases hth.all i hi with htorn | ⟨tp, q, hq, rfl⟩
        · exact htorn
        · -- a theap that is left would be a reference to the heap
          obtain ⟨q', hq', hqs⟩ := hth.heap_of tp q hq
          have hseq' : (m.maker q.serial).2 = r.heapSeq := hseq
          rw [hth.maker tp q hq] at hseq'
          have heap_eq : q.heap = hp := h.heaps.inj _ _ q' r hq' hr (hqs.trans hseq')
          obtain ⟨x, hx⟩ := h.theap_ref hq
          rw [heap_eq] at hx
          exact absurd hx (hnoref x)
      · exact hth.freed i hi hfreed
  · exact h.fault

end MimallocRs
