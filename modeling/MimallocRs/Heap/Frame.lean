import MimallocRs.Heap.Invariant

/-!
# What a step leaves to show

For each part of the invariant of heaps and theaps, what a step of one thread has to keep so that
the part holds afterwards.
-/

namespace MimallocRs

open Interleave

variable {m m' : HeapMem} {γ : ℕ → HeapGhost} {t u : ℕ} {g g' : HeapGhost} {hp tp : Addr}

/-! ## The registries -/

/-- A step of thread `t` leaves the theaps and the registries of the other threads alone. -/
structure OthersKept (t : ℕ) (m m' : HeapMem) : Prop where
  theap : ∀ tp r, m.theap tp = some r → r.tid ≠ t →
    m'.theap tp = some r ∧ m'.linked tp = m.linked tp ∧ m'.tnext tp = m.tnext tp
  back : ∀ tp r, m'.theap tp = some r → r.tid ≠ t → m.theap tp = some r
  registry : ∀ u, u ≠ t → m'.registry u = m.registry u
  exited : ∀ u, u ≠ t → m'.exited u = m.exited u

theorem RegView.kept (h : RegView m u g) (hk : OthersKept t m m') (hu : u ≠ t) :
    RegView m' u g := by
  have hown : ∀ x ∈ g.regs, m'.tnext x.1 = m.tnext x.1 := by
    intro x hx
    obtain ⟨-, r, hr, rfl, -⟩ := h.regs x hx
    exact (hk.theap x.1 r hr hu).2.2
  constructor
  · apply h.chain.congr
    intro tp htp
    obtain ⟨x, hx, rfl⟩ := List.mem_map.mp htp
    exact hown x hx
  · rw [hk.registry u hu]
    exact h.registry
  · intro x hx
    obtain ⟨hl, r, hr, rfl, hh⟩ := h.regs x hx
    obtain ⟨hr', hl', -⟩ := hk.theap x.1 r hr hu
    exact ⟨hl'.trans hl, r, hr', rfl, hh⟩
  · intro x hx
    obtain ⟨hl, hnot, r, hr, rfl, hh⟩ := h.mine x hx
    obtain ⟨hr', hl', -⟩ := hk.theap x.1 r hr hu
    exact ⟨hl'.trans hl, hnot, r, hr', rfl, hh⟩
  · intro x hx hready
    obtain ⟨-, -, r, hr, rfl, -⟩ := h.mine x hx
    rw [(hk.theap x.1 r hr hu).2.2]
    exact h.ready x hx hready
  · exact h.nodup
  · rw [hk.exited u hu]
    exact h.exited
  · rw [hk.exited u hu]
    exact h.alive

theorem Registers.of_step (h : Registers m γ) (hk : OthersKept t m m') (hv : RegView m' t g')
    (howner : ∀ tp r, m'.theap tp = some r → r.tid = t →
      (tp, r.heap) ∈ g'.regs ∨ g'.mine = some (tp, r.heap)) :
    Registers m' (Function.update γ t g') := by
  constructor
  · intro u
    by_cases hu : u = t
    · subst hu
      rwa [Function.update_self]
    · rw [Function.update_of_ne hu]
      exact (h.view u).kept hk hu
  · intro tp r hr
    by_cases hu : r.tid = t
    · rw [hu, Function.update_self]
      exact howner tp r hr hu
    · rw [Function.update_of_ne hu]
      exact h.owner tp r (hk.back tp r hr hu)

/-- A theap in the registry is known by its address. -/
theorem RegView.heap_eq (h : RegView m t g) {x y : Addr × Addr} (hx : x ∈ g.regs) (hy : y ∈ g.regs)
    (hxy : x.1 = y.1) : x = y := by
  obtain ⟨-, r, hr, -, hh⟩ := h.regs x hx
  obtain ⟨-, r', hr', -, hh'⟩ := h.regs y hy
  rw [hxy, hr'] at hr
  cases hr
  exact Prod.ext hxy (hh.symm.trans hh')

theorem RegView.nodup_fst (h : RegView m t g) : (g.regs.map Prod.fst).Nodup :=
  h.nodup.of_map.map_on fun _ hx _ hy hxy => h.heap_eq hx hy hxy

/-- The theap that a thread is creating or tearing down is not in its registry. -/
theorem RegView.mine_notMem (h : RegView m t g) {x : Addr × Addr} (hx : g.mine = some x) :
    x.1 ∉ g.regs.map Prod.fst := by
  intro hmem
  obtain ⟨y, hy, hxy⟩ := List.mem_map.mp hmem
  obtain ⟨-, hnot, r, hr, -, hh⟩ := h.mine x hx
  obtain ⟨-, r', hr', -, hh'⟩ := h.regs y hy
  rw [hxy, hr] at hr'
  cases hr'
  exact hnot (List.mem_map.mpr ⟨y, hy, hh'.symm.trans hh⟩)

/-! ## The references -/

/-- A thread holds the same references after a step. -/
structure SameHolds (g g' : HeapGhost) : Prop where
  holds : ∀ hp x, g'.Holds hp x ↔ g.Holds hp x
  frees : g'.frees = g.frees
  uses : g'.uses = g.uses
  fresh : g'.fresh = g.fresh

/-- What a step does not change of the ghost of its thread. -/
theorem same_field {β : Type} (f : HeapGhost → β) (h : f g' = f (γ t)) (u : ℕ) :
    f (Function.update γ t g' u) = f (γ u) := by
  by_cases hu : u = t
  · subst hu
    rwa [Function.update_self]
  · rw [Function.update_of_ne hu]

theorem refs_of_step (hh : hp ∈ m'.handles ↔ hp ∈ m.handles)
    (hg : ∀ x, g'.Holds hp x ↔ (γ t).Holds hp x) :
    Refs m' (Function.update γ t g') hp = Refs m γ hp := by
  apply Set.ext
  intro x
  cases x with
  | handle => exact hh
  | of u x =>
    show (Function.update γ t g' u).Holds hp x ↔ (γ u).Holds hp x
    by_cases hu : u = t
    · subst hu
      rw [Function.update_self]
      exact hg x
    · rw [Function.update_of_ne hu]

/-- The thread holds another reference. -/
theorem refs_insert {y : Holding} (hh : hp ∈ m'.handles ↔ hp ∈ m.handles)
    (hg : ∀ x, g'.Holds hp x ↔ x = y ∨ (γ t).Holds hp x) (z : Ref) :
    z ∈ Refs m' (Function.update γ t g') hp ↔ z = .of t y ∨ z ∈ Refs m γ hp := by
  cases z with
  | handle =>
    show hp ∈ m'.handles ↔ Ref.handle = .of t y ∨ hp ∈ m.handles
    simp [hh]
  | of u x =>
    show (Function.update γ t g' u).Holds hp x ↔ Ref.of u x = .of t y ∨ (γ u).Holds hp x
    by_cases hu : u = t
    · subst hu
      simp [hg]
    · simp [hu]

/-- The thread holds a reference less. -/
theorem refs_erase {y : Holding} (hh : hp ∈ m'.handles ↔ hp ∈ m.handles)
    (hg : ∀ x, g'.Holds hp x ↔ (γ t).Holds hp x ∧ x ≠ y) (z : Ref) :
    z ∈ Refs m' (Function.update γ t g') hp ↔ z ∈ Refs m γ hp ∧ z ≠ .of t y := by
  cases z with
  | handle =>
    show hp ∈ m'.handles ↔ hp ∈ m.handles ∧ Ref.handle ≠ .of t y
    simp [hh]
  | of u x =>
    show (Function.update γ t g' u).Holds hp x ↔ (γ u).Holds hp x ∧ Ref.of u x ≠ .of t y
    by_cases hu : u = t
    · subst hu
      simp [hg]
    · simp [hu]

theorem Counted.of_step (h : Counted m γ hp)
    (hheap : (m'.heap hp).map HeapRec.refcount = (m.heap hp).map HeapRec.refcount)
    (hrefs : Refs m' (Function.update γ t g') hp = Refs m γ hp)
    (hfrees : g'.frees = some hp ↔ (γ t).frees = some hp) :
    Counted m' (Function.update γ t g') hp := by
  have hfrees' : ∀ u, (Function.update γ t g' u).frees = some hp ↔ (γ u).frees = some hp := by
    intro u
    by_cases hu : u = t
    · subst hu
      rwa [Function.update_self]
    · rw [Function.update_of_ne hu]
  have hback : ∀ r, m'.heap hp = some r → ∃ r', m.heap hp = some r' ∧ r'.refcount = r.refcount := by
    intro r hr
    rw [hr] at hheap
    exact Option.map_eq_some_iff.mp hheap.symm
  have hforth : ∀ r, m.heap hp = some r → ∃ r', m'.heap hp = some r' ∧ r'.refcount = r.refcount := by
    intro r hr
    rw [hr] at hheap
    exact Option.map_eq_some_iff.mp hheap
  constructor
  · intro r hr
    obtain ⟨r', hr', heq⟩ := hback r hr
    rw [hrefs, ← heq]
    exact h.count r' hr'
  · intro x hx
    rw [hrefs] at hx
    obtain ⟨r, hr⟩ := h.live x hx
    obtain ⟨r', hr', -⟩ := hforth r hr
    exact ⟨r', hr'⟩
  · intro r hr hzero
    obtain ⟨r', hr', heq⟩ := hback r hr
    obtain ⟨u, hu⟩ := h.zero r' hr' (heq.trans hzero)
    exact ⟨u, (hfrees' u).mpr hu⟩
  · intro u hu
    obtain ⟨r, hr, hzero⟩ := h.frees u ((hfrees' u).mp hu)
    obtain ⟨r', hr', heq⟩ := hforth r hr
    exact ⟨r', hr', heq.trans hzero⟩
  · intro u v hu hv
    exact h.frees_inj u v ((hfrees' u).mp hu) ((hfrees' v).mp hv)

theorem Handles.of_step (h : Handles m γ) (hh : m'.handles = m.handles) (hb : m'.busy = m.busy)
    (hg : g'.uses = (γ t).uses) (hfresh : g'.fresh = (γ t).fresh)
    (hmine : ∀ x, g'.mine = some x → g'.stage = .created → g'.uses = some x.2) :
    Handles m' (Function.update γ t g') := by
  have huses := same_field HeapGhost.uses hg
  have hfresh' := same_field HeapGhost.fresh hfresh
  constructor
  · rw [hh]
    exact h.nodup
  · intro u hp
    rw [hb, huses]
    exact h.busy u hp
  · rw [hb]
    exact h.busy_nodup
  · intro u hp
    rw [hh, huses]
    exact h.uses u hp
  · intro u x hx hc
    by_cases hu : u = t
    · subst hu
      rw [Function.update_self] at hx hc ⊢
      exact hmine x hx hc
    · rw [Function.update_of_ne hu] at hx hc ⊢
      exact h.uncounted u x hx hc
  · intro u hp
    rw [hfresh', hh]
    exact h.fresh u hp
  · intro u v hp
    rw [hfresh', hfresh']
    exact h.fresh_inj u v hp

/-! ## The lists and the history -/

/-- The heaps are the same but for their counts. -/
theorem Listed.of_step (h : Listed m)
    (hheap : ∀ hp, (m'.heap hp).map HeapRec.theaps = (m.heap hp).map HeapRec.theaps)
    (hnext : m'.hnext = m.hnext) (hprev : m'.hprev = m.hprev) (hlinked : m'.linked = m.linked)
    (htheap : m'.theap = m.theap) : Listed m' := by
  intro hp r hr
  have hmap := hheap hp
  rw [hr] at hmap
  obtain ⟨r', hr', heq⟩ := Option.map_eq_some_iff.mp hmap.symm
  simp only [ListOf]
  rw [hnext, hprev, hlinked, htheap, ← heq]
  exact h hp r' hr'

/-- A step that leaves the identity of the heaps alone. -/
structure SameHeaps (m m' : HeapMem) : Prop where
  seqs : ∀ hp, (m'.heap hp).map HeapRec.heapSeq = (m.heap hp).map HeapRec.heapSeq
  nextSeq : m'.nextSeq = m.nextSeq
  freed : m'.freed = m.freed

theorem SameHeaps.back (h : SameHeaps m m') {r : HeapRec} (hr : m'.heap hp = some r) :
    ∃ r', m.heap hp = some r' ∧ r'.heapSeq = r.heapSeq := by
  have hmap := h.seqs hp
  rw [hr] at hmap
  exact Option.map_eq_some_iff.mp hmap.symm

theorem SameHeaps.forth (h : SameHeaps m m') {r : HeapRec} (hr : m.heap hp = some r) :
    ∃ r', m'.heap hp = some r' ∧ r'.heapSeq = r.heapSeq := by
  have hmap := h.seqs hp
  rw [hr] at hmap
  exact Option.map_eq_some_iff.mp hmap

theorem HeapsRecorded.of_step (h : HeapsRecorded m γ) (hs : SameHeaps m m')
    (hh : m'.handles = m.handles) (hd : m'.deleted = m.deleted) (hg : g'.fresh = (γ t).fresh) :
    HeapsRecorded m' (Function.update γ t g') := by
  have hfresh : ∀ hp, (∃ u, (Function.update γ t g' u).fresh = some hp) ↔
      ∃ u, (γ u).fresh = some hp := by
    intro hp
    simp only [same_field HeapGhost.fresh hg]
  constructor
  · intro hp r hr
    obtain ⟨r', hr', heq⟩ := hs.back hr
    rw [hs.nextSeq, ← heq]
    exact h.lt hp r' hr'
  · intro hp hp' r r' hr hr' hseq
    obtain ⟨q, hq, heq⟩ := hs.back hr
    obtain ⟨q', hq', heq'⟩ := hs.back hr'
    exact h.inj hp hp' q q' hq hq' (by rw [heq, heq', hseq])
  · intro hp r hr
    obtain ⟨r', hr', heq⟩ := hs.back hr
    rw [hs.freed, ← heq]
    exact h.not_freed hp r' hr'
  · rw [hs.freed, hs.nextSeq]
    exact h.freed_lt
  · rw [hs.freed]
    exact h.freed_nodup
  · rw [hs.freed, hd]
    exact h.freed_deleted
  · intro seq hpos hlt
    rw [hs.nextSeq] at hlt
    rw [hs.freed]
    apply (h.all seq hpos hlt).imp_right
    rintro ⟨hp, r, hr, hseq⟩
    obtain ⟨r', hr', heq⟩ := hs.forth hr
    exact ⟨hp, r', hr', heq.trans hseq⟩
  · intro hp r hr
    obtain ⟨r', hr', heq⟩ := hs.back hr
    rw [hh, hd, hfresh, ← heq]
    exact h.deleted hp r' hr'
  · intro hp r hr
    obtain ⟨r', hr', heq⟩ := hs.back hr
    rw [hh, hd, hfresh, ← heq]
    exact h.not_deleted hp r' hr'
  · rw [hd, hs.nextSeq]
    exact h.deleted_lt

theorem TheapsRecorded.of_step (h : TheapsRecorded m) (hs : SameHeaps m m')
    (htheap : m'.theap = m.theap) (hserials : m'.serials = m.serials) (hmaker : m'.maker = m.maker)
    (htorn : m'.torn = m.torn) : TheapsRecorded m' := by
  constructor
  · intro a
    rw [htheap]
    apply (h.apart a).imp_left
    intro hnone
    have hmap := hs.seqs a
    rw [hnone] at hmap
    exact Option.map_eq_none_iff.mp hmap
  · intro tp r hr
    rw [htheap] at hr
    obtain ⟨q, hq, hseq⟩ := h.heap_of tp r hr
    obtain ⟨q', hq', heq⟩ := hs.forth hq
    exact ⟨q', hq', heq.trans hseq⟩
  · rw [htheap, hserials]
    exact h.lt
  · rw [htheap]
    exact h.inj
  · rw [htheap, hmaker]
    exact h.maker
  · rw [hserials, hmaker, hs.nextSeq]
    exact h.maker_lt
  · rw [htheap, htorn]
    exact h.not_torn
  · rw [htorn, hserials]
    exact h.torn_lt
  · rw [htorn]
    exact h.torn_nodup
  · rw [hserials, htorn, htheap]
    exact h.all
  · rw [hserials, hmaker, htorn, hs.freed]
    exact h.freed

/-- A step that changes the registries only. -/
theorem HeapInv.of_registers (h : HeapInv m γ)
    (hm : m' = { m with tnext := m'.tnext, registry := m'.registry, exited := m'.exited })
    (hg : SameHolds (γ t) g')
    (hmine : ∀ x, g'.mine = some x → g'.stage = .created → g'.uses = some x.2)
    (hreg : Registers m' (Function.update γ t g')) : HeapInv m' (Function.update γ t g') := by
  have hs : SameHeaps m m' := by
    rw [hm]
    exact ⟨fun _ => rfl, rfl, rfl⟩
  refine ⟨hreg, fun hp => ?_, ?_, ?_, ?_, ?_, ?_⟩
  · apply (h.counted hp).of_step
    · rw [hm]
    · apply refs_of_step
      · rw [hm]
      · exact hg.holds hp
    · rw [hg.frees]
  · apply h.handles.of_step _ _ hg.uses hg.fresh hmine
    · rw [hm]
    · rw [hm]
  · apply h.listed.of_step
    all_goals
      intros
      rw [hm]
  · apply h.heaps.of_step hs _ _ hg.fresh
    · rw [hm]
    · rw [hm]
  · apply h.theaps.of_step hs
    all_goals rw [hm]
  · rw [hm]
    exact h.fault

/-! ## What the invariant says of references -/

/-- A theap is a reference to its heap, or its thread uses the handle. -/
theorem HeapInv.theap_ref (h : HeapInv m γ) {r : TheapRec} (hr : m.theap tp = some r) :
    ∃ x, x ∈ Refs m γ r.heap := by
  rcases h.registers.owner tp r hr with hx | hx
  · exact ⟨.of r.tid (.theap tp), Or.inl hx⟩
  · by_cases hc : (γ r.tid).stage = .created
    · have huses := h.handles.uncounted r.tid _ hx hc
      exact ⟨.handle, h.handles.uses _ _ huses⟩
    · exact ⟨.of r.tid (.theap tp), Or.inr ⟨hx, hc⟩⟩

/-- A handle that is used belongs to a heap. -/
theorem HeapInv.heap_of_uses (h : HeapInv m γ) (huses : (γ t).uses = some hp) :
    ∃ r, m.heap hp = some r :=
  (h.counted hp).live .handle (h.handles.uses t hp huses)

/-- A counted theap keeps its heap alive. -/
theorem HeapInv.heap_of_mine (h : HeapInv m γ) (hmine : (γ t).mine = some (tp, hp))
    (hstage : (γ t).stage ≠ .created) : ∃ r, m.heap hp = some r :=
  (h.counted hp).live (.of t (.theap tp)) (Or.inr ⟨hmine, hstage⟩)

/-- A heap with a reference has not been released. -/
theorem Counted.refcount_ne_zero (h : Counted m γ hp) {x : Ref} (hx : x ∈ Refs m γ hp) {r : HeapRec}
    (hr : m.heap hp = some r) : r.refcount ≠ 0 := by
  intro hzero
  have hcount := h.count r hr
  rw [hzero] at hcount
  exact hcount.eq_empty x hx

theorem Counted.not_frees (h : Counted m γ hp) {x : Ref} (hx : x ∈ Refs m γ hp) :
    (γ u).frees ≠ some hp := by
  intro hu
  obtain ⟨r, hr, hzero⟩ := h.frees u hu
  exact h.refcount_ne_zero hx hr hzero

/-- An address at which there is no heap. -/
theorem Counted.not_ref (h : Counted m γ a) (hnone : m.heap a = none) (x : Ref) :
    x ∉ Refs m γ a := by
  intro hx
  obtain ⟨r, hr⟩ := h.live x hx
  rw [hnone] at hr
  cases hr

/-- What a thread knows of its theaps, when none of it changes. -/
structure SameView (g g' : HeapGhost) : Prop where
  regs : g'.regs = g.regs
  registered : g'.registered = g.registered
  exiting : g'.exiting = g.exiting
  alive : g'.alive = g.alive
  mine : g'.mine = g.mine
  stage : g'.stage.isListed = g.stage.isListed
  ready : g'.stage = .ready → g.stage = .ready

theorem RegView.of_same (h : RegView m t g) (hg : SameView g g')
    (hm : m'.theap = m.theap ∧ m'.linked = m.linked ∧ m'.tnext = m.tnext ∧
      m'.registry = m.registry ∧ m'.exited = m.exited) : RegView m' t g' := by
  obtain ⟨htheap, hlinked, htnext, hregistry, hexited⟩ := hm
  have hhead : g'.head = g.head := by rw [HeapGhost.head, hg.regs, HeapGhost.head]
  constructor
  · rw [htnext, hhead, hg.regs]
    exact h.chain
  · rw [hregistry, hg.registered, hhead]
    exact h.registry
  · rw [hg.regs, hlinked, htheap]
    exact h.regs
  · rw [hg.mine, hlinked, hg.stage, hg.regs, htheap]
    exact h.mine
  · intro x hx hready
    rw [htnext, hhead]
    rw [hg.mine] at hx
    exact h.ready x hx (hg.ready hready)
  · rw [hg.regs]
    exact h.nodup
  · rw [hexited, hg.exiting, hg.regs]
    exact h.exited
  · rw [hg.alive, hexited]
    exact h.alive

/-- A step that leaves the registries and the theaps alone. -/
theorem Registers.of_same (h : Registers m γ) (hg : SameView (γ t) g')
    (hm : m'.theap = m.theap ∧ m'.linked = m.linked ∧ m'.tnext = m.tnext ∧
      m'.registry = m.registry ∧ m'.exited = m.exited) : Registers m' (Function.update γ t g') := by
  apply h.of_step _ ((h.view t).of_same hg hm)
  · rintro tp r hr rfl
    rw [hm.1] at hr
    rw [hg.regs, hg.mine]
    exact h.owner tp r hr
  · obtain ⟨htheap, hlinked, htnext, hregistry, hexited⟩ := hm
    constructor
    · intro tp r hr _
      rw [htheap, hlinked, htnext]
      exact ⟨hr, rfl, rfl⟩
    · intro tp r hr _
      rwa [htheap] at hr
    · intro u _
      rw [hregistry]
    · intro u _
      rw [hexited]

end MimallocRs
