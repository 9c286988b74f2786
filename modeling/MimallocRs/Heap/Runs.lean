import MimallocRs.Heap.Outline

/-!
# Runs of the operations on heaps

The start and the return of an operation keep the invariant, so that it holds in every reachable
configuration (`heapSystem_reachable`).
-/

namespace MimallocRs

open Interleave

variable {m m' : HeapMem} {γ : ℕ → HeapGhost} {t u : ℕ} {g g' : HeapGhost} {hp : Addr}

/-- A thread between two operations. -/
structure HeapIdle (g : HeapGhost) : Prop where
  registered : g.registered = true
  exiting : g.exiting = false
  mine : g.mine = none
  owes : g.owes = none
  fresh : g.fresh = none
  holds : g.holds = none
  frees : g.frees = none
  uses : g.uses = none

/-- What an operation returns with. -/
def heapPost : (o : HeapOp) → o.Res → HeapGhost → Prop
  | .newBoxed, r, g => HeapIdle { g with fresh := none } ∧ g.fresh = r
  | .alloc hp, r, g => HeapIdle { g with uses := none } ∧ g.uses = some hp ∧
      ∀ tp, r = some tp → (tp, hp) ∈ g.regs
  | .delete _, _, g | .destroy _, _, g => HeapIdle g
  | .exit, _, g => HeapIdle { g with registered := true, exiting := false } ∧
      g.registered = false ∧ g.regs = []

/-! ## The start of an operation -/

/-- A step that changes the use of the handles only. -/
theorem HeapInv.of_use (h : HeapInv m γ) {x : Option Addr} {busy : List (ℕ × Addr)}
    (hmine : (γ t).mine = none) (hnodup : busy.Nodup)
    (hbusy : ∀ u hp, (u, hp) ∈ busy ↔ (Function.update γ t { γ t with uses := x } u).uses = some hp)
    (hx : ∀ hp, x = some hp → hp ∈ m.handles) :
    HeapInv { m with busy := busy } (Function.update γ t { γ t with uses := x }) := by
  have hh := h.handles
  have hfresh : ∀ u, (Function.update γ t { γ t with uses := x } u).fresh = (γ u).fresh :=
    same_field HeapGhost.fresh rfl
  have hhandles : Handles { m with busy := busy } (Function.update γ t { γ t with uses := x }) := by
    refine ⟨hh.nodup, hbusy, hnodup, fun u hp' hu => ?_, fun u y hy hc => ?_, fun u hp' => ?_,
      fun u v hp' => ?_⟩
    · by_cases hut : u = t
      · subst hut
        rw [Function.update_self] at hu
        exact hx hp' hu
      · rw [Function.update_of_ne hut] at hu
        exact hh.uses u hp' hu
    · by_cases hut : u = t
      · subst hut
        rw [Function.update_self] at hy
        cases hmine.symm.trans hy
      · rw [Function.update_of_ne hut] at hy hc ⊢
        exact hh.uncounted u y hy hc
    · rw [hfresh]
      exact hh.fresh u hp'
    · rw [hfresh, hfresh]
      exact hh.fresh_inj u v hp'
  constructor
  · exact h.registers.of_same ⟨rfl, rfl, rfl, rfl, rfl, rfl, id⟩ ⟨rfl, rfl, rfl, rfl, rfl⟩
  · intro hp
    refine (h.counted hp).of_step rfl (refs_of_step Iff.rfl fun y => ?_) Iff.rfl
    cases y <;> exact Iff.rfl
  · exact hhandles
  · exact h.listed
  · exact h.heaps.of_step ⟨fun _ => rfl, rfl, rfl⟩ rfl rfl rfl
  · exact h.theaps.of_step ⟨fun _ => rfl, rfl, rfl⟩ rfl rfl rfl rfl
  · exact h.fault

/-- A thread uses a handle. -/
theorem HeapInv.use (h : HeapInv m γ) (hidle : HeapIdle (γ t)) (hs : m.use t hp = some m') :
    HeapInv m' (Function.update γ t { γ t with uses := some hp }) := by
  unfold HeapMem.use at hs
  split at hs
  · next hmem =>
    cases hs
    have hh := h.handles
    apply h.of_use hidle.mine
    · refine List.nodup_cons.mpr ⟨?_, hh.busy_nodup⟩
      rw [hh.busy, hidle.uses]
      simp
    · intro u hp'
      rw [List.mem_cons]
      by_cases hu : u = t
      · subst hu
        rw [Function.update_self, hh.busy, hidle.uses]
        simp [eq_comm]
      · rw [Function.update_of_ne hu, ← hh.busy]
        simp [hu]
    · rintro _ ⟨⟩
      exact hmem
  · cases hs

/-- A use of a handle ends. -/
theorem HeapInv.endUse (h : HeapInv m γ) (hidle : HeapIdle { γ t with uses := none })
    (huses : (γ t).uses = some hp) :
    HeapInv { m with busy := m.busy.erase (t, hp) }
      (Function.update γ t { γ t with uses := none }) := by
  have hmine : (γ t).mine = none := hidle.mine
  have hh := h.handles
  apply h.of_use hmine (hh.busy_nodup.erase _)
  · intro u hp'
    rw [hh.busy_nodup.mem_erase_iff, hh.busy]
    by_cases hu : u = t
    · subst hu
      rw [Function.update_self, huses]
      simp [eq_comm]
    · rw [Function.update_of_ne hu]
      simp [hu]
  · rintro _ ⟨⟩

/-- The exit of a thread begins. -/
theorem HeapInv.exit (h : HeapInv m γ) (hidle : HeapIdle (γ t)) :
    HeapInv { m with exited := Function.update m.exited t true }
      (Function.update γ t { γ t with exiting := true, alive := false }) := by
  have hv := h.registers.view t
  apply h.of_registers rfl
  · refine ⟨fun hp x => ?_, rfl, rfl, rfl⟩
    cases x <;> exact Iff.rfl
  · intro x hx
    cases hidle.mine.symm.trans hx
  · apply h.registers.of_step
    · exact ⟨fun _ _ h _ => ⟨h, rfl, rfl⟩, fun _ _ h _ => h, fun _ _ => rfl,
        fun _ hu => Function.update_of_ne hu _ _⟩
    · refine ⟨hv.chain, hv.registry, hv.regs, hv.mine, hv.ready, hv.nodup, ?_, ?_⟩
      · rintro _ ⟨⟩
      · rintro ⟨⟩
    · rintro tp r hr rfl
      exact h.registers.owner tp r hr

/-- The exit of a thread ends. -/
theorem HeapInv.endExit (h : HeapInv m γ)
    (hidle : HeapIdle { γ t with registered := true, exiting := false })
    (hreg : (γ t).registered = false) (hregs : (γ t).regs = []) :
    HeapInv m (Function.update γ t { γ t with registered := true, exiting := false }) := by
  have hv := h.registers.view t
  have hmine : (γ t).mine = none := hidle.mine
  apply h.of_registers rfl
  · refine ⟨fun hp x => ?_, rfl, rfl, rfl⟩
    cases x <;> exact Iff.rfl
  · intro x hx
    cases hmine.symm.trans hx
  · apply h.registers.of_step
    · exact ⟨fun _ _ h _ => ⟨h, rfl, rfl⟩, fun _ _ h _ => h, fun _ _ => rfl, fun _ _ => rfl⟩
    · refine ⟨hv.chain, ?_, hv.regs, hv.mine, hv.ready, hv.nodup, fun _ _ => hregs, hv.alive⟩
      have hnone := hv.registry
      rw [hreg] at hnone
      rw [hnone]
      show none = if true = true then (γ t).head else none
      rw [HeapGhost.head, hregs]
      rfl
    · rintro tp r hr rfl
      exact h.registers.owner tp r hr

/-- A heap that is given up is held by the thread that deletes it. -/
theorem Counted.giveUp (h : Counted m γ hp) (hmem : hp ∈ m.handles) (hidle : HeapIdle (γ t))
    (hnodup : m.handles.Nodup) {seqs : List ℕ} :
    Counted { m with handles := m.handles.erase hp, deleted := seqs }
      (Function.update γ t { γ t with holds := some hp }) hp := by
  have hnew : Ref.of t .held ∉ Refs m γ hp := by
    intro hc
    cases hidle.holds.symm.trans hc
  have hhandle : Ref.handle ∈ Refs m γ hp := hmem
  have hfrees : ∀ u, (Function.update γ t { γ t with holds := some hp } u).frees = (γ u).frees := by
    intro u
    by_cases hu : u = t
    · subst hu
      rw [Function.update_self]
    · rw [Function.update_of_ne hu]
  constructor
  · intro r hr
    apply (h.count r hr).replace hhandle hnew
    intro z
    cases z with
    | handle =>
      show hp ∈ m.handles.erase hp ↔ Ref.handle = .of t .held ∨ hp ∈ m.handles ∧ Ref.handle ≠ .handle
      simp [hnodup.mem_erase_iff]
    | of u x =>
      show (Function.update γ t { γ t with holds := some hp } u).Holds hp x ↔
        Ref.of u x = .of t .held ∨ (γ u).Holds hp x ∧ Ref.of u x ≠ .handle
      by_cases hu : u = t
      · subst hu
        rw [Function.update_self]
        cases x <;> simp [HeapGhost.Holds]
      · rw [Function.update_of_ne hu]
        simp [hu]
  · exact fun _ _ => h.live _ hhandle
  · intro r hr hzero
    exact absurd hzero (h.refcount_ne_zero hhandle hr)
  · intro u hu
    rw [hfrees] at hu
    exact h.frees u hu
  · intro u v hu hv
    rw [hfrees] at hu hv
    exact h.frees_inj u v hu hv

/-- A handle is given to `delete` or `destroy`. -/
theorem HeapInv.giveUp (h : HeapInv m γ) (hidle : HeapIdle (γ t)) (hs : m.giveUp hp = some m') :
    HeapInv m' (Function.update γ t { γ t with holds := some hp }) := by
  unfold HeapMem.giveUp at hs
  split at hs
  · next r hr =>
    split at hs
    · next hcond =>
      obtain ⟨hmem, hbusy⟩ := hcond
      cases hs
      have hnodup := h.handles.nodup
      have hne_of : ∀ hp', hp' ≠ hp → (hp' ∈ m.handles.erase hp ↔ hp' ∈ m.handles) := by
        intro hp' hne
        rw [hnodup.mem_erase_iff]
        simp [hne]
      have hnot : hp ∉ m.handles.erase hp := by
        rw [hnodup.mem_erase_iff]
        simp
      have hfresh : ∀ u, (Function.update γ t { γ t with holds := some hp } u).fresh =
          (γ u).fresh := same_field HeapGhost.fresh rfl
      have huses : ∀ u, (Function.update γ t { γ t with holds := some hp } u).uses = (γ u).uses :=
        same_field HeapGhost.uses rfl
      have hmine : ∀ u, (Function.update γ t { γ t with holds := some hp } u).mine = (γ u).mine :=
        same_field HeapGhost.mine rfl
      have hstage : ∀ u, (Function.update γ t { γ t with holds := some hp } u).stage =
          (γ u).stage := same_field HeapGhost.stage rfl
      constructor
      · exact h.registers.of_same ⟨rfl, rfl, rfl, rfl, rfl, rfl, id⟩ ⟨rfl, rfl, rfl, rfl, rfl⟩
      · intro hp'
        by_cases hne : hp' = hp
        · subst hne
          exact (h.counted hp').giveUp hmem hidle hnodup
        · refine (h.counted hp').of_step rfl (refs_of_step (hne_of hp' hne) fun x => ?_) Iff.rfl
          cases x with
          | held => simp [HeapGhost.Holds, hidle.holds, Ne.symm hne]
          | theap tp => exact Iff.rfl
          | torn => exact Iff.rfl
          | fresh => exact Iff.rfl
      · have hh := h.handles
        refine ⟨hnodup.erase hp, fun u hp' => ?_, hh.busy_nodup, fun u hp' hu => ?_, fun u x => ?_,
          fun u hp' hu hc => ?_, fun u v hp' => ?_⟩
        · rw [huses]
          exact hh.busy u hp'
        · rw [huses] at hu
          have hne : hp' ≠ hp := hbusy (u, hp') ((hh.busy u hp').mpr hu)
          exact (hne_of hp' hne).mpr (hh.uses u hp' hu)
        · rw [hmine, hstage, huses]
          exact hh.uncounted u x
        · rw [hfresh] at hu
          exact hh.fresh u hp' hu (List.mem_of_mem_erase hc)
        · rw [hfresh, hfresh]
          exact hh.fresh_inj u v hp'
      · exact h.listed
      · have hrec := h.heaps
        have hseq : ∀ hp' r', m.heap hp' = some r' → hp' ≠ hp → r'.heapSeq ≠ r.heapSeq :=
          fun hp' r' hr' hne heq => hne (hrec.inj hp' hp r' r hr' hr heq)
        refine ⟨hrec.lt, hrec.inj, hrec.not_freed, hrec.freed_lt, hrec.freed_nodup,
          fun seq hmem => List.mem_cons_of_mem _ (hrec.freed_deleted seq hmem), hrec.all,
          fun hp' r' hr' => ?_, fun hp' r' hr' hor => ?_, fun seq hmem => ?_⟩
        · simp only [hfresh]
          by_cases hne : hp' = hp
          · subst hne
            cases hr.symm.trans hr'
            exact Or.inl List.mem_cons_self
          · rw [hne_of hp' hne]
            exact (hrec.deleted hp' r' hr').imp_left (List.mem_cons_of_mem _)
        · simp only [hfresh] at hor
          have hne : hp' ≠ hp := by
            rintro rfl
            rcases hor with hc | ⟨u, hu⟩
            · exact hnot hc
            · exact h.handles.fresh u hp' hu hmem
          rw [hne_of hp' hne] at hor
          rw [List.mem_cons, not_or]
          exact ⟨hseq hp' r' hr' hne, hrec.not_deleted hp' r' hr' hor⟩
        · rcases List.mem_cons.mp hmem with rfl | hmem
          · exact hrec.lt hp r hr
          · exact hrec.deleted_lt seq hmem
      · exact h.theaps.of_step ⟨fun _ => rfl, rfl, rfl⟩ rfl rfl rfl rfl
      · exact h.fault
    · cases hs
  · cases hs

/-! ## The return of an operation -/

/-- The handle of a new heap takes the place of the reference of its creator. -/
theorem Counted.handOut (h : Counted m γ hp) (hfresh : (γ t).fresh = some hp)
    (hnot : hp ∉ m.handles) :
    Counted { m with handles := hp :: m.handles }
      (Function.update γ t { γ t with fresh := none }) hp := by
  have hmem : Ref.of t .fresh ∈ Refs m γ hp := hfresh
  have hfrees : ∀ u, (Function.update γ t { γ t with fresh := none } u).frees = (γ u).frees :=
    same_field HeapGhost.frees rfl
  constructor
  · intro r hr
    apply (h.count r hr).replace hmem (show Ref.handle ∉ Refs m γ hp from hnot)
    intro z
    cases z with
    | handle => exact iff_of_true List.mem_cons_self (Or.inl rfl)
    | of u x =>
      show (Function.update γ t { γ t with fresh := none } u).Holds hp x ↔
        Ref.of u x = .handle ∨ (γ u).Holds hp x ∧ Ref.of u x ≠ .of t .fresh
      by_cases hu : u = t
      · subst hu
        rw [Function.update_self]
        cases x <;> simp [HeapGhost.Holds]
      · rw [Function.update_of_ne hu]
        simp [hu]
  · exact fun _ _ => h.live _ hmem
  · intro r hr hzero
    exact absurd hzero (h.refcount_ne_zero hmem hr)
  · intro u hu
    rw [hfrees] at hu
    exact h.frees u hu
  · intro u v hu hv
    rw [hfrees] at hu hv
    exact h.frees_inj u v hu hv

/-- A new heap is handed out. -/
theorem HeapInv.handOut (h : HeapInv m γ) (hfresh : (γ t).fresh = some hp) :
    HeapInv { m with handles := hp :: m.handles }
      (Function.update γ t { γ t with fresh := none }) := by
  have hnot := h.handles.fresh t hp hfresh
  have hne_of : ∀ hp', hp' ≠ hp → (hp' ∈ hp :: m.handles ↔ hp' ∈ m.handles) := by
    intro hp' hne
    simp [hne]
  have huses : ∀ u, (Function.update γ t { γ t with fresh := none } u).uses = (γ u).uses :=
    same_field HeapGhost.uses rfl
  have hmine : ∀ u, (Function.update γ t { γ t with fresh := none } u).mine = (γ u).mine :=
    same_field HeapGhost.mine rfl
  have hstage : ∀ u, (Function.update γ t { γ t with fresh := none } u).stage = (γ u).stage :=
    same_field HeapGhost.stage rfl
  -- the other heaps that have been created
  have hother : ∀ u hp', (Function.update γ t { γ t with fresh := none } u).fresh = some hp' ↔
      u ≠ t ∧ (γ u).fresh = some hp' := by
    intro u hp'
    by_cases hu : u = t
    · subst hu
      simp
    · simp [hu]
  have hne_fresh : ∀ u hp', u ≠ t → (γ u).fresh = some hp' → hp' ≠ hp := by
    rintro u hp' hut hu rfl
    exact hut (h.handles.fresh_inj u t hp' hu hfresh)
  constructor
  · exact h.registers.of_same ⟨rfl, rfl, rfl, rfl, rfl, rfl, id⟩ ⟨rfl, rfl, rfl, rfl, rfl⟩
  · intro hp'
    by_cases hne : hp' = hp
    · subst hne
      exact (h.counted hp').handOut hfresh hnot
    · refine (h.counted hp').of_step rfl (refs_of_step (hne_of hp' hne) fun x => ?_) Iff.rfl
      cases x with
      | fresh => simp [HeapGhost.Holds, hfresh, Ne.symm hne]
      | theap tp => exact Iff.rfl
      | torn => exact Iff.rfl
      | held => exact Iff.rfl
  · have hh := h.handles
    refine ⟨List.nodup_cons.mpr ⟨hnot, hh.nodup⟩, fun u hp' => ?_, hh.busy_nodup,
      fun u hp' hu => ?_, fun u x => ?_, fun u hp' hu hc => ?_, fun u v hp' hu hv => ?_⟩
    · rw [huses]
      exact hh.busy u hp'
    · rw [huses] at hu
      exact List.mem_cons_of_mem hp (hh.uses u hp' hu)
    · rw [hmine, hstage, huses]
      exact hh.uncounted u x
    · obtain ⟨hut, hu⟩ := (hother u hp').mp hu
      rcases List.mem_cons.mp hc with rfl | hc
      · exact hne_fresh u hp' hut hu rfl
      · exact hh.fresh u hp' hu hc
    · exact hh.fresh_inj u v hp' ((hother u hp').mp hu).2 ((hother v hp').mp hv).2
  · exact h.listed
  · have hrec := h.heaps
    refine ⟨hrec.lt, hrec.inj, hrec.not_freed, hrec.freed_lt, hrec.freed_nodup, hrec.freed_deleted,
      hrec.all, fun hp' r hr => ?_, fun hp' r hr hor => ?_, hrec.deleted_lt⟩
    · by_cases hne : hp' = hp
      · exact Or.inr (Or.inl (hne ▸ List.mem_cons_self))
      · rw [hne_of hp' hne]
        apply (hrec.deleted hp' r hr).imp_right
        apply Or.imp_right
        rintro ⟨u, hu⟩
        refine ⟨u, (hother u hp').mpr ⟨?_, hu⟩⟩
        rintro rfl
        cases hfresh.symm.trans hu
        exact hne rfl
    · apply hrec.not_deleted hp' r hr
      rcases hor with hmem | ⟨u, hu⟩
      · rcases List.mem_cons.mp hmem with rfl | hmem
        · exact Or.inr ⟨t, hfresh⟩
        · exact Or.inl hmem
      · exact Or.inr ⟨u, ((hother u hp').mp hu).2⟩
  · exact h.theaps.of_step ⟨fun _ => rfl, rfl, rfl⟩ rfl rfl rfl rfl
  · exact h.fault

/-! ## Runs -/

/-- The ghost of a thread that has done nothing. -/
def HeapGhost.init : HeapGhost where
  regs := []
  registered := true
  exiting := false
  alive := false
  mine := none
  stage := .created
  owes := none
  fresh := none
  holds := none
  frees := none
  uses := none

theorem HeapInv.init : HeapInv .init fun _ => .init := by
  have hheap : ∀ hp r, HeapMem.init.heap hp ≠ some r := by
    rintro hp r ⟨⟩
  have htheap : ∀ tp r, HeapMem.init.theap tp ≠ some r := by
    rintro tp r ⟨⟩
  have hrefs : ∀ hp x, x ∉ Refs .init (fun _ => HeapGhost.init) hp := by
    intro hp x hx
    cases x with
    | handle => cases hx
    | of u x =>
      cases x with
      | theap tp => rcases hx with hx | ⟨⟨⟩, -⟩; cases hx
      | torn => cases hx
      | fresh => cases hx
      | held => cases hx
  constructor
  · constructor
    · intro t
      refine ⟨rfl, rfl, ?_, ?_, ?_, List.nodup_nil, fun _ _ => rfl, ?_⟩
      · rintro _ ⟨⟩
      · rintro _ ⟨⟩
      · rintro _ ⟨⟩
      · rintro ⟨⟩
    · exact fun tp r hr => absurd hr (htheap tp r)
  · intro hp
    refine ⟨fun r hr => absurd hr (hheap hp r), fun x hx => absurd hx (hrefs hp x),
      fun r hr => absurd hr (hheap hp r), ?_, ?_⟩
    · rintro _ ⟨⟩
    · rintro _ _ ⟨⟩
  · refine ⟨List.nodup_nil, ?_, List.nodup_nil, ?_, ?_, ?_, ?_⟩
    · intro t hp
      exact iff_of_false List.not_mem_nil (by rintro ⟨⟩)
    · rintro _ _ ⟨⟩
    · rintro _ _ ⟨⟩
    · rintro _ _ ⟨⟩
    · rintro _ _ _ ⟨⟩
  · exact fun hp r hr => absurd hr (hheap hp r)
  · refine ⟨fun hp r hr => absurd hr (hheap hp r), fun hp _ r _ hr => absurd hr (hheap hp r),
      fun hp r hr => absurd hr (hheap hp r), fun _ h => absurd h List.not_mem_nil, List.nodup_nil,
      fun _ h => absurd h List.not_mem_nil, ?_, fun hp r hr => absurd hr (hheap hp r),
      fun hp r hr => absurd hr (hheap hp r), fun _ h => absurd h List.not_mem_nil⟩
    intro seq hpos hlt
    have hlt' : seq < 1 := hlt
    omega
  · exact ⟨fun _ => Or.inl rfl, fun tp r hr => absurd hr (htheap tp r),
      fun tp r hr => absurd hr (htheap tp r), fun tp _ r _ hr => absurd hr (htheap tp r),
      fun tp r hr => absurd hr (htheap tp r), fun _ h => absurd h (Nat.not_lt_zero _),
      fun tp r hr => absurd hr (htheap tp r), fun _ h => absurd h List.not_mem_nil, List.nodup_nil,
      fun _ h => absurd h (Nat.not_lt_zero _), fun _ h => absurd h (Nat.not_lt_zero _)⟩
  · rfl

theorem heapSystem_start {o : HeapOp} (hi : HeapInv m γ) (hidle : HeapIdle (γ t))
    (hs : heapSystem.start t o m = some m') : ∃ g, HeapInv m' (Function.update γ t g) ∧
      HeapSafe t (heapSystem.prog t o) g (heapPost o) := by
  -- what `delete` and `destroy` leave
  have hdeleted : ∀ {hp : Addr} {g' : HeapGhost},
      SameDuties { γ t with holds := none } g' → g'.mine = none → HeapIdle g' := by
    intro hp g' hduties hmine
    exact ⟨hduties.registered.trans hidle.registered, hduties.exiting.trans hidle.exiting, hmine,
      hduties.owes.trans hidle.owes, hduties.fresh.trans hidle.fresh, hduties.holds,
      hduties.frees.trans hidle.frees, hduties.uses.trans hidle.uses⟩
  cases o with
  | newBoxed =>
    cases hs
    refine ⟨γ t, by rwa [Function.update_eq_self], ?_⟩
    apply HeapSafe.newHeap hidle.fresh
    · exact Safe.ret ⟨{ hidle with fresh := rfl }, hidle.fresh⟩
    · exact fun a => Safe.ret ⟨{ hidle with fresh := rfl }, rfl⟩
  | alloc hp =>
    refine ⟨_, hi.use hidle hs, ?_⟩
    apply (Heap.theapFor_safe (g := { γ t with uses := some hp }) hidle.registered hidle.mine
      rfl).mono
    rintro r g' ⟨hduties, hmine, hmem⟩
    exact ⟨⟨hduties.registered.trans hidle.registered, hduties.exiting.trans hidle.exiting, hmine,
      hduties.owes.trans hidle.owes, hduties.fresh.trans hidle.fresh,
      hduties.holds.trans hidle.holds, hduties.frees.trans hidle.frees, rfl⟩, hduties.uses, hmem⟩
  | delete hp =>
    refine ⟨_, hi.giveUp hidle hs, ?_⟩
    apply (Heap.delete_safe (g := { γ t with holds := some hp }) (fun _ _ => Heap.teardownTheap_safe)
      hidle.registered hidle.mine hidle.owes hidle.frees rfl).mono
    rintro _ g' ⟨hduties, hmine⟩
    exact @hdeleted hp _ ⟨hduties.registered, hduties.exiting, hduties.owes, hduties.fresh,
      hduties.holds, hduties.frees, hduties.uses⟩ hmine
  | destroy hp =>
    refine ⟨_, hi.giveUp hidle hs, ?_⟩
    apply (Heap.delete_safe (g := { γ t with holds := some hp })
      (fun _ _ => Heap.teardownTheapBulk_safe) hidle.registered hidle.mine hidle.owes hidle.frees
      rfl).mono
    rintro _ g' ⟨hduties, hmine⟩
    exact @hdeleted hp _ ⟨hduties.registered, hduties.exiting, hduties.owes, hduties.fresh,
      hduties.holds, hduties.frees, hduties.uses⟩ hmine
  | exit =>
    simp only [heapSystem] at hs
    split at hs
    · cases hs
    · cases hs
      refine ⟨_, hi.exit hidle, ?_⟩
      apply (Heap.dropRegistry_safe (g := { γ t with exiting := true, alive := false })
        hidle.registered hidle.mine hidle.owes hidle.frees).mono
      rintro _ g' ⟨hduties, hmine, hregs⟩
      exact ⟨⟨rfl, rfl, hmine, hduties.owes.trans hidle.owes, hduties.fresh.trans hidle.fresh,
        hduties.holds.trans hidle.holds, hduties.frees.trans hidle.frees,
        hduties.uses.trans hidle.uses⟩, hduties.registered, hregs⟩

theorem heapSystem_finish {o : HeapOp} {a : o.Res} (hi : HeapInv m γ)
    (hpost : heapPost o a (γ t)) :
    ∃ g, HeapInv (heapSystem.finish t o a m) (Function.update γ t g) ∧ HeapIdle g := by
  cases o with
  | newBoxed =>
    obtain ⟨hidle, hfresh⟩ := hpost
    cases a with
    | none =>
      refine ⟨γ t, by rw [Function.update_eq_self]; exact hi, ?_⟩
      exact ⟨hidle.registered, hidle.exiting, hidle.mine, hidle.owes, hfresh, hidle.holds,
        hidle.frees, hidle.uses⟩
    | some hp => exact ⟨_, hi.handOut hfresh, hidle⟩
  | alloc hp => exact ⟨_, hi.endUse hpost.1 hpost.2.1, hpost.1⟩
  | delete hp => exact ⟨γ t, by rw [Function.update_eq_self]; exact hi, hpost⟩
  | destroy hp => exact ⟨γ t, by rw [Function.update_eq_self]; exact hi, hpost⟩
  | exit => exact ⟨_, hi.endExit hpost.1 hpost.2.1 hpost.2.2, hpost.1⟩

/-- The reachable configurations of heaps and theaps, from when no block is allocated. -/
abbrev HeapReachable (c : Config HeapAct ℕ HeapOp HeapOp.Res HeapMem) : Prop :=
  heapSystem.Reachable (· = .init) System.anyMove c

/-- The invariant holds in every reachable configuration, and what is left of every running
operation is safe. -/
theorem heapSystem_reachable {c : Config HeapAct ℕ HeapOp HeapOp.Res HeapMem}
    (h : HeapReachable c) : ∃ γ, HeapInv c.mem γ ∧
      ∀ t, heapOutline.Thread heapSystem.toMachine (fun _ => HeapIdle) (fun _ => heapPost) t (γ t)
        (c.thread t) := by
  apply Outline.reachable (O := heapOutline) _ _ _ _ h
  · rintro _ rfl
    exact ⟨fun _ => .init, .init, fun _ => ⟨rfl, rfl, rfl, rfl, rfl, rfl, rfl, rfl⟩⟩
  · intro t o s s' γ hi hidle hs
    exact heapSystem_start hi hidle hs
  · intro t o a s γ hi hpost
    exact heapSystem_finish hi hpost
  · intro _ _ _ _ _ _ _ _ _ _ _
    trivial

end MimallocRs
