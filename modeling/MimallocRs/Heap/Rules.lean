import MimallocRs.Heap.Release

/-!
# Rules for the events on heaps and theaps

One rule for each event: what the thread has to know before it, and what it knows afterwards.
-/

namespace MimallocRs

open Interleave

variable {m m' : HeapMem} {γ : ℕ → HeapGhost} {t u : ℕ} {g g' : HeapGhost} {a hp tp : Addr}

/-! ## Loads, and the writes of the registry -/

/-- `Safe` for the programs on heaps and theaps. -/
abbrev HeapSafe {α : Type} (t : ℕ) (p : Prog HeapAct α) (g : HeapGhost) (Q : α → HeapGhost → Prop) :
    Prop :=
  Safe heapSystem.toMachine heapOutline t p g Q

/-- The theaps in the registry of a thread, and the one it is creating or tearing down. -/
def HeapGhost.Owns (g : HeapGhost) (x : Addr × Addr) : Prop := x ∈ g.regs ∨ g.mine = some x

theorem RegView.owns (h : RegView m t g) {x : Addr × Addr} (hx : g.Owns x) :
    ∃ r, m.theap x.1 = some r ∧ r.tid = t ∧ r.heap = x.2 := by
  cases hx with
  | inl hx => exact (h.regs x hx).2
  | inr hx => exact (h.mine x hx).2.2

theorem SameHolds.refl : SameHolds g g := ⟨fun _ _ => Iff.rfl, rfl, rfl, rfl⟩

/-- The thread takes the theap `x` of its registry. -/
def HeapGhost.take (g : HeapGhost) (l : List (Addr × Addr)) (x : Addr × Addr) : HeapGhost :=
  { g with regs := l, mine := some x, stage := .listed }

/-- The thread puts the theap that it has created into its registry. -/
def HeapGhost.put (g : HeapGhost) (x : Addr × Addr) : HeapGhost :=
  { g with regs := x :: g.regs, mine := none }

theorem HeapGhost.sameHolds_take {l l' : List (Addr × Addr)} {x : Addr × Addr}
    (hregs : g.regs = l ++ x :: l') (hmine : g.mine = none) : SameHolds g (g.take (l ++ l') x) := by
  refine ⟨fun hp y => ?_, rfl, rfl, rfl⟩
  cases y with
  | theap tp => simp [Holds, take, hregs, hmine, eq_comm, or_comm, or_left_comm]
  | torn => exact Iff.rfl
  | fresh => exact Iff.rfl
  | held => exact Iff.rfl

theorem HeapGhost.sameHolds_put {x : Addr × Addr} (hmine : g.mine = some x)
    (hstage : g.stage = .ready) : SameHolds g (g.put x) := by
  refine ⟨fun hp y => ?_, rfl, rfl, rfl⟩
  cases y with
  | theap tp => simp [Holds, put, hmine, hstage, eq_comm, or_comm]
  | torn => exact Iff.rfl
  | fresh => exact Iff.rfl
  | held => exact Iff.rfl

/-- The thread writes the link of one of its theaps. -/
theorem OthersKept.setTnext {r : TheapRec} (hr : m.theap tp = some r) (ht : r.tid = t)
    {v : Option Addr} : OthersKept t m { m with tnext := Function.update m.tnext tp v } := by
  refine ⟨fun tp' r' hr' hne => ⟨hr', rfl, ?_⟩, fun _ _ h _ => h, fun _ _ => rfl, fun _ _ => rfl⟩
  apply Function.update_of_ne
  rintro rfl
  cases hr.symm.trans hr'
  exact hne ht

/-- The thread writes its registry. -/
theorem OthersKept.setRegistry {v : Option Addr} :
    OthersKept t m { m with registry := Function.update m.registry t v } :=
  ⟨fun _ _ h _ => ⟨h, rfl, rfl⟩, fun _ _ h _ => h, fun _ hu => Function.update_of_ne hu _ _,
    fun _ _ => rfl⟩

/-- What a thread knows after it has taken a theap off its registry. -/
theorem RegView.take {x : Addr × Addr} {l l' : List (Addr × Addr)} {next : Addr → Option Addr}
    {head : ℕ → Option Addr} (h : RegView m t g) (hregs : g.regs = l ++ x :: l')
    (hchain : Chain next (g.take (l ++ l') x).head ((l ++ l').map Prod.fst))
    (hhead : head t = if g.registered then (g.take (l ++ l') x).head else none) :
    RegView { m with tnext := next, registry := head } t (g.take (l ++ l') x) := by
  have hsub : ∀ y ∈ l ++ l', y ∈ g.regs := by
    intro y hy
    rw [hregs]
    simp only [List.mem_append, List.mem_cons] at hy ⊢
    tauto
  have hnodup := h.nodup
  rw [hregs, List.map_append, List.map_cons] at hnodup
  obtain ⟨hl, hr⟩ := h.regs x (by simp [hregs])
  constructor
  · exact hchain
  · exact hhead
  · exact fun y hy => h.regs y (hsub y hy)
  · rintro _ ⟨⟩
    refine ⟨hl, ?_, hr⟩
    show x.2 ∉ (l ++ l').map Prod.snd
    rw [List.map_append]
    exact (List.nodup_middle.mp hnodup).notMem
  · rintro _ _ ⟨⟩
  · show ((l ++ l').map Prod.snd).Nodup
    rw [List.map_append]
    exact (List.nodup_middle.mp hnodup).of_cons
  · intro hexited hexiting
    have hnil := h.exited hexited hexiting
    rw [hregs] at hnil
    simp at hnil
  · exact h.alive

namespace HeapSafe

variable {α β : Type} {Q : α → HeapGhost → Prop} {x : Addr × Addr}

theorem event {e : HeapAct β} {k : β → Prog HeapAct α}
    (h : ∀ m γ choice b m', HeapInv m γ → γ t = g → m.exec t e choice = some (b, m') →
      ∃ g', HeapInv m' (Function.update γ t g') ∧ HeapSafe t (k b) g' Q) :
    HeapSafe t (.act e k) g Q := by
  apply Safe.act
  intro m γ choice b m' hi hg _ hex
  exact ⟨trivial, h m γ choice b m' hi hg hex⟩

/-- An event that changes the registry of the thread and the theaps that it owns. -/
theorem registers {e : HeapAct β} {k : β → Prog HeapAct α}
    (h : ∀ m γ choice b m', HeapInv m γ → γ t = g → RegView m t g →
      m.exec t e choice = some (b, m') → ∃ g',
        m' = { m with tnext := m'.tnext, registry := m'.registry, exited := m'.exited } ∧
        OthersKept t m m' ∧ SameHolds g g' ∧ (∀ x, g.Owns x → g'.Owns x) ∧
        (∀ x, g'.mine = some x → g'.stage = .created → g'.uses = some x.2) ∧ RegView m' t g' ∧
        HeapSafe t (k b) g' Q) :
    HeapSafe t (.act e k) g Q := by
  apply event
  rintro m γ choice b m' hi rfl hex
  obtain ⟨g', hm, hk, hg, howns, hmine, hv, hsafe⟩ :=
    h m γ choice b m' hi rfl (hi.registers.view t) hex
  refine ⟨g', hi.of_registers hm hg hmine (hi.registers.of_step hk hv ?_), hsafe⟩
  rintro tp r hr rfl
  rw [hm] at hr
  exact howns _ (hi.registers.owner tp r hr)

/-- A load. -/
theorem read {e : HeapAct β} {k : β → Prog HeapAct α}
    (h : ∀ m choice b m', RegView m t g → m.exec t e choice = some (b, m') →
      m' = m ∧ HeapSafe t (k b) g Q) : HeapSafe t (.act e k) g Q := by
  apply registers
  rintro m γ choice b m' hi rfl hv hex
  obtain ⟨rfl, hsafe⟩ := h m choice b m' hv hex
  refine ⟨γ t, rfl, ⟨fun _ _ h _ => ⟨h, rfl, rfl⟩, fun _ _ h _ => h, fun _ _ => rfl, fun _ _ => rfl⟩,
    .refl, fun _ h => h, hi.handles.uncounted t, hv, hsafe⟩

theorem owningHeap {k : Addr → Prog HeapAct α} (hx : g.Owns x) (h : HeapSafe t (k x.2) g Q) :
    HeapSafe t (.act (.owningHeap x.1 id) k) g Q := by
  apply read
  intro m choice b m' hv hex
  obtain ⟨r, hr, -, hh⟩ := hv.owns hx
  simp only [HeapMem.exec, hr] at hex
  cases hex
  exact ⟨rfl, hh ▸ h⟩

theorem linked {k : Bool → Prog HeapAct α} (hx : g.mine = some x)
    (h : HeapSafe t (k g.stage.isListed) g Q) : HeapSafe t (.act (.linked x.1 id) k) g Q := by
  apply read
  intro m choice b m' hv hex
  obtain ⟨hl, -, r, hr, -⟩ := hv.mine x hx
  simp only [HeapMem.exec, hr] at hex
  cases hex
  exact ⟨rfl, hl ▸ h⟩

theorem tnext {k : Option Addr → Prog HeapAct α} {l l' : List (Addr × Addr)}
    (hregs : g.regs = l ++ x :: l') (h : HeapSafe t (k (l'.map Prod.fst).head?) g Q) :
    HeapSafe t (.act (.tnext x.1 id) k) g Q := by
  apply read
  intro m choice b m' hv hex
  have hx : x ∈ g.regs := by simp [hregs]
  obtain ⟨r, hr, -⟩ := hv.owns (Or.inl hx)
  simp only [HeapMem.exec, hr] at hex
  cases hex
  have hchain := hv.chain
  rw [hregs, List.map_append, List.map_cons] at hchain
  exact ⟨rfl, hchain.behind.head_eq ▸ h⟩

theorem registry {k : Option Addr → Prog HeapAct α} (hreg : g.registered = true)
    (h : HeapSafe t (k g.head) g Q) : HeapSafe t (.act (.registry id) k) g Q := by
  apply read
  intro m choice b m' hv hex
  simp only [HeapMem.exec] at hex
  cases hex
  have hhead := hv.registry
  rw [if_pos hreg] at hhead
  exact ⟨rfl, hhead ▸ h⟩

/-- The thread has not exited. -/
theorem tryWith {k : Bool → Prog HeapAct α} (hyes : HeapSafe t (k true) { g with alive := true } Q)
    (hno : HeapSafe t (k false) g Q) : HeapSafe t (.act (.tryWith id) k) g Q := by
  apply registers
  rintro m γ choice b m' hi rfl hv hex
  simp only [HeapMem.exec] at hex
  cases hex
  have hk : OthersKept t m m :=
    ⟨fun _ _ h _ => ⟨h, rfl, rfl⟩, fun _ _ h _ => h, fun _ _ => rfl, fun _ _ => rfl⟩
  cases hex : m.exited t with
  | false =>
    refine ⟨{ γ t with alive := true }, rfl, hk, ⟨fun _ x => ?_, rfl, rfl, rfl⟩, fun _ h => h,
      hi.handles.uncounted t, ?_, hyes⟩
    · cases x <;> exact Iff.rfl
    · exact ⟨hv.chain, hv.registry, hv.regs, hv.mine, hv.ready, hv.nodup, hv.exited, fun _ => hex⟩
  | true =>
    exact ⟨γ t, rfl, hk, .refl, fun _ h => h, hi.handles.uncounted t, hv, hno⟩

/-- The theap that has been created is linked to the registry. -/
theorem setTnext {k : Unit → Prog HeapAct α} (hx : g.mine = some x) (hstage : g.stage = .listed)
    (h : HeapSafe t (k ()) { g with stage := .ready } Q) :
    HeapSafe t (.act (.setTnext x.1 g.head id) k) g Q := by
  apply registers
  rintro m γ choice b m' hi rfl hv hex
  obtain ⟨hl, hnot, r, hr, ht, hh⟩ := hv.mine x hx
  simp only [HeapMem.exec, hr] at hex
  cases hex
  refine ⟨{ γ t with stage := .ready }, rfl, .setTnext hr ht, ⟨fun _ y => ?_, rfl, rfl, rfl⟩,
    fun _ h => h, (fun _ _ h => by cases h), ?_, h⟩
  · cases y with
    | theap tp => simp [HeapGhost.Holds, hstage]
    | torn => exact Iff.rfl
    | fresh => exact Iff.rfl
    | held => exact Iff.rfl
  · refine ⟨hv.chain.update (hv.mine_notMem hx), hv.registry, hv.regs, ?_, ?_, hv.nodup, hv.exited,
      hv.alive⟩
    · intro y hy
      rw [hstage] at hl
      cases hx.symm.trans hy
      exact ⟨hl, hnot, r, hr, ht, hh⟩
    · intro y hy _
      cases hx.symm.trans hy
      exact Function.update_self _ _ _

/-- A theap that has been taken off the registry is detached. -/
theorem detach {k : Unit → Prog HeapAct α} {v : Option Addr} (hx : g.mine = some x)
    (hstage : g.stage = .listed) (h : HeapSafe t (k ()) g Q) :
    HeapSafe t (.act (.setTnext x.1 v id) k) g Q := by
  apply registers
  rintro m γ choice b m' hi rfl hv hex
  obtain ⟨-, -, r, hr, ht, -⟩ := hv.mine x hx
  simp only [HeapMem.exec, hr] at hex
  cases hex
  refine ⟨γ t, rfl, .setTnext hr ht, .refl, fun _ h => h, hi.handles.uncounted t,
    ⟨hv.chain.update (hv.mine_notMem hx), hv.registry, hv.regs, hv.mine, ?_, hv.nodup, hv.exited,
      hv.alive⟩, h⟩
  intro _ _ hready
  rw [hstage] at hready
  cases hready

/-- The theap that has been created becomes the first of the registry. -/
theorem put {k : Unit → Prog HeapAct α} (hx : g.mine = some x) (hstage : g.stage = .ready)
    (hreg : g.registered = true) (halive : g.alive = true)
    (h : HeapSafe t (k ()) (g.put x) Q) :
    HeapSafe t (.act (.setRegistry (some x.1) id) k) g Q := by
  apply registers
  rintro m γ choice b m' hi rfl hv hex
  obtain ⟨hl, hnot, hr⟩ := hv.mine x hx
  simp only [HeapMem.exec] at hex
  cases hex
  refine ⟨(γ t).put x, rfl, .setRegistry, HeapGhost.sameHolds_put hx hstage, ?_, ?_, ?_, h⟩
  · rintro y (hy | hy)
    · exact Or.inl (List.mem_cons_of_mem x hy)
    · cases hx.symm.trans hy
      exact Or.inl List.mem_cons_self
  · rintro _ ⟨⟩
  · rw [hstage] at hl
    constructor
    · refine ⟨rfl, ?_⟩
      show Chain m.tnext (m.tnext x.1) _
      rw [hv.ready x hx hstage]
      exact hv.chain
    · show Function.update m.registry t (some x.1) t = if (γ t).registered then some x.1 else none
      rw [Function.update_self, if_pos hreg]
    · intro y hy
      cases List.mem_cons.mp hy with
      | inl hy =>
        obtain rfl := hy
        exact ⟨hl, hr⟩
      | inr hy => exact hv.regs y hy
    · rintro _ ⟨⟩
    · rintro _ ⟨⟩
    · exact List.nodup_cons.mpr ⟨hnot, hv.nodup⟩
    · intro hexited
      rw [hv.alive halive] at hexited
      cases hexited
    · exact hv.alive

/-- A theap is taken off the registry. -/
theorem take {e : HeapAct β} {k : β → Prog HeapAct α} {l l' : List (Addr × Addr)}
    (hregs : g.regs = l ++ x :: l') (hmine : g.mine = none)
    (h : ∀ m choice, RegView m t g → ∃ next head b,
      m.exec t e choice = some (b, { m with tnext := next, registry := head }) ∧
      OthersKept t m { m with tnext := next, registry := head } ∧
      Chain next (g.take (l ++ l') x).head ((l ++ l').map Prod.fst) ∧
      head t = (if g.registered then (g.take (l ++ l') x).head else none) ∧
      HeapSafe t (k b) (g.take (l ++ l') x) Q) :
    HeapSafe t (.act e k) g Q := by
  apply registers
  rintro m γ choice b m' hi rfl hv hex
  obtain ⟨next, head, b', hex', hk, hchain, hhead, hsafe⟩ := h m choice hv
  cases hex'.symm.trans hex
  refine ⟨(γ t).take (l ++ l') x, rfl, hk, HeapGhost.sameHolds_take hregs hmine, ?_, ?_,
    hv.take hregs hchain hhead, hsafe⟩
  · rintro y (hy | hy)
    · rw [hregs] at hy
      simp only [List.mem_append, List.mem_cons] at hy
      show y ∈ l ++ l' ∨ some x = some y
      rw [List.mem_append]
      rcases hy with hy | rfl | hy
      · exact Or.inl (Or.inl hy)
      · exact Or.inr rfl
      · exact Or.inl (Or.inr hy)
    · rw [hmine] at hy
      cases hy
  · rintro _ _ ⟨⟩

/-- The first theap is taken off the registry. -/
theorem takeFirst {k : Unit → Prog HeapAct α} {l : List (Addr × Addr)} (hregs : g.regs = x :: l)
    (hmine : g.mine = none) (hreg : g.registered = true)
    (h : HeapSafe t (k ()) (g.take l x) Q) :
    HeapSafe t (.act (.setRegistry (l.map Prod.fst).head? id) k) g Q := by
  apply take (l := []) hregs hmine
  intro m _ hv
  have hchain := hv.chain
  rw [hregs] at hchain
  refine ⟨m.tnext, _, _, rfl, .setRegistry, ?_, ?_, h⟩
  · exact hchain.tail
  · rw [if_pos hreg]
    exact Function.update_self _ _ _

/-- A theap is taken off the registry behind another one. -/
theorem takeBehind {k : Unit → Prog HeapAct α} {l l' : List (Addr × Addr)} {y : Addr × Addr}
    (hregs : g.regs = l ++ y :: x :: l') (hmine : g.mine = none)
    (h : HeapSafe t (k ()) (g.take (l ++ y :: l') x) Q) :
    HeapSafe t (.act (.setTnext y.1 (l'.map Prod.fst).head? id) k) g Q := by
  have hregs' : g.regs = (l ++ [y]) ++ x :: l' := by simp [hregs]
  have hl : (l ++ [y]) ++ l' = l ++ y :: l' := by simp
  apply take hregs' hmine
  intro m choice hv
  obtain ⟨r, hr, ht, -⟩ := hv.owns (x := y) (Or.inl (by simp [hregs]))
  have hex : m.exec t (.setTnext y.1 (l'.map Prod.fst).head? id) choice = some ((),
      { m with tnext := Function.update m.tnext y.1 (l'.map Prod.fst).head? }) := by
    simp only [HeapMem.exec, hr, id]
  have hnd := hv.nodup_fst
  have hchain := hv.chain
  rw [hregs, List.map_append, List.map_cons, List.map_cons] at hnd hchain
  have hrest := Chain.tail ⟨hchain.behind.head_eq, hchain.behind.2⟩
  have hhead : (g.take (l ++ [y] ++ l') x).head = g.head := by
    cases l with
    | nil => simp [HeapGhost.head, HeapGhost.take, hregs]
    | cons z l => simp [HeapGhost.head, HeapGhost.take, hregs]
  refine ⟨_, m.registry, (), hex, .setTnext hr ht, ?_, ?_, ?_⟩
  · obtain ⟨hndl, hndr, hdis⟩ := List.nodup_append.mp hnd
    have hout := hchain.append hrest (List.nodup_append.mpr ⟨hndl, by simp, ?_⟩) ?_
    · rw [hhead]
      simpa using hout
    · intro c hc d hd
      rw [List.mem_singleton] at hd
      exact hdis c hc d (by simp [hd])
    · intro hc
      exact (List.nodup_cons.mp hndr).1 (List.mem_cons_of_mem _ hc)
  · rw [hv.registry, hhead]
  · rw [hl]
    exact h

/-- A theap is taken off a registry that is being dropped. -/
theorem takeNext {k : Option Addr → Prog HeapAct α} {l : List (Addr × Addr)}
    (hregs : g.regs = x :: l) (hmine : g.mine = none) (hreg : g.registered = false)
    (h : HeapSafe t (k (l.map Prod.fst).head?) (g.take l x) Q) :
    HeapSafe t (.act (.tnext x.1 id) k) g Q := by
  apply take (l := []) hregs hmine
  intro m choice hv
  obtain ⟨r, hr, ht, -⟩ := hv.owns (x := x) (Or.inl (by simp [hregs]))
  have hchain := hv.chain
  rw [hregs] at hchain
  have hnext := hchain.2.head_eq
  have hex : m.exec t (.tnext x.1 id) choice = some ((l.map Prod.fst).head?, m) := by
    simp only [HeapMem.exec, hr, id, hnext]
  refine ⟨m.tnext, m.registry, _, hex, ⟨fun _ _ h _ => ⟨h, rfl, rfl⟩, fun _ _ h _ => h,
    fun _ _ => rfl, fun _ _ => rfl⟩, hchain.tail, ?_, h⟩
  have hnone := hv.registry
  rwa [hreg] at hnone ⊢

/-- The registry is emptied before its theaps are torn down. -/
theorem clear {k : Unit → Prog HeapAct α} (hmine : g.mine = none)
    (h : HeapSafe t (k ()) { g with registered := false } Q) :
    HeapSafe t (.act (.setRegistry none id) k) g Q := by
  apply registers
  rintro m γ choice b m' hi rfl hv hex
  simp only [HeapMem.exec] at hex
  cases hex
  refine ⟨{ γ t with registered := false }, rfl, .setRegistry, ⟨fun _ y => ?_, rfl, rfl, rfl⟩,
    fun _ h => h, hi.handles.uncounted t, ⟨hv.chain, ?_, hv.regs, hv.mine, hv.ready, hv.nodup,
      hv.exited, hv.alive⟩, h⟩
  · cases y <;> exact Iff.rfl
  · exact Function.update_self _ _ _

/-! ## The events that create and free -/

theorem newHeap {k : Option Addr → Prog HeapAct α} (hfresh : g.fresh = none)
    (hno : HeapSafe t (k none) g Q)
    (hyes : ∀ a, HeapSafe t (k (some a)) { g with fresh := some a } Q) :
    HeapSafe t (.act (.newHeap id) k) g Q := by
  apply event
  rintro m γ choice b m' hi rfl hex
  simp only [HeapMem.exec] at hex
  split at hex
  · cases hex
    exact ⟨γ t, by rwa [Function.update_eq_self], hno⟩
  · next a ha =>
    cases hex
    exact ⟨_, hi.addHeap hfresh (HeapMem.vacant_of_metaZalloc ha), hyes a⟩

theorem newTheap {k : Option Addr → Prog HeapAct α} (hmine : g.mine = none)
    (huses : g.uses = some hp) (hnot : hp ∉ g.regs.map Prod.snd) (hno : HeapSafe t (k none) g Q)
    (hyes : ∀ a, HeapSafe t (k (some a)) (g.create a hp) Q) :
    HeapSafe t (.act (.newTheap hp id) k) g Q := by
  apply event
  rintro m γ choice b m' hi rfl hex
  obtain ⟨r, hr⟩ := hi.heap_of_uses huses
  simp only [HeapMem.exec, hr] at hex
  split at hex
  · cases hex
    exact ⟨γ t, by rwa [Function.update_eq_self], hno⟩
  · next a q ha hq =>
    cases hq
    cases hex
    exact ⟨_, hi.addTheap hmine huses hnot (HeapMem.vacant_of_metaZalloc ha) hr, hyes a⟩
  · next hq => cases hq

theorem fetchAdd {k : Unit → Prog HeapAct α} (hmine : g.mine = some (tp, hp))
    (hstage : g.stage = .created) (h : HeapSafe t (k ()) { g with stage := .counted } Q) :
    HeapSafe t (.act (.fetchAdd hp id) k) g Q := by
  apply event
  rintro m γ choice b m' hi rfl hex
  obtain ⟨r, hr⟩ := hi.heap_of_uses (hi.handles.uncounted t _ hmine hstage)
  simp only [HeapMem.exec, hr] at hex
  cases hex
  exact ⟨_, hi.count hr hmine hstage, h⟩

theorem registerTheap {k : Unit → Prog HeapAct α} (hmine : g.mine = some (tp, hp))
    (hstage : g.stage = .counted) (h : HeapSafe t (k ()) { g with stage := .listed } Q) :
    HeapSafe t (.act (.registerTheap hp tp id) k) g Q := by
  apply event
  rintro m γ choice b m' hi rfl hex
  obtain ⟨r, hr⟩ := hi.heap_of_mine hmine (by simp [hstage])
  obtain ⟨-, -, q, hq, -⟩ := (hi.registers.view t).mine _ hmine
  simp only [HeapMem.exec, hr, hq] at hex
  cases hex
  exact ⟨_, hi.pushTheap hr hmine hstage, h⟩

theorem unregisterTheap {k : Unit → Prog HeapAct α} (hmine : g.mine = some (tp, hp))
    (hstage : g.stage = .listed) (h : HeapSafe t (k ()) { g with stage := .counted } Q) :
    HeapSafe t (.act (.unregisterTheap hp tp id) k) g Q := by
  apply event
  rintro m γ choice b m' hi rfl hex
  obtain ⟨r, hr⟩ := hi.heap_of_mine hmine (by simp [hstage])
  obtain ⟨hlinked, -, q, hq, -⟩ := (hi.registers.view t).mine _ hmine
  rw [hstage] at hlinked
  simp only [HeapMem.exec, hr, hq, hlinked, Stage.isListed, if_true] at hex
  cases hex
  exact ⟨_, hi.unlinkTheap hr hmine hstage, h⟩

theorem freeTheap {k : Unit → Prog HeapAct α} (hmine : g.mine = some (tp, hp))
    (hstage : g.stage = .counted) (howes : g.owes = none) (h : HeapSafe t (k ()) (g.tear hp) Q) :
    HeapSafe t (.act (.freeTheap tp id) k) g Q := by
  apply event
  rintro m γ choice b m' hi rfl hex
  obtain ⟨-, -, q, hq, -⟩ := (hi.registers.view t).mine _ hmine
  simp only [HeapMem.exec, hq] at hex
  cases hex
  exact ⟨_, hi.dropTheap hmine hstage howes hq, h⟩

/-- `Heap::release_ref`. -/
theorem releaseRef {y : Holding} {Q : Unit → HeapGhost → Prop} (hg : Releases g g' hp y)
    (hfrees : g.frees = none) (hfrees' : g'.frees = none) (h : Q () g') :
    HeapSafe t (Heap.releaseRef hp) g Q := by
  apply event
  rintro m γ choice b m' hi rfl hex
  obtain ⟨r, hr⟩ := (hi.counted hp).live (.of t y) hg.held
  simp only [HeapMem.exec, hr] at hex
  cases hex
  by_cases hone : r.refcount = 1
  · refine ⟨{ g' with frees := some hp }, hi.release (y := y) hr ?_ hfrees (by rw [if_pos hone]), ?_⟩
    · refine ⟨⟨hg.view.regs, hg.view.registered, hg.view.exiting, hg.view.alive, hg.view.mine,
        hg.view.stage, hg.view.ready⟩, hg.held, fun x => ?_, fun hp' hne x => ?_, hg.fresh, hg.uses,
        hg.stage⟩
      · rw [← hg.holds x]
        cases x <;> exact Iff.rfl
      · rw [← hg.others hp' hne x]
        cases x <;> exact Iff.rfl
    · show HeapSafe t (if r.refcount = 1 then Prog.perform (.freeHeap hp id) else pure ()) _ Q
      rw [if_pos hone]
      apply event
      intro m γ choice b m' hi hγ hex
      have hf : (γ t).frees = some hp := by rw [hγ]
      obtain ⟨r, hr, -⟩ := (hi.counted hp).frees t hf
      simp only [HeapMem.exec, hr] at hex
      cases hex
      refine ⟨_, hi.dropHeap hr hf, Safe.ret ?_⟩
      rw [hγ]
      have hback : ({ g' with frees := none } : HeapGhost) = g' := by rw [← hfrees']
      exact hback ▸ h
  · refine ⟨g', hi.release hr hg hfrees (by rw [hfrees', if_neg hone]), ?_⟩
    show HeapSafe t (if r.refcount = 1 then Prog.perform (.freeHeap hp id) else pure ()) _ Q
    rw [if_neg hone]
    exact Safe.ret h

end HeapSafe

end MimallocRs
