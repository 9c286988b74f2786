import MimallocRs.Heap.Rules

/-!
# The functions on heaps and theaps

The functions are verified from the rules for their events, in the order in which they call each
other.
-/

namespace MimallocRs

open Interleave

variable {t : ℕ} {g g' : HeapGhost} {hp tp : Addr}

/-- What a thread has to do is the same after a function. -/
structure SameDuties (g g' : HeapGhost) : Prop where
  registered : g'.registered = g.registered
  exiting : g'.exiting = g.exiting
  owes : g'.owes = g.owes
  fresh : g'.fresh = g.fresh
  holds : g'.holds = g.holds
  frees : g'.frees = g.frees
  uses : g'.uses = g.uses

theorem SameDuties.refl : SameDuties g g := ⟨rfl, rfl, rfl, rfl, rfl, rfl, rfl⟩

theorem SameDuties.trans {g'' : HeapGhost} (h : SameDuties g g') (h' : SameDuties g' g'') :
    SameDuties g g'' :=
  ⟨h'.registered.trans h.registered, h'.exiting.trans h.exiting, h'.owes.trans h.owes,
    h'.fresh.trans h.fresh, h'.holds.trans h.holds, h'.frees.trans h.frees, h'.uses.trans h.uses⟩

theorem HeapGhost.releases_owes (h : g.owes = some hp) :
    Releases g { g with owes := none } hp .torn := by
  refine ⟨⟨rfl, rfl, rfl, rfl, rfl, rfl, id⟩, h, fun x => ?_, fun hp' hne x => ?_, rfl, rfl, rfl⟩
  · cases x <;> simp [Holds]
  · cases x <;> simp [Holds, h, Ne.symm hne]

theorem HeapGhost.releases_holds (h : g.holds = some hp) :
    Releases g { g with holds := none } hp .held := by
  refine ⟨⟨rfl, rfl, rfl, rfl, rfl, rfl, id⟩, h, fun x => ?_, fun hp' hne x => ?_, rfl, rfl, rfl⟩
  · cases x <;> simp [Holds]
  · cases x <;> simp [Holds, h, Ne.symm hne]

namespace Heap

/-- The search returns the theap of the heap at `hp`, if there is one in the registry. -/
theorem findTheap_safe : HeapSafe t (findTheap hp g.head) g fun r g' =>
    g' = g ∧ (∀ tp, r = some tp → (tp, hp) ∈ g.regs) ∧ (r = none → hp ∉ g.regs.map Prod.snd) := by
  simp only [findTheap, Prog.bind_eq, Prog.perform_bind, Prog.pure_eq]
  -- the theaps that have been passed belong to other heaps
  apply Safe.loop fun cur g' => g' = g ∧ ∃ l l', g.regs = l ++ l' ∧
    cur = (l'.map Prod.fst).head? ∧ hp ∉ l.map Prod.snd
  · rintro cur _ ⟨rfl, l, l', hregs, rfl, hnot⟩
    cases l' with
    | nil =>
      apply Safe.ret
      apply Safe.ret
      rw [List.append_nil] at hregs
      exact ⟨rfl, by rintro _ ⟨⟩, fun _ => hregs ▸ hnot⟩
    | cons x l' =>
      apply HeapSafe.owningHeap (x := x)
      · exact Or.inl (by simp [hregs])
      · by_cases hx : x.2 = hp
        · rw [if_pos hx]
          apply Safe.ret
          apply Safe.ret
          refine ⟨rfl, ?_, by rintro ⟨⟩⟩
          rintro _ ⟨⟩
          simp [hregs, ← hx]
        · rw [if_neg hx]
          apply HeapSafe.tnext hregs
          apply Safe.ret
          refine ⟨rfl, l ++ [x], l', by simp [hregs], rfl, ?_⟩
          simp only [List.map_append, List.map_cons, List.map_nil, List.mem_append,
            List.mem_singleton, not_or]
          exact ⟨hnot, Ne.symm hx⟩
  · exact ⟨rfl, [], g.regs, rfl, rfl, by simp⟩

/-- `new_theap_for` returns a theap that is listed in its heap. -/
theorem newTheapFor_safe (hmine : g.mine = none) (huses : g.uses = some hp)
    (hnot : hp ∉ g.regs.map Prod.snd) : HeapSafe t (newTheapFor hp) g fun r g' =>
      SameDuties g g' ∧ g'.alive = g.alive ∧ ((r = none ∧ g'.mine = none) ∨
        ∃ tp, r = some tp ∧ g'.mine = some (tp, hp) ∧ g'.stage = .listed) := by
  simp only [newTheapFor, Prog.bind_eq, Prog.perform_bind, Prog.pure_eq]
  apply HeapSafe.newTheap hmine huses hnot
  · exact Safe.ret ⟨.refl, rfl, Or.inl ⟨rfl, hmine⟩⟩
  · intro tp
    apply HeapSafe.fetchAdd rfl rfl
    apply HeapSafe.registerTheap rfl rfl
    exact Safe.ret ⟨⟨rfl, rfl, rfl, rfl, rfl, rfl, rfl⟩, rfl, Or.inr ⟨tp, rfl, rfl, rfl⟩⟩

/-- A new theap is linked to the registry and becomes its first. -/
theorem register_safe {x : Addr × Addr} (hmine : g.mine = some x) (hstage : g.stage = .listed)
    (hreg : g.registered = true) (halive : g.alive = true) :
    HeapSafe t (.act (.registry id) fun head => .act (.setTnext x.1 head id) fun _ =>
      .act (.setRegistry (some x.1) id) fun _ => .ret (some x.1)) g fun r g' =>
        r = some x.1 ∧ SameDuties g g' ∧ g'.mine = none ∧ x ∈ g'.regs := by
  apply HeapSafe.registry hreg
  apply HeapSafe.setTnext hmine hstage
  apply HeapSafe.put (g := { g with stage := .ready }) hmine rfl hreg halive
  exact Safe.ret ⟨rfl, ⟨rfl, rfl, rfl, rfl, rfl, rfl, rfl⟩, rfl, List.mem_cons_self⟩

/-- `theap_for` returns a theap of the registry. -/
theorem theapFor_safe (hreg : g.registered = true) (hmine : g.mine = none)
    (huses : g.uses = some hp) : HeapSafe t (theapFor hp) g fun r g' =>
      SameDuties g g' ∧ g'.mine = none ∧ ∀ tp, r = some tp → (tp, hp) ∈ g'.regs := by
  simp only [theapFor, Prog.bind_eq, Prog.perform_bind, Prog.pure_eq]
  apply HeapSafe.tryWith
  · rw [if_pos rfl]
    obtain ⟨g₁, hg₁⟩ : ∃ g₁, g₁ = { g with alive := true } := ⟨_, rfl⟩
    have hduties : SameDuties g g₁ := hg₁ ▸ ⟨rfl, rfl, rfl, rfl, rfl, rfl, rfl⟩
    have hmine₁ : g₁.mine = none := hg₁ ▸ hmine
    have hreg₁ : g₁.registered = true := hg₁ ▸ hreg
    have halive₁ : g₁.alive = true := hg₁ ▸ rfl
    rw [← hg₁]
    apply HeapSafe.registry hreg₁
    apply Safe.bind
    apply findTheap_safe.mono
    intro r g' hg'
    obtain ⟨rfl, hsome, hnone⟩ := hg'
    cases r with
    | some tp => exact Safe.ret ⟨hduties, hmine₁, hsome⟩
    | none =>
      apply Safe.bind
      apply (newTheapFor_safe hmine₁ (hduties.uses.trans huses) (hnone rfl)).mono
      rintro _ g₂ ⟨hduties₂, halive₂, ⟨rfl, hmine₂⟩ | ⟨tp, rfl, hmine₂, hstage₂⟩⟩
      · exact Safe.ret ⟨hduties.trans hduties₂, hmine₂, by rintro _ ⟨⟩⟩
      · apply (register_safe hmine₂ hstage₂ (hduties₂.registered.trans hreg₁)
          (halive₂.trans halive₁)).mono
        rintro _ _ ⟨rfl, hduties₃, hmine₃, hmem⟩
        refine ⟨hduties.trans (hduties₂.trans hduties₃), hmine₃, ?_⟩
        rintro _ ⟨⟩
        exact hmem
  · exact Safe.ret ⟨.refl, hmine, by rintro _ ⟨⟩⟩

/-- The theap `x` that has been taken off the registry is detached and returned. -/
theorem detach_safe {β : Type} {x : Addr × Addr} (hmine : g.mine = some x)
    (hstage : g.stage = .listed) :
    HeapSafe t (.act (.setTnext x.1 none id) fun _ => .ret (.inr (some x.1))) g
      fun (r : β ⊕ Option Addr) g' => r = .inr (some x.1) ∧ g' = g := by
  apply HeapSafe.detach hmine hstage
  exact Safe.ret ⟨rfl, rfl⟩

/-- `take_theap_for` takes the theap of the heap at `hp` off the registry. -/
theorem takeTheapFor_safe (hreg : g.registered = true) (hmine : g.mine = none) :
    HeapSafe t (takeTheapFor hp) g fun r g' => SameDuties g g' ∧
      ((r = none ∧ g'.mine = none) ∨
        ∃ tp, r = some tp ∧ g'.mine = some (tp, hp) ∧ g'.stage = .listed) := by
  simp only [takeTheapFor, Prog.bind_eq, Prog.perform_bind, Prog.pure_eq]
  apply HeapSafe.tryWith
  · rw [if_pos rfl]
    obtain ⟨g₁, hg₁⟩ : ∃ g₁, g₁ = { g with alive := true } := ⟨_, rfl⟩
    have hduties : SameDuties g g₁ := hg₁ ▸ ⟨rfl, rfl, rfl, rfl, rfl, rfl, rfl⟩
    have hmine₁ : g₁.mine = none := hg₁ ▸ hmine
    have hreg₁ : g₁.registered = true := hg₁ ▸ hreg
    rw [← hg₁]
    apply HeapSafe.registry hreg₁
    -- the pair is a place in the registry
    apply Safe.loop fun (x : Option Addr × Option Addr) g' => g' = g₁ ∧ ∃ l l', g₁.regs = l ++ l' ∧
      x = ((l.map Prod.fst).getLast?, (l'.map Prod.fst).head?)
    · intro _ g' hg'
      obtain ⟨rfl, l, l', hregs, rfl⟩ := hg'
      cases l' with
      | nil =>
        apply Safe.ret
        exact Safe.ret ⟨hduties, Or.inl ⟨rfl, hmine₁⟩⟩
      | cons x l' =>
        apply HeapSafe.tnext hregs
        apply HeapSafe.owningHeap (x := x)
        · exact Or.inl (by simp [hregs])
        · by_cases hx : x.2 = hp
          · rw [if_pos hx]
            rcases List.eq_nil_or_concat l with rfl | ⟨l, y, rfl⟩
            · apply HeapSafe.takeFirst hregs hmine₁ hreg₁
              apply (detach_safe rfl rfl).mono
              rintro _ _ ⟨rfl, rfl⟩
              apply Safe.ret
              exact ⟨hduties.trans ⟨rfl, rfl, rfl, rfl, rfl, rfl, rfl⟩,
                Or.inr ⟨x.1, rfl, by rw [← hx]; rfl, rfl⟩⟩
            · simp only [List.concat_eq_append, List.map_append, List.map_cons, List.map_nil,
                List.getLast?_concat]
              rw [List.concat_eq_append, List.append_assoc] at hregs
              apply HeapSafe.takeBehind hregs hmine₁
              apply (detach_safe rfl rfl).mono
              rintro _ _ ⟨rfl, rfl⟩
              apply Safe.ret
              exact ⟨hduties.trans ⟨rfl, rfl, rfl, rfl, rfl, rfl, rfl⟩,
                Or.inr ⟨x.1, rfl, by rw [← hx]; rfl, rfl⟩⟩
          · rw [if_neg hx]
            apply Safe.ret
            exact ⟨rfl, l ++ [x], l', by simp [hregs], by simp⟩
    · exact ⟨rfl, [], g₁.regs, rfl, rfl⟩
  · exact Safe.ret ⟨.refl, Or.inl ⟨rfl, hmine⟩⟩

/-- A theap that is off the list of its heap is freed, and the reference to the heap released. -/
theorem free_safe (hmine : g.mine = some (tp, hp)) (hstage : g.stage = .counted)
    (howes : g.owes = none) (hfrees : g.frees = none) :
    HeapSafe t (.act (.freeTheap tp id) fun _ => releaseRef hp) g fun _ g' =>
      SameDuties g g' ∧ g'.mine = none ∧ g'.regs = g.regs := by
  apply HeapSafe.freeTheap hmine hstage howes
  apply HeapSafe.releaseRef (g := g.tear hp) (HeapGhost.releases_owes rfl) hfrees hfrees
  exact ⟨⟨rfl, rfl, howes.symm, rfl, rfl, rfl, rfl⟩, rfl, rfl⟩

/-- `teardown_theap` and `teardown_theap_bulk` tear down the theap that has been taken. -/
theorem teardownTheap_safe (hmine : g.mine = some (tp, hp)) (hstage : g.stage = .listed)
    (howes : g.owes = none) (hfrees : g.frees = none) :
    HeapSafe t (teardownTheap tp) g fun _ g' =>
      SameDuties g g' ∧ g'.mine = none ∧ g'.regs = g.regs := by
  simp only [teardownTheap, Prog.bind_eq, Prog.perform_bind]
  apply HeapSafe.owningHeap (x := (tp, hp)) (Or.inr hmine)
  apply HeapSafe.linked hmine
  rw [hstage]
  apply HeapSafe.unregisterTheap hmine hstage
  apply (free_safe (g := { g with stage := .counted }) hmine rfl howes hfrees).mono
  rintro _ _ ⟨hduties, hnone, hregs⟩
  exact ⟨⟨hduties.registered, hduties.exiting, hduties.owes, hduties.fresh, hduties.holds,
    hduties.frees, hduties.uses⟩, hnone, hregs⟩

theorem teardownTheapBulk_safe (hmine : g.mine = some (tp, hp)) (hstage : g.stage = .listed)
    (howes : g.owes = none) (hfrees : g.frees = none) :
    HeapSafe t (teardownTheapBulk tp) g fun _ g' =>
      SameDuties g g' ∧ g'.mine = none ∧ g'.regs = g.regs := by
  simp only [teardownTheapBulk, Prog.bind_eq, Prog.perform_bind]
  apply HeapSafe.owningHeap (x := (tp, hp)) (Or.inr hmine)
  apply HeapSafe.unregisterTheap hmine hstage
  apply (free_safe (g := { g with stage := .counted }) hmine rfl howes hfrees).mono
  rintro _ _ ⟨hduties, hnone, hregs⟩
  exact ⟨⟨hduties.registered, hduties.exiting, hduties.owes, hduties.fresh, hduties.holds,
    hduties.frees, hduties.uses⟩, hnone, hregs⟩

/-- `delete` and `destroy`, with either way of tearing down a theap. -/
theorem delete_safe {teardown : Addr → Prog HeapAct Unit}
    (hteardown : ∀ tp g, g.mine = some (tp, hp) → g.stage = .listed → g.owes = none →
      g.frees = none → HeapSafe t (teardown tp) g fun _ g' =>
        SameDuties g g' ∧ g'.mine = none ∧ g'.regs = g.regs)
    (hreg : g.registered = true) (hmine : g.mine = none) (howes : g.owes = none)
    (hfrees : g.frees = none) (hholds : g.holds = some hp) :
    HeapSafe t ((takeTheapFor hp).bind fun r =>
      match r with
      | some tp => (teardown tp).bind fun _ => releaseRef hp
      | none => releaseRef hp) g fun _ g' =>
        SameDuties { g with holds := none } g' ∧ g'.mine = none := by
  have hrelease : ∀ g₁, SameDuties g g₁ → g₁.mine = none → HeapSafe t (releaseRef hp) g₁
      fun _ g' => SameDuties { g with holds := none } g' ∧ g'.mine = none := by
    intro g₁ hduties hmine₁
    apply HeapSafe.releaseRef (HeapGhost.releases_holds (hduties.holds.trans hholds))
    · exact hduties.frees.trans hfrees
    · exact hduties.frees.trans hfrees
    · exact ⟨⟨hduties.registered, hduties.exiting, hduties.owes, hduties.fresh, rfl,
        hduties.frees, hduties.uses⟩, hmine₁⟩
  apply Safe.bind
  apply (takeTheapFor_safe hreg hmine).mono
  rintro _ g₁ ⟨hduties, ⟨rfl, hmine₁⟩ | ⟨tp, rfl, hmine₁, hstage₁⟩⟩
  · exact hrelease g₁ hduties hmine₁
  · apply Safe.bind
    apply (hteardown tp g₁ hmine₁ hstage₁ (hduties.owes.trans howes)
      (hduties.frees.trans hfrees)).mono
    rintro _ g₂ ⟨hduties₂, hmine₂, -⟩
    exact hrelease g₂ (hduties.trans hduties₂) hmine₂

/-- `Registry::drop` tears down all theaps of the thread. -/
theorem dropRegistry_safe (hreg : g.registered = true) (hmine : g.mine = none)
    (howes : g.owes = none) (hfrees : g.frees = none) : HeapSafe t dropRegistry g fun _ g' =>
      SameDuties { g with registered := false } g' ∧ g'.mine = none ∧ g'.regs = [] := by
  simp only [dropRegistry, Prog.bind_eq, Prog.perform_bind, Prog.pure_eq]
  apply HeapSafe.registry hreg
  apply HeapSafe.clear hmine
  apply Safe.loop fun cur g' => SameDuties { g with registered := false } g' ∧ g'.mine = none ∧
    cur = g'.head
  · rintro _ g₁ ⟨hduties, hmine₁, rfl⟩
    cases hregs : g₁.regs with
    | nil =>
      rw [HeapGhost.head, hregs]
      apply Safe.ret
      exact Safe.ret ⟨hduties, hmine₁, hregs⟩
    | cons x l =>
      rw [HeapGhost.head, hregs]
      apply HeapSafe.takeNext hregs hmine₁ hduties.registered
      apply Safe.bind
      apply (teardownTheap_safe (g := g₁.take l x) (show (g₁.take l x).mine = some (x.1, x.2) from rfl) rfl
        (hduties.owes.trans howes) (hduties.frees.trans hfrees)).mono
      rintro _ g₂ ⟨hduties₂, hmine₂, hregs₂⟩
      have htake : SameDuties g₁ (g₁.take l x) := ⟨rfl, rfl, rfl, rfl, rfl, rfl, rfl⟩
      apply Safe.ret
      refine ⟨hduties.trans (htake.trans hduties₂), hmine₂, ?_⟩
      rw [HeapGhost.head, hregs₂]
      rfl
  · exact ⟨⟨rfl, rfl, rfl, rfl, rfl, rfl, rfl⟩, hmine, rfl⟩

end Heap

end MimallocRs
