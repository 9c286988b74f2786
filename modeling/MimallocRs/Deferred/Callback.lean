import MimallocRs.Deferred.Invariant
import MimallocRs.Foundations.Interleave.Serial

/-!
# The callback and its argument

Every callback is invoked with the argument of the call that has registered it, on no thread inside
another invocation, and with the heartbeats of a thread increasing, in the runs in which no step gets
in between (`deferred_callbacks`). The function and its argument are loaded one after the other, so that
in other runs a callback is passed what has been registered for another one (`deferred_argument_swapped`).
-/

namespace MimallocRs

open Interleave Prog

variable {t depth : ℕ} {force : Bool} {c : Option (ℕ × ℕ)}

/-! ## The events -/

namespace DeferredSafe

variable {α : Type} {Q : α → DeferredGhost → Prop} {k fn hb arg : ℕ} {stage : DeferredStage}

/-- The recursion flag of a thread, where it is. -/
theorem recurse_eq {s : DeferredMem} {γ : ℕ → DeferredGhost} (hi : s.Inv γ)
    (hγ : γ t = ⟨stage, c⟩) : s.recurse t = stage.recurses := by
  rw [(hi.view t).recurse, hγ]

theorem storeArg {f : Unit → Prog DeferredAct α}
    (h : ∀ k, DeferredSafe t (f ()) ⟨stage, some (k, fn)⟩ Q) :
    DeferredSafe t (.act (.storeArg fn arg id) f) ⟨stage, c⟩ Q := by
  apply Safe.act
  intro s γ choice b s' hi hγ hok he
  cases he
  refine ⟨trivial, _, hi.storeArg hok.1 hok.2 fn arg, ?_⟩
  rw [hγ]
  exact h _

theorem storeFn {f : Unit → Prog DeferredAct α} (h : DeferredSafe t (f ()) ⟨stage, none⟩ Q) :
    DeferredSafe t (.act (.storeFn fn id) f) ⟨stage, some (k, fn)⟩ Q := by
  apply Safe.act
  intro s γ choice b s' hi hγ hok he
  cases he
  refine ⟨trivial, _, hi.storeFn (by rw [hγ]), ?_⟩
  rw [hγ]
  exact h

/-- A step that is known to leave the state as it is. -/
theorem idle {β : Type} {e : DeferredAct β} {f : β → Prog DeferredAct α} {g : DeferredGhost}
    (he : ∀ (s : DeferredMem) (γ : ℕ → DeferredGhost) choice b s', s.Inv γ → γ t = g →
      s.exec t e choice = some (b, s') → s' = s ∧ DeferredSafe t (f b) g Q) :
    DeferredSafe t (.act e f) g Q := by
  apply Safe.act
  intro s γ choice b s' hi hγ hok hexec
  obtain ⟨rfl, h⟩ := he s γ choice b s' hi hγ hexec
  refine ⟨trivial, g, ?_, h⟩
  rw [← hγ, Function.update_eq_self]
  exact hi

/-- Inside a callback the function is loaded in vain. -/
theorem loadFn_inside {f : ℕ → Prog DeferredAct α}
    (h : ∀ fn, DeferredSafe t (f fn) ⟨.inside, c⟩ Q) :
    DeferredSafe t (.act (.loadFn id) f) ⟨.inside, c⟩ Q := by
  apply idle
  intro s γ choice b s' hi hγ he
  cases (if_pos (Or.inr (recurse_eq hi hγ))).symm.trans he
  exact ⟨rfl, h _⟩

theorem claim_inside {f : Option ℕ → Prog DeferredAct α}
    (h : DeferredSafe t (f none) ⟨.inside, c⟩ Q) :
    DeferredSafe t (.act (.claim id) f) ⟨.inside, c⟩ Q := by
  apply idle
  intro s γ choice b s' hi hγ he
  cases (if_pos (recurse_eq hi hγ)).symm.trans he
  exact ⟨rfl, h⟩

theorem loadFn {f : ℕ → Prog DeferredAct α} (hnone : DeferredSafe t (f 0) ⟨.outside, c⟩ Q)
    (hsome : ∀ k fn, fn ≠ 0 → DeferredSafe t (f fn) ⟨.loaded k fn, c⟩ Q) :
    DeferredSafe t (.act (.loadFn id) f) ⟨.outside, c⟩ Q := by
  apply Safe.act
  intro s γ choice b s' hi hγ hok he
  have hnot : ¬ s.recurse t = true := by
    rw [recurse_eq hi hγ]
    exact Bool.false_ne_true
  by_cases hfn : s.deferredFn = 0
  · cases (if_pos (Or.inl hfn)).symm.trans he
    refine ⟨trivial, ⟨.outside, c⟩, ?_, ?_⟩
    · rw [← hγ, Function.update_eq_self]
      exact hi
    · rw [hfn]
      exact hnone
  · have hs := (hok.resolve_left hfn).resolve_left hnot
    cases (if_neg (not_or.mpr ⟨hfn, hnot⟩)).symm.trans he
    refine ⟨trivial, _, hi.loadFn (by rw [hγ]) hfn hs, ?_⟩
    rw [hγ]
    exact hsome _ _ hfn

theorem claim {f : Option ℕ → Prog DeferredAct α}
    (h : ∀ hb, DeferredSafe t (f (some hb)) ⟨.claimed k fn hb, c⟩ Q) :
    DeferredSafe t (.act (.claim id) f) ⟨.loaded k fn, c⟩ Q := by
  apply Safe.act
  intro s γ choice b s' hi hγ hok he
  have hnot : ¬ s.recurse t = true := by
    rw [recurse_eq hi hγ]
    exact Bool.false_ne_true
  cases (if_neg hnot).symm.trans he
  refine ⟨trivial, _, hi.claim (by rw [hγ]) (hok.resolve_left hnot), ?_⟩
  rw [hγ]
  exact h _

theorem loadArg {f : ℕ → Prog DeferredAct α}
    (h : ∀ arg, DeferredSafe t (f arg) ⟨.ready k fn arg hb, c⟩ Q) :
    DeferredSafe t (.act (.loadArg id) f) ⟨.claimed k fn hb, c⟩ Q := by
  apply Safe.act
  intro s γ choice b s' hi hγ hok he
  cases he
  refine ⟨trivial, _, hi.loadArg (by rw [hγ]), ?_⟩
  rw [hγ]
  exact h _

theorem enter {f : Unit → Prog DeferredAct α} (h : DeferredSafe t (f ()) ⟨.inside, c⟩ Q) :
    DeferredSafe t (.act (.enter fn force hb arg id) f) ⟨.ready k fn arg hb, c⟩ Q := by
  apply Safe.act
  intro s γ choice b s' hi hγ hok he
  cases he
  refine ⟨trivial, _, hi.enter (by rw [hγ]) force, ?_⟩
  rw [hγ]
  exact h

theorem callback {f : Option CallbackCall → Prog DeferredAct α} {g : DeferredGhost}
    (h : ∀ r, DeferredSafe t (f r) g Q) : DeferredSafe t (.act (.callback id) f) g Q := by
  apply idle
  intro s γ choice b s' hi hγ he
  cases he
  exact ⟨rfl, h _⟩

theorem leave {f : Unit → Prog DeferredAct α} (h : DeferredSafe t (f ()) ⟨.returned, c⟩ Q) :
    DeferredSafe t (.act (.leave id) f) ⟨.inside, c⟩ Q := by
  apply Safe.act
  intro s γ choice b s' hi hγ hok he
  cases he
  refine ⟨trivial, _, hi.leave (by rw [hγ]), ?_⟩
  rw [hγ]
  exact h

theorem clear {f : Unit → Prog DeferredAct α} (h : DeferredSafe t (f ()) ⟨.outside, c⟩ Q) :
    DeferredSafe t (.act (.clear id) f) ⟨.returned, c⟩ Q := by
  apply Safe.act
  intro s γ choice b s' hi hγ hok he
  cases he
  refine ⟨trivial, _, hi.clear (by rw [hγ]), ?_⟩
  rw [hγ]
  exact h

end DeferredSafe

/-! ## The programs -/

theorem registerDeferredFree_safe (stage : DeferredStage) (fn arg : ℕ) :
    DeferredSafe t (registerDeferredFree fn arg) ⟨stage, none⟩ fun _ g => g = ⟨stage, none⟩ := by
  simp only [registerDeferredFree, Prog.bind_eq, Prog.perform_bind]
  exact DeferredSafe.storeArg fun k => DeferredSafe.storeFn (.ret rfl)

/-- A call inside a callback finds the recursion flag set. -/
theorem runDeferredFree_nested (hdepth : 0 < depth) :
    DeferredSafe t (runDeferredFree depth force) ⟨.inside, none⟩ fun _ g => g = ⟨.inside, none⟩ := by
  obtain ⟨n, rfl⟩ : ∃ n, depth = n + 1 := ⟨depth - 1, by omega⟩
  simp only [runDeferredFree, Prog.bind_eq, Prog.pure_eq, Prog.perform_bind]
  apply DeferredSafe.loadFn_inside
  intro fn
  split
  · exact .ret rfl
  · exact DeferredSafe.claim_inside (.ret rfl)

theorem runDeferredFree_safe (hdepth : 2 ≤ depth) :
    DeferredSafe t (runDeferredFree depth force) .idle fun _ g => g = .idle := by
  obtain ⟨n, rfl⟩ : ∃ n, depth = n + 1 := ⟨depth - 1, by omega⟩
  simp only [runDeferredFree, Prog.bind_eq, Prog.pure_eq, Prog.perform_bind, Prog.iterate_bind]
  apply DeferredSafe.loadFn
  · exact .ret rfl
  intro k fn hfn
  rw [if_neg hfn]
  apply DeferredSafe.claim
  intro hb
  apply DeferredSafe.loadArg
  intro arg
  apply DeferredSafe.enter
  apply Safe.loop fun _ g => g = ⟨.inside, none⟩
  · rintro _ _ rfl
    apply DeferredSafe.callback
    intro r
    -- the callback returns, or calls once more
    cases r with
    | none => exact .ret (DeferredSafe.leave (DeferredSafe.clear (.ret rfl)))
    | some call =>
      cases call with
      | collect force =>
        apply Safe.bind
        apply (runDeferredFree_nested (by omega)).mono
        rintro _ _ rfl
        exact .ret rfl
      | register fn arg =>
        apply Safe.bind
        apply (registerDeferredFree_safe .inside fn arg).mono
        rintro _ _ rfl
        exact .ret rfl
  · rfl

/-! ## Runs -/

/-- The invocations so far: each with the argument that its function has been registered with, none
inside another one, and the heartbeats of a thread increasing. -/
structure DeferredMem.Faithful (s : DeferredMem) : Prop where
  matched : ∀ i ∈ s.invoked, i.fnCall = i.argCall ∧ s.calls[i.fnCall]? = some (i.fn, i.arg)
  alone : ∀ t, s.active t ≤ 1 ∧ s.overflowed = false
  increasing : s.invoked.Pairwise fun i j => i.thread = j.thread → j.heartbeat < i.heartbeat

theorem DeferredMem.Inv.faithful {s : DeferredMem} {γ : ℕ → DeferredGhost} (h : s.Inv γ) :
    s.Faithful := by
  refine ⟨h.matched, fun t => ⟨?_, h.overflowed⟩, h.increasing⟩
  rw [(h.view t).active]
  split
  · exact le_rfl
  · exact Nat.zero_le 1

theorem DeferredMem.inv_init : DeferredMem.init.Inv fun _ => .idle := by
  refine ⟨fun t => ⟨rfl, rfl, ?_, trivial, ?_, ?_⟩, ?_, ?_, ?_, ?_, ?_, rfl⟩
  · simp [init, DeferredGhost.idle, DeferredStage.Loading]
  · simp [init, DeferredGhost.idle]
  · rintro k fn ⟨⟩
  · simp [init]
  · exact fun _ h => (h rfl).elim
  · simp [init]
  · simp [init]
  · exact List.Pairwise.nil

/-- No step of a move gets in between. -/
def DeferredApart (c : Config DeferredAct ℕ DeferredOp (fun _ => Unit) DeferredMem)
    (m : Move ℕ DeferredOp) : Prop :=
  ∀ ⦃t choice o⦄ ⦃β : Type⦄ ⦃e : DeferredAct β⦄ ⦃k : β → Prog DeferredAct Unit⦄,
    m = .step t choice → c.thread t = some ⟨o, .act e k⟩ → c.mem.Apart t e

/-- **The callbacks are invoked as they have been registered**, one at a time on each thread, in the
runs in which no step gets in between. -/
theorem deferred_callbacks {c : Config DeferredAct ℕ DeferredOp (fun _ => Unit) DeferredMem}
    (h : deferredSystem.Reachable (· = .init) DeferredApart c) : c.mem.Faithful := by
  have hreach : ∃ γ, DeferredMem.Inv c.mem γ ∧ ∀ t, deferredOutline.Thread deferredSystem.toMachine
      (fun _ g => g = .idle) (fun _ _ _ g => g = .idle) t (γ t) (c.thread t) := ?_
  · obtain ⟨γ, hi, -⟩ := hreach
    exact hi.faithful
  apply Outline.reachable (O := deferredOutline) _ _ _ _ h
  · rintro _ rfl
    exact ⟨fun _ => .idle, DeferredMem.inv_init, fun _ => rfl⟩
  · intro t o s s' γ hi hidle hs
    cases o with
    | register fn arg =>
      cases hs
      refine ⟨.idle, ?_, registerDeferredFree_safe .outside fn arg⟩
      rw [← hidle, Function.update_eq_self]
      exact hi
    | run depth force =>
      simp only [deferredSystem] at hs
      split at hs
      · next hdepth =>
        cases hs
        refine ⟨.idle, ?_, runDeferredFree_safe hdepth⟩
        rw [← hidle, Function.update_eq_self]
        exact hi
      · cases hs
  · intro t o a s γ hi hpost
    refine ⟨.idle, ?_, rfl⟩
    rw [← hpost, Function.update_eq_self]
    exact hi
  · exact fun c m hm => hm

/-- A step that does not get in between. -/
theorem DeferredApart.step {c : Config DeferredAct ℕ DeferredOp (fun _ => Unit) DeferredMem}
    {t choice : ℕ} {o : DeferredOp} {β : Type} {e : DeferredAct β} {k : β → Prog DeferredAct Unit}
    (ht : c.thread t = some ⟨o, .act e k⟩) (h : c.mem.Apart t e) :
    DeferredApart c (.step t choice) := by
  intro t' choice' o' β' e' k' hm ht'
  cases hm
  cases ht.symm.trans ht'
  exact h

/-- A callback is registered and invoked. -/
theorem deferred_callbacks_once :
    ∃ c : Config DeferredAct ℕ DeferredOp (fun _ => Unit) DeferredMem,
      c.mem.invoked = [⟨0, 1, true, 0, 10, 0, 0⟩] ∧ c.mem.Faithful := by
  have h₀ : deferredSystem.Reachable (· = .init) DeferredApart ⟨.init, fun _ => none⟩ := .init rfl
  have h₁ := h₀.next (m := .start 0 (.register 1 10)) (by rintro _ _ _ _ _ _ ⟨⟩) rfl
  have h₂ := h₁.next (m := .step 0 0) (.step rfl ⟨rfl, rfl⟩) rfl
  have h₃ := h₂.next (m := .step 0 0) (.step rfl trivial) rfl
  have h₄ := h₃.next (m := .finish 0) (by rintro _ _ _ _ _ _ ⟨⟩) rfl
  have h₅ := h₄.next (m := .start 0 (.run 2 true)) (by rintro _ _ _ _ _ _ ⟨⟩) rfl
  have h₆ := h₅.next (m := .step 0 0) (.step rfl (Or.inr (Or.inr rfl))) rfl
  have h₇ := h₆.next (m := .step 0 0) (.step rfl (Or.inr (by decide))) rfl
  have h₈ := h₇.next (m := .step 0 0) (.step rfl trivial) rfl
  have h₉ := h₈.next (m := .step 0 0) (.step rfl trivial) rfl
  exact ⟨_, rfl, deferred_callbacks h₉⟩

/-- A callback has been passed what no call has registered with it. -/
def argumentSwapped (c : Config DeferredAct ℕ DeferredOp (fun _ => Unit) DeferredMem) : Bool :=
  c.mem.invoked.any fun i => !c.mem.calls.any fun r => r.1 == i.fn && r.2 == i.arg

/-- The thread 1 loads the function 1; the thread 0 stores the argument of the function 2; the thread
1 passes it to the function 1. -/
theorem deferred_argument_swapped :
    ¬ ∀ c, deferredSystem.Reachable (· = .init) System.anyMove c → c.mem.Faithful := by
  intro h
  have hrun : (deferredSystem.run (Move.call 0 (.register 1 10) 2 0 ++
      [.start 1 (.run 2 false), .step 1 0, .start 0 (.register 2 20), .step 0 0, .step 1 0,
        .step 1 0, .step 1 0]) ⟨.init, fun _ => none⟩).any argumentSwapped = true := by
    decide +kernel
  obtain ⟨c, hc, htest⟩ := System.exists_run hrun
  obtain ⟨i, hi, hswapped⟩ := List.any_eq_true.mp htest
  have hstart : deferredSystem.Reachable (· = .init) System.anyMove ⟨.init, fun _ => none⟩ :=
    .init rfl
  have hcall := List.mem_of_getElem? ((h c (hstart.run hc)).matched i hi).2
  rw [Bool.not_eq_true', List.any_eq_false] at hswapped
  exact hswapped (i.fn, i.arg) hcall (by simp)

end MimallocRs
