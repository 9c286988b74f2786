import MimallocRs.Deferred.Prog
import MimallocRs.Foundations.Interleave.Outline

/-!
# What the callbacks are passed

The invariant of the two cells, for runs in which no call of `register_deferred_free` gets in between
the two loads of `run_deferred_free`, nor in between the stores of another such call. While no call is
storing, the cells hold what one call has registered. A thread that has loaded the function finds the
argument of the same call.
-/

namespace MimallocRs

open Interleave Prog

/-- Where a thread is in `run_deferred_free`, with the call that has registered what it has loaded. -/
inductive DeferredStage
  | outside
  | loaded (k fn : ℕ)
  | claimed (k fn hb : ℕ)
  | ready (k fn arg hb : ℕ)
  | inside
  | returned
  deriving DecidableEq

/-- The thread has loaded a function and not its argument. -/
def DeferredStage.Loading : DeferredStage → Prop
  | .loaded .. | .claimed .. => True
  | _ => False

/-- The thread has set its recursion flag. -/
def DeferredStage.recurses : DeferredStage → Bool
  | .outside | .loaded .. => false
  | _ => true

/-- What a thread knows: where it is, and the call between whose stores it is, with its function. -/
structure DeferredGhost where
  stage : DeferredStage
  call : Option (ℕ × ℕ)

/-- A thread that runs nothing. -/
def DeferredGhost.idle : DeferredGhost := ⟨.outside, none⟩

namespace DeferredMem

/-- The heartbeat is the last one that the thread has taken, and no callback has seen it. -/
structure Ticked (s : DeferredMem) (t hb : ℕ) : Prop where
  next : hb + 1 = s.heartbeat t
  unseen : ∀ i ∈ s.invoked, i.thread = t → i.heartbeat < hb

/-- What is known of the loads of a thread. -/
def Loaded (s : DeferredMem) (t : ℕ) : DeferredStage → Prop
  | .loaded k fn => s.loadedFn t = k ∧ s.argCall = k ∧ s.calls[k]? = some (fn, s.deferredArg)
  | .claimed k fn hb => s.loadedFn t = k ∧ s.argCall = k ∧
      s.calls[k]? = some (fn, s.deferredArg) ∧ s.Ticked t hb
  | .ready k fn arg hb => s.loadedFn t = k ∧ s.loadedArg t = k ∧ s.calls[k]? = some (fn, arg) ∧
      s.Ticked t hb
  | _ => True

/-- The state of one thread. -/
structure View (s : DeferredMem) (t : ℕ) (g : DeferredGhost) : Prop where
  recurse : s.recurse t = g.stage.recurses
  active : s.active t = if g.stage = .inside then 1 else 0
  loading : t ∈ s.loading ↔ g.stage.Loading
  loaded : s.Loaded t g.stage
  storing : t ∈ s.storing ↔ g.call.isSome = true
  call : ∀ k fn, g.call = some (k, fn) → s.call t = k ∧ s.argCall = k ∧
    s.calls[k]? = some (fn, s.deferredArg)

/-- **The invariant.** -/
structure Inv (s : DeferredMem) (γ : ℕ → DeferredGhost) : Prop where
  view : ∀ t, s.View t (γ t)
  alone : ∀ t ∈ s.storing, ∀ u ∈ s.storing, t = u
  cells : s.storing = ∅ → s.deferredFn ≠ 0 → s.fnCall = s.argCall ∧
    s.calls[s.argCall]? = some (s.deferredFn, s.deferredArg)
  matched : ∀ i ∈ s.invoked, i.fnCall = i.argCall ∧ s.calls[i.fnCall]? = some (i.fn, i.arg)
  taken : ∀ i ∈ s.invoked, i.heartbeat < s.heartbeat i.thread
  increasing : s.invoked.Pairwise fun i j => i.thread = j.thread → j.heartbeat < i.heartbeat
  overflowed : s.overflowed = false

/-- **No step gets in between.** A call of `register_deferred_free` stores its argument while no other
call is between its stores and no thread between its loads, and a callback is loaded while no call is
between its stores, unless it will not be invoked. No thread runs out of heartbeats. -/
def Apart (s : DeferredMem) (t : ℕ) {β : Type} : DeferredAct β → Prop
  | .storeArg .. => s.storing = ∅ ∧ s.loading = ∅
  | .loadFn _ => s.deferredFn = 0 ∨ s.recurse t = true ∨ s.storing = ∅
  | .claim _ => s.recurse t = true ∨ s.heartbeat t + 1 < 2 ^ 64
  | _ => True

end DeferredMem

/-- The invariant, for runs in which no step gets in between. -/
def deferredOutline : Outline DeferredAct ℕ DeferredMem DeferredGhost where
  inv := DeferredMem.Inv
  ok t e s _ := s.Apart t e

/-- A program of a thread is safe. -/
abbrev DeferredSafe {α : Type} (t : ℕ) (p : Prog DeferredAct α) (g : DeferredGhost)
    (Q : α → DeferredGhost → Prop) : Prop :=
  Safe deferredSystem.toMachine deferredOutline t p g Q

namespace DeferredMem

variable {s s' : DeferredMem} {γ : ℕ → DeferredGhost} {t u : ℕ} {g : DeferredGhost}

/-- What has been loaded and taken by a thread is left alone, and the calls are only added to. -/
structure KeptLoads (s s' : DeferredMem) (u : ℕ) : Prop where
  loadedFn : s'.loadedFn u = s.loadedFn u
  loadedArg : s'.loadedArg u = s.loadedArg u
  heartbeat : s'.heartbeat u = s.heartbeat u
  calls : ∀ (k : ℕ) x, s.calls[k]? = some x → s'.calls[k]? = some x
  invoked : ∀ i ∈ s'.invoked, i.thread = u → i ∈ s.invoked

/-- What a step of another thread leaves alone. -/
structure Kept (s s' : DeferredMem) (u : ℕ) : Prop extends KeptLoads s s' u where
  recurse : s'.recurse u = s.recurse u
  active : s'.active u = s.active u
  loading : u ∈ s'.loading ↔ u ∈ s.loading
  storing : u ∈ s'.storing ↔ u ∈ s.storing
  call : s'.call u = s.call u

theorem Ticked.kept {hb : ℕ} (h : s.Ticked u hb) (hk : s.KeptLoads s' u) : s'.Ticked u hb := by
  constructor
  · rw [hk.heartbeat]
    exact h.next
  · exact fun i hi hu => h.unseen i (hk.invoked i hi hu) hu

/-- What is known of the loads stays, if the argument is left alone while that matters. -/
theorem Loaded.kept {stage : DeferredStage} (h : s.Loaded u stage) (hk : s.KeptLoads s' u)
    (hcell : stage.Loading → s'.argCall = s.argCall ∧ s'.deferredArg = s.deferredArg) :
    s'.Loaded u stage := by
  cases stage with
  | outside => trivial
  | loaded k fn =>
    obtain ⟨hfn, harg, hcalls⟩ := h
    obtain ⟨hcall, hval⟩ := hcell trivial
    refine ⟨hk.loadedFn.trans hfn, hcall.trans harg, ?_⟩
    rw [hval]
    exact hk.calls _ _ hcalls
  | claimed k fn hb =>
    obtain ⟨hfn, harg, hcalls, hticked⟩ := h
    obtain ⟨hcall, hval⟩ := hcell trivial
    refine ⟨hk.loadedFn.trans hfn, hcall.trans harg, ?_, hticked.kept hk⟩
    rw [hval]
    exact hk.calls _ _ hcalls
  | ready k fn arg hb =>
    obtain ⟨hfn, harg, hcalls, hticked⟩ := h
    exact ⟨hk.loadedFn.trans hfn, hk.loadedArg.trans harg, hk.calls _ _ hcalls, hticked.kept hk⟩
  | inside => trivial
  | returned => trivial

/-- A step of another thread keeps a view, if it leaves the argument alone while that matters. -/
theorem View.kept (h : s.View u g) (hk : s.Kept s' u)
    (hcell : g.stage.Loading ∨ g.call.isSome = true →
      s'.argCall = s.argCall ∧ s'.deferredArg = s.deferredArg) : s'.View u g := by
  constructor
  · rw [hk.recurse]
    exact h.recurse
  · rw [hk.active]
    exact h.active
  · rw [hk.loading]
    exact h.loading
  · exact h.loaded.kept hk.toKeptLoads fun hload => hcell (Or.inl hload)
  · rw [hk.storing]
    exact h.storing
  · intro k fn hg
    obtain ⟨hcall, harg, hcalls⟩ := h.call k fn hg
    obtain ⟨hargCall, hval⟩ := hcell (Or.inr (by rw [hg]; rfl))
    refine ⟨hk.call.trans hcall, hargCall.trans harg, ?_⟩
    rw [hval]
    exact hk.calls _ _ hcalls

/-- The views after a step of the thread `t`. -/
theorem views (ht : s'.View t g) (h : ∀ u, u ≠ t → s'.View u (γ u)) :
    ∀ u, s'.View u (Function.update γ t g u) := by
  intro u
  by_cases hu : u = t
  · subst hu
    rw [Function.update_self]
    exact ht
  · rw [Function.update_of_ne hu]
    exact h u hu

/-- No thread is between its stores. -/
theorem Inv.call_eq_none (h : s.Inv γ) (hs : s.storing = ∅) (u : ℕ) : (γ u).call = none := by
  have hnot : ¬ (γ u).call.isSome = true := by
    rw [← (h.view u).storing, hs]
    simp
  simpa using hnot

/-! ## The steps -/

theorem Inv.storeArg (h : s.Inv γ) (hs : s.storing = ∅) (hl : s.loading = ∅) (fn arg : ℕ) :
    Inv { s with
      deferredArg := arg
      argCall := s.calls.length
      calls := s.calls ++ [(fn, arg)]
      storing := insert t s.storing
      call := Function.update s.call t s.calls.length }
      (Function.update γ t ⟨(γ t).stage, some (s.calls.length, fn)⟩) := by
  have hnot : ∀ u, ¬ (γ u).stage.Loading := by
    intro u hu
    rw [← (h.view u).loading, hl] at hu
    cases hu
  have hcalls : ∀ (k : ℕ) x, s.calls[k]? = some x → (s.calls ++ [(fn, arg)])[k]? = some x := by
    intro k x hk
    rw [List.getElem?_append_left (List.getElem?_eq_some_iff.mp hk).1]
    exact hk
  have hv := h.view t
  refine ⟨views ?_ ?_, ?_, ?_, ?_, h.taken, h.increasing, h.overflowed⟩
  · refine ⟨hv.recurse, hv.active, hv.loading, ?_, by simp, ?_⟩
    · exact hv.loaded.kept ⟨rfl, rfl, rfl, hcalls, fun _ hi _ => hi⟩ fun hload => (hnot t hload).elim
    · intro k fn' hg
      cases hg
      exact ⟨Function.update_self .., rfl, List.getElem?_concat_length⟩
  · intro u hu
    refine (h.view u).kept ⟨⟨rfl, rfl, rfl, hcalls, fun _ hi _ => hi⟩, rfl, rfl, Iff.rfl, ?_,
      Function.update_of_ne hu ..⟩ ?_
    · rw [Finset.mem_insert]
      exact or_iff_right hu
    rintro (hload | hcall)
    · exact (hnot u hload).elim
    · rw [h.call_eq_none hs u] at hcall
      cases hcall
  · intro x hx y hy
    rw [hs] at hx hy
    simp only [insert_empty_eq, Finset.mem_singleton] at hx hy
    rw [hx, hy]
  · intro hempty
    simp at hempty
  · intro i hi
    obtain ⟨heq, hk⟩ := h.matched i hi
    exact ⟨heq, hcalls _ _ hk⟩

theorem Inv.storeFn (h : s.Inv γ) {k fn : ℕ} (hg : (γ t).call = some (k, fn)) :
    Inv { s with
      deferredFn := fn
      fnCall := s.call t
      storing := s.storing.erase t } (Function.update γ t ⟨(γ t).stage, none⟩) := by
  have hv := h.view t
  obtain ⟨hcall, harg, hk⟩ := hv.call k fn hg
  refine ⟨views ?_ ?_, ?_, ?_, h.matched, h.taken, h.increasing, h.overflowed⟩
  · refine ⟨hv.recurse, hv.active, hv.loading, ?_, by simp, ?_⟩
    · exact hv.loaded.kept ⟨rfl, rfl, rfl, fun _ _ h => h, fun _ h _ => h⟩ fun _ => ⟨rfl, rfl⟩
    · rintro k fn ⟨⟩
  · intro u hu
    apply (h.view u).kept
    · exact ⟨⟨rfl, rfl, rfl, fun _ _ h => h, fun _ h _ => h⟩, rfl, rfl, Iff.rfl, by simp [hu], rfl⟩
    · exact fun _ => ⟨rfl, rfl⟩
  · intro x hx y hy
    exact h.alone x (Finset.mem_of_mem_erase hx) y (Finset.mem_of_mem_erase hy)
  · intro _ _
    refine ⟨hcall.trans harg.symm, ?_⟩
    show s.calls[s.argCall]? = _
    rw [harg]
    exact hk

/-- The cells, the calls and the invocations are left alone. -/
structure SameCells (s s' : DeferredMem) : Prop where
  deferredFn : s'.deferredFn = s.deferredFn
  deferredArg : s'.deferredArg = s.deferredArg
  fnCall : s'.fnCall = s.fnCall
  argCall : s'.argCall = s.argCall
  calls : s'.calls = s.calls
  storing : s'.storing = s.storing
  invoked : s'.invoked = s.invoked
  heartbeat : ∀ u, s.heartbeat u ≤ s'.heartbeat u
  overflowed : s'.overflowed = s.overflowed

/-- A step of a thread that is about its own state. -/
theorem Inv.of_sameCells (h : s.Inv γ) (hsame : SameCells s s') (hview : s'.View t g)
    (hkept : ∀ u, u ≠ t → s.Kept s' u) : s'.Inv (Function.update γ t g) := by
  refine ⟨views hview ?_, ?_, ?_, ?_, ?_, ?_, hsame.overflowed.trans h.overflowed⟩
  · exact fun u hu => (h.view u).kept (hkept u hu) fun _ => ⟨hsame.argCall, hsame.deferredArg⟩
  · rw [hsame.storing]
    exact h.alone
  · rw [hsame.storing, hsame.deferredFn, hsame.deferredArg, hsame.fnCall, hsame.argCall, hsame.calls]
    exact h.cells
  · rw [hsame.invoked, hsame.calls]
    exact h.matched
  · rw [hsame.invoked]
    exact fun i hi => Nat.lt_of_lt_of_le (h.taken i hi) (hsame.heartbeat i.thread)
  · rw [hsame.invoked]
    exact h.increasing

theorem Inv.loadFn (h : s.Inv γ) (hstage : (γ t).stage = .outside) (hfn : s.deferredFn ≠ 0)
    (hs : s.storing = ∅) :
    Inv { s with
      loading := insert t s.loading
      loadedFn := Function.update s.loadedFn t s.fnCall }
      (Function.update γ t ⟨.loaded s.fnCall s.deferredFn, (γ t).call⟩) := by
  have hv := h.view t
  have hrecurse := hv.recurse
  have hactive := hv.active
  rw [hstage] at hrecurse hactive
  obtain ⟨heq, hk⟩ := h.cells hs hfn
  refine h.of_sameCells ⟨rfl, rfl, rfl, rfl, rfl, rfl, rfl, fun _ => le_rfl, rfl⟩ ?_ ?_
  · refine ⟨hrecurse, hactive, by simp [DeferredStage.Loading], ?_, hv.storing, hv.call⟩
    refine ⟨Function.update_self .., heq.symm, ?_⟩
    rw [heq]
    exact hk
  · intro u hu
    exact ⟨⟨Function.update_of_ne hu .., rfl, rfl, fun _ _ h => h, fun _ h _ => h⟩, rfl, rfl,
      by simp [hu], Iff.rfl, rfl⟩

theorem Inv.claim (h : s.Inv γ) {k fn : ℕ} (hstage : (γ t).stage = .loaded k fn)
    (hbeat : s.heartbeat t + 1 < 2 ^ 64) :
    Inv { s with
      recurse := Function.update s.recurse t true
      heartbeat := Function.update s.heartbeat t ((s.heartbeat t + 1) % 2 ^ 64) }
      (Function.update γ t ⟨.claimed k fn (s.heartbeat t), (γ t).call⟩) := by
  have hv := h.view t
  have hloading := hv.loading
  have hactive := hv.active
  have hloaded := hv.loaded
  rw [hstage] at hloading hactive hloaded
  obtain ⟨hfn, harg, hk⟩ := hloaded
  rw [Nat.mod_eq_of_lt hbeat]
  refine h.of_sameCells ⟨rfl, rfl, rfl, rfl, rfl, rfl, rfl, ?_, rfl⟩ ?_ ?_
  · intro u
    by_cases hu : u = t
    · subst hu
      show _ ≤ Function.update s.heartbeat u _ u
      rw [Function.update_self]
      exact Nat.le_succ _
    · show _ ≤ Function.update s.heartbeat t _ u
      rw [Function.update_of_ne hu]
  · refine ⟨Function.update_self .., hactive, hloading, ⟨hfn, harg, hk, ?_, ?_⟩, hv.storing, hv.call⟩
    · show _ = Function.update s.heartbeat t _ t
      rw [Function.update_self]
    · rintro i hi rfl
      exact h.taken i hi
  · intro u hu
    exact ⟨⟨rfl, rfl, Function.update_of_ne hu .., fun _ _ h => h, fun _ h _ => h⟩,
      Function.update_of_ne hu .., rfl, Iff.rfl, Iff.rfl, rfl⟩

theorem Inv.loadArg (h : s.Inv γ) {k fn hb : ℕ} (hstage : (γ t).stage = .claimed k fn hb) :
    Inv { s with
      loading := s.loading.erase t
      loadedArg := Function.update s.loadedArg t s.argCall }
      (Function.update γ t ⟨.ready k fn s.deferredArg hb, (γ t).call⟩) := by
  have hv := h.view t
  have hrecurse := hv.recurse
  have hactive := hv.active
  have hloaded := hv.loaded
  rw [hstage] at hrecurse hactive hloaded
  obtain ⟨hfn, harg, hk, hticked⟩ := hloaded
  refine h.of_sameCells ⟨rfl, rfl, rfl, rfl, rfl, rfl, rfl, fun _ => le_rfl, rfl⟩ ?_ ?_
  · refine ⟨hrecurse, hactive, by simp [DeferredStage.Loading], ?_, hv.storing, hv.call⟩
    exact ⟨hfn, (Function.update_self ..).trans harg, hk, hticked.next, hticked.unseen⟩
  · intro u hu
    exact ⟨⟨rfl, Function.update_of_ne hu .., rfl, fun _ _ h => h, fun _ h _ => h⟩, rfl, rfl,
      by simp [hu], Iff.rfl, rfl⟩

/-- The flag is set, and the callback is not running or no longer. -/
theorem Inv.leave (h : s.Inv γ) (hstage : (γ t).stage = .inside) :
    Inv { s with active := Function.update s.active t (s.active t - 1) }
      (Function.update γ t ⟨.returned, (γ t).call⟩) := by
  have hv := h.view t
  have hrecurse := hv.recurse
  have hactive := hv.active
  have hloading := hv.loading
  rw [hstage] at hrecurse hactive hloading
  rw [if_pos rfl] at hactive
  refine h.of_sameCells ⟨rfl, rfl, rfl, rfl, rfl, rfl, rfl, fun _ => le_rfl, rfl⟩ ?_ ?_
  · refine ⟨hrecurse, ?_, hloading, trivial, hv.storing, hv.call⟩
    show Function.update s.active t _ t = _
    rw [Function.update_self, hactive]
    rfl
  · intro u hu
    exact ⟨⟨rfl, rfl, rfl, fun _ _ h => h, fun _ h _ => h⟩, rfl, Function.update_of_ne hu ..,
      Iff.rfl, Iff.rfl, rfl⟩

theorem Inv.clear (h : s.Inv γ) (hstage : (γ t).stage = .returned) :
    Inv { s with recurse := Function.update s.recurse t false }
      (Function.update γ t ⟨.outside, (γ t).call⟩) := by
  have hv := h.view t
  have hactive := hv.active
  have hloading := hv.loading
  rw [hstage] at hactive hloading
  refine h.of_sameCells ⟨rfl, rfl, rfl, rfl, rfl, rfl, rfl, fun _ => le_rfl, rfl⟩ ?_ ?_
  · exact ⟨Function.update_self .., hactive, hloading, trivial, hv.storing, hv.call⟩
  · intro u hu
    exact ⟨⟨rfl, rfl, rfl, fun _ _ h => h, fun _ h _ => h⟩, Function.update_of_ne hu .., rfl,
      Iff.rfl, Iff.rfl, rfl⟩

/-- **A callback is invoked** with the argument of its own call and a heartbeat of its own. -/
theorem Inv.enter (h : s.Inv γ) {k fn arg hb : ℕ} (hstage : (γ t).stage = .ready k fn arg hb)
    (force : Bool) :
    Inv { s with
      active := Function.update s.active t (s.active t + 1)
      invoked := ⟨t, fn, force, hb, arg, s.loadedFn t, s.loadedArg t⟩ :: s.invoked }
      (Function.update γ t ⟨.inside, (γ t).call⟩) := by
  have hv := h.view t
  have hrecurse := hv.recurse
  have hactive := hv.active
  have hloading := hv.loading
  have hloaded := hv.loaded
  rw [hstage] at hrecurse hactive hloading hloaded
  rw [if_neg (by simp)] at hactive
  obtain ⟨hfn, harg, hk, hticked⟩ := hloaded
  have hnext := hticked.next
  refine ⟨views ?_ ?_, h.alone, h.cells, ?_, ?_, ?_, h.overflowed⟩
  · refine ⟨hrecurse, ?_, hloading, trivial, hv.storing, hv.call⟩
    show Function.update s.active t _ t = _
    rw [Function.update_self, hactive]
    rfl
  · intro u hu
    apply (h.view u).kept
    · refine ⟨⟨rfl, rfl, rfl, fun _ _ h => h, fun i hi hiu => ?_⟩, rfl,
        Function.update_of_ne hu .., Iff.rfl, Iff.rfl, rfl⟩
      rcases List.mem_cons.mp hi with rfl | hi
      · exact (hu hiu.symm).elim
      · exact hi
    · exact fun _ => ⟨rfl, rfl⟩
  · intro i hi
    rcases List.mem_cons.mp hi with rfl | hi
    · refine ⟨hfn.trans harg.symm, ?_⟩
      show s.calls[s.loadedFn t]? = _
      rw [hfn]
      exact hk
    · exact h.matched i hi
  · intro i hi
    rcases List.mem_cons.mp hi with rfl | hi
    · show hb < s.heartbeat t
      omega
    · exact h.taken i hi
  · exact List.pairwise_cons.mpr ⟨fun j hj ht => hticked.unseen j hj ht.symm, h.increasing⟩

end DeferredMem

end MimallocRs
