import MimallocRs.Foundations.Interleave.Progress
import Mathlib.Data.List.Count

/-!
# The spin lock

`SpinLock` of `sync.rs`, and what it is for: any number of threads run sections on data that the
lock guards, each between `lock` and the drop of its guard. The sections, the machine that carries
out their events, and what the clients know of their calls are parameters.

* `Atomically` is the specification: each call runs its section in one step.
* No two threads are in their sections at the same time, and what the threads do under the lock is
  what they do in the specification (`lock_refines_atomic`).
* Whenever a call is running, one of the running calls returns if its thread alone is scheduled
  (`sections_not_deadlocked`).
-/

namespace MimallocRs

open Interleave Prog

variable {E : Type → Type} {α : Type}

/-- The events of the lock, and those of the sections. -/
inductive LockAct (E : Type → Type) (β : Type) : Type
  /-- The weak compare-exchange of `lock`: whether the lock was taken. -/
  | tryLock (answer : Bool → β)
  /-- `locked.load`. -/
  | loadLocked (answer : Bool → β)
  /-- `SpinGuard::drop`. -/
  | unlock (answer : Unit → β)
  /-- An event of a section. -/
  | inside (e : E β)

namespace SpinLock

/-- A round of `lock`'s inner loop, which waits until the lock looks free. -/
def spin (_ : Unit) : Prog (LockAct E) (Unit ⊕ Unit) := do
  if ← perform (.loadLocked id) then return .inl () else return .inr ()

/-- A round of its outer loop. -/
def attempt (_ : Unit) : Prog (LockAct E) (Unit ⊕ Unit) := do
  if ← perform (.tryLock id) then return .inr ()
  else
    iterate spin ()
    return .inl ()

/-- `SpinLock::lock`. -/
def lock : Prog (LockAct E) Unit := iterate attempt ()

/-- What is left of a section, and the drop of its guard. -/
def leaving (p : Prog E α) : Prog (LockAct E) α := do
  let a ← p.hoist .inside
  perform (.unlock id)
  return a

/-- A section while its guard lives. -/
def guarded (p : Prog E α) : Prog (LockAct E) α := do
  lock
  leaving p

/-- What is left of `lock` with `k` after it. -/
inductive Waiting (k : Unit → Prog (LockAct E) α) : Prog (LockAct E) α → Prop
  | again : Waiting k (.loop attempt () k)
  | attempt : Waiting k (.act (.tryLock id) fun b =>
      if b then k () else .loop spin () fun _ => .loop attempt () k)
  | spin : Waiting k (.loop spin () fun _ => .loop attempt () k)
  | look : Waiting k (.act (.loadLocked id) fun b =>
      if b then .loop spin () fun _ => .loop attempt () k else .loop attempt () k)

theorem unfold_attempt (k : Unit → Prog (LockAct E) α) : unfold attempt () k =
    .act (.tryLock id) fun b =>
      if b then k () else .loop spin () fun _ => .loop attempt () k := by
  show Prog.act _ _ = _
  congr
  funext b
  cases b <;> rfl

theorem unfold_spin (k : Unit → Prog (LockAct E) α) : unfold spin () k =
    .act (.loadLocked id) fun b => if b then .loop spin () k else k () := by
  show Prog.act _ _ = _
  congr
  funext b
  cases b <;> rfl

end SpinLock

/-! ## Any number of threads -/

variable {Tid Op : Type} {Res : Op → Type} {D C : Type}

/-- The lock and what it guards. -/
structure LockMem (Tid D C : Type) where
  locked : Bool
  data : D
  /-- What the clients know of their calls. -/
  client : C
  /-- History: the thread that holds the lock. -/
  holder : Option Tid

namespace LockMem

/-- Before the first call. -/
def init (d : D) (x : C) : LockMem Tid D C := ⟨false, d, x, none⟩

/-- The events, by the thread `t`. A weak compare-exchange may fail for no reason. -/
def exec (N : Machine E Tid D) {β : Type} (t : Tid) (e : LockAct E β) (s : LockMem Tid D C)
    (choice : ℕ) : Option (β × LockMem Tid D C) :=
  match e with
  | .tryLock k =>
    if s.locked = false ∧ choice = 0 then some (k true, { s with locked := true, holder := some t })
    else some (k false, s)
  | .loadLocked k => some (k s.locked, s)
  | .unlock k => some (k (), { s with locked := false, holder := none })
  | .inside e => (N.exec t e s.data choice).map fun r => (r.1, { s with data := r.2 })

end LockMem

/-- What clients run under a lock: the machine of the data, the sections, which calls a client may
start, and what it knows after a call. -/
structure Sections (E : Type → Type) (Tid Op : Type) (Res : Op → Type) (D C : Type) where
  machine : Machine E Tid D
  sect : (o : Op) → Prog E (Res o)
  start : Tid → Op → C → Option C
  finish : Tid → (o : Op) → Res o → C → C

/-- Any number of threads that run sections under one lock. -/
def lockSystem (N : Sections E Tid Op Res D C) :
    System (LockAct E) Tid Op Res (LockMem Tid D C) where
  exec t e s choice := s.exec N.machine t e choice
  prog _ o := SpinLock.guarded (N.sect o)
  start t o s := (N.start t o s.client).map fun x => { s with client := x }
  finish t o a s := { s with client := N.finish t o a s.client }

/-! ## The specification -/

/-- Where a thread is in the specification. -/
inductive CallPhase (Op : Type) (Res : Op → Type)
  | idle
  | before (o : Op)
  | after (o : Op) (a : Res o)

/-- The states that calls lead to each of which runs its section in one step. -/
inductive Atomically [DecidableEq Tid] (N : Sections E Tid Op Res D C) (d₀ : D) (x₀ : C) :
    C → D → (Tid → CallPhase Op Res) → Prop
  | init : Atomically N d₀ x₀ x₀ d₀ fun _ => .idle
  | start {x x' : C} {d : D} {φ : Tid → CallPhase Op Res} {t : Tid} {o : Op}
    (h : Atomically N d₀ x₀ x d φ) (ht : φ t = .idle) (hx : N.start t o x = some x') :
    Atomically N d₀ x₀ x' d (Function.update φ t (.before o))
  | sect {x : C} {d d' : D} {φ : Tid → CallPhase Op Res} {t : Tid} {o : Op} {a : Res o}
    (h : Atomically N d₀ x₀ x d φ) (ht : φ t = .before o)
    (hr : Result N.machine t (N.sect o) d a d') :
    Atomically N d₀ x₀ x d' (Function.update φ t (.after o a))
  | finish {x : C} {d : D} {φ : Tid → CallPhase Op Res} {t : Tid} {o : Op} {a : Res o}
    (h : Atomically N d₀ x₀ x d φ) (ht : φ t = .after o a) :
    Atomically N d₀ x₀ (N.finish t o a x) d (Function.update φ t .idle)

/-- Wherever the specification runs a section, the section comes to its end. -/
def Sections.End [DecidableEq Tid] (N : Sections E Tid Op Res D C) (d₀ : D) (x₀ : C) : Prop :=
  ∀ t o x d φ, Atomically N d₀ x₀ x d φ → φ t = .before o →
    Ends N.machine t False (N.sect o) d fun _ _ => True

/-! ## The invariant -/

/-- Where a thread is: it waits for the lock, it holds the lock, with the data as it has found it
and as it is now, or it has left its section with a result. -/
inductive LockGhost (Op : Type) (Res : Op → Type) (D : Type)
  | idle
  | waiting (o : Op)
  | inside (o : Op) (d₁ d : D)
  | left (o : Op) (a : Res o)

/-- Where the specification is: a section happens when its thread leaves it. -/
def LockGhost.phase : LockGhost Op Res D → CallPhase Op Res
  | .idle => .idle
  | .waiting o | .inside o _ _ => .before o
  | .left o a => .after o a

namespace LockMem

variable {N : Sections E Tid Op Res D C} {d₀ : D} {x₀ : C} {s : LockMem Tid D C}
  {γ : Tid → LockGhost Op Res D} {t u : Tid} {o : Op}

/-- What is known of the lock and of the thread that holds it. -/
structure Holding (s : LockMem Tid D C) (γ : Tid → LockGhost Op Res D) : Prop where
  locked : s.locked = true ↔ s.holder ≠ none
  holder : ∀ t, s.holder = some t ↔ ∃ o d₁ d, γ t = .inside o d₁ d

/-- A thread that holds the lock is the only one. -/
theorem Holding.others {d₁ d : D} (h : s.Holding γ) (ht : γ t = .inside o d₁ d) (hu : u ≠ t)
    {o' : Op} {d₁' d' : D} : γ u ≠ .inside o' d₁' d' := by
  intro hin
  have hs := (h.holder t).mpr ⟨_, _, _, ht⟩
  rw [(h.holder u).mpr ⟨_, _, _, hin⟩] at hs
  exact hu (Option.some.inj hs)

theorem Holding.not_inside (h : s.Holding γ) (hs : s.locked = false) {d₁ d : D} :
    γ t ≠ .inside o d₁ d := by
  intro ht
  have hholder := (h.holder t).mpr ⟨_, _, _, ht⟩
  have hlocked := h.locked.mpr (by simp [hholder])
  rw [hs] at hlocked
  cases hlocked

variable [DecidableEq Tid]

/-- **The invariant.** The specification has got to the data as the holder of the lock, if any, has
found it. -/
structure Inv (N : Sections E Tid Op Res D C) (d₀ : D) (x₀ : C) (s : LockMem Tid D C)
    (γ : Tid → LockGhost Op Res D) (d : D) : Prop where
  holding : s.Holding γ
  spec : Atomically N d₀ x₀ s.client d fun t => (γ t).phase
  free : s.holder = none → s.data = d
  held : ∀ t o d₁ d₂, γ t = .inside o d₁ d₂ → d₁ = d ∧ d₂ = s.data

theorem phase_update (γ : Tid → LockGhost Op Res D) (t : Tid) (g : LockGhost Op Res D) :
    (fun u => (Function.update γ t g u).phase) =
      Function.update (fun u => (γ u).phase) t g.phase := by
  funext u
  by_cases hu : u = t
  · subst hu
    simp
  · simp [hu]

theorem phase_update_self {g : LockGhost Op Res D} (hg : g.phase = (γ t).phase) :
    (fun u => (Function.update γ t g u).phase) = fun u => (γ u).phase := by
  rw [phase_update, hg]
  exact Function.update_eq_self t fun u => (γ u).phase

theorem inv_init : Inv N d₀ x₀ (init d₀ x₀ : LockMem Tid D C) (fun _ => .idle) d₀ :=
  ⟨⟨by simp [init], by simp [init]⟩, .init, fun _ => rfl, by rintro t o d₁ d₂ ⟨⟩⟩

variable {d : D}

/-- A thread that does not hold the lock moves on in its call, and does not take the lock. -/
theorem Inv.elsewhere (h : Inv N d₀ x₀ s γ d) {g : LockGhost Op Res D} {x : C}
    (ht : ∀ o d₁ d, γ t ≠ .inside o d₁ d) (hg : ∀ o d₁ d, g ≠ .inside o d₁ d)
    (hspec : Atomically N d₀ x₀ x d (Function.update (fun u => (γ u).phase) t g.phase)) :
    Inv N d₀ x₀ { s with client := x } (Function.update γ t g) d := by
  have hinside : ∀ u o d₁ d, Function.update γ t g u = .inside o d₁ d ↔ γ u = .inside o d₁ d := by
    intro u o d₁ d
    by_cases hu : u = t
    · subst hu
      rw [Function.update_self]
      exact iff_of_false (hg o d₁ d) (ht o d₁ d)
    · rw [Function.update_of_ne hu]
  refine ⟨⟨h.holding.locked, fun u => ?_⟩, ?_, h.free, ?_⟩
  · simp only [hinside]
    exact h.holding.holder u
  · rw [phase_update]
    exact hspec
  · simp only [hinside]
    exact h.held

/-- The lock is taken. -/
theorem Inv.tryLock (h : Inv N d₀ x₀ s γ d) (hs : s.locked = false) (ht : γ t = .waiting o) :
    Inv N d₀ x₀ { s with locked := true, holder := some t }
      (Function.update γ t (.inside o s.data s.data)) d := by
  have hnone : s.holder = none := by
    by_contra hne
    rw [h.holding.locked.mpr hne] at hs
    cases hs
  refine ⟨⟨by simp, fun u => ?_⟩, ?_, by simp, fun u o' d₁ d₂ hu => ?_⟩
  · by_cases hu : u = t
    · subst hu
      simp
    · rw [Function.update_of_ne hu]
      simp [Ne.symm hu, h.holding.not_inside hs]
  · rw [phase_update_self (by rw [ht]; rfl)]
    exact h.spec
  · by_cases hut : u = t
    · subst hut
      rw [Function.update_self] at hu
      cases hu
      exact ⟨h.free hnone, rfl⟩
    · rw [Function.update_of_ne hut] at hu
      exact absurd hu (h.holding.not_inside hs)

/-- An event of the section of the thread that holds the lock. -/
theorem Inv.inside {d₁ d₂ : D} (h : Inv N d₀ x₀ s γ d) (ht : γ t = .inside o d₁ d₂) (d' : D) :
    Inv N d₀ x₀ { s with data := d' } (Function.update γ t (.inside o d₁ d')) d := by
  have hholder := (h.holding.holder t).mpr ⟨_, _, _, ht⟩
  refine ⟨⟨h.holding.locked, fun u => ?_⟩, ?_, by simp [hholder], fun u o' e₁ e hu => ?_⟩
  · by_cases hu : u = t
    · subst hu
      simp [hholder]
    · rw [Function.update_of_ne hu]
      exact h.holding.holder u
  · rw [phase_update_self (by rw [ht]; rfl)]
    exact h.spec
  · by_cases hut : u = t
    · subst hut
      rw [Function.update_self] at hu
      cases hu
      exact ⟨(h.held u _ _ _ ht).1, rfl⟩
    · rw [Function.update_of_ne hut] at hu
      exact absurd hu (h.holding.others ht hut)

/-- The guard is dropped, after the section. -/
theorem Inv.unlock {d₁ d₂ : D} {a : Res o} (h : Inv N d₀ x₀ s γ d) (ht : γ t = .inside o d₁ d₂)
    (hr : Result N.machine t (N.sect o) d₁ a d₂) :
    Inv N d₀ x₀ { s with locked := false, holder := none }
      (Function.update γ t (.left o a)) s.data := by
  obtain ⟨rfl, rfl⟩ := h.held t _ _ _ ht
  have hout : ∀ u o' d₁ d, Function.update γ t (.left o a) u ≠ .inside o' d₁ d := by
    intro u o' d₁ d
    by_cases hu : u = t
    · subst hu
      simp
    · rw [Function.update_of_ne hu]
      exact h.holding.others ht hu
  refine ⟨⟨by simp, fun u => by simp [hout u]⟩, ?_, fun _ => rfl, ?_⟩
  · rw [phase_update]
    exact h.spec.sect (by rw [ht]; rfl) hr
  · exact fun u o' e₁ e hu => absurd hu (hout u _ _ _)

end LockMem

/-! ## Runs -/

/-- A thread has taken the lock and not yet dropped its guard: its next event is one of its section
or drops the guard. -/
def LockAct.InSection {β : Type} : LockAct E β → Prop
  | .inside _ | .unlock _ => True
  | _ => False

/-- What is left of a call, given the ghost of its thread. If `ends` holds, the section comes to an
end. -/
def LockThread (N : Sections E Tid Op Res D C) (ends : Prop) (t : Tid) :
    LockGhost Op Res D → Option (Σ o : Op, Prog (LockAct E) (Res o)) → Prop
  | .idle, x => x = none
  | .waiting o, x => ∃ p, x = some ⟨o, p⟩ ∧
      SpinLock.Waiting (fun _ => SpinLock.leaving (N.sect o)) p
  | .inside o d₁ d, x => ∃ q, x = some ⟨o, SpinLock.leaving q⟩ ∧
      (∀ a d', Result N.machine t q d a d' → Result N.machine t (N.sect o) d₁ a d') ∧
      (ends → Ends N.machine t False q d fun _ _ => True)
  | .left o a, x => x = some ⟨o, .ret a⟩

variable [DecidableEq Tid] {N : Sections E Tid Op Res D C} {ends : Prop} {d₀ : D}
  {x₀ : C} {c c' : Config (LockAct E) Tid Op Res (LockMem Tid D C)}
  {γ : Tid → LockGhost Op Res D} {t : Tid} {d : D}

/-- What holds of a configuration: the invariant, at ghosts that say where each thread is. -/
structure LockRun (N : Sections E Tid Op Res D C) (ends : Prop) (d₀ : D) (x₀ : C)
    (c : Config (LockAct E) Tid Op Res (LockMem Tid D C)) (γ : Tid → LockGhost Op Res D) (d : D) :
    Prop where
  inv : c.mem.Inv N d₀ x₀ γ d
  thread : ∀ t, LockThread N ends t (γ t) (c.thread t)

/-- A move of the thread `t`. -/
theorem LockRun.move (h : LockRun N ends d₀ x₀ c γ d) {s : LockMem Tid D C}
    {g : LockGhost Op Res D} {x : Option (Σ o : Op, Prog (LockAct E) (Res o))} {d' : D}
    (hinv : s.Inv N d₀ x₀ (Function.update γ t g) d')
    (hx : LockThread N ends t g x) :
    LockRun N ends d₀ x₀ ⟨s, Function.update c.thread t x⟩ (Function.update γ t g) d' := by
  refine ⟨hinv, fun u => ?_⟩
  by_cases hu : u = t
  · subst hu
    simpa using hx
  · simpa [hu] using h.thread u

/-- A move of the thread `t` that changes nothing of the lock and of the data. -/
theorem LockRun.stay (h : LockRun N ends d₀ x₀ c γ d)
    {x : Option (Σ o : Op, Prog (LockAct E) (Res o))} (hx : LockThread N ends t (γ t) x) :
    LockRun N ends d₀ x₀ ⟨c.mem, Function.update c.thread t x⟩ γ d := by
  have hmove := h.move (t := t) (g := γ t) (s := c.mem) (x := x) (by
    rw [Function.update_eq_self]
    exact h.inv) hx
  rwa [Function.update_eq_self] at hmove

/-- The holder of the lock finds the data as it has left it. -/
theorem LockRun.data_eq (h : LockRun N ends d₀ x₀ c γ d) {o : Op} {d₁ d₂ : D}
    (ht : γ t = .inside o d₁ d₂) : d₂ = c.mem.data :=
  (h.inv.held t _ _ _ ht).2

/-- A step of a thread that waits for the lock. -/
theorem LockRun.step_waiting
    (hends : ends → N.End d₀ x₀) (h : LockRun N ends d₀ x₀ c γ d) {o : Op}
    (ht : γ t = .waiting o)
    {p p' : Prog (LockAct E) (Res o)} {choice : ℕ} {s : LockMem Tid D C}
    (hp : SpinLock.Waiting (fun _ => SpinLock.leaving (N.sect o)) p)
    (hs : (lockSystem N).advance t choice o c.mem p = some (s, p')) :
    ∃ γ' d', LockRun N ends d₀ x₀ ⟨s, Function.update c.thread t (some ⟨o, p'⟩)⟩ γ' d' := by
  have stay : ∀ p', SpinLock.Waiting (fun _ => SpinLock.leaving (N.sect o)) p' →
      LockRun N ends d₀ x₀ ⟨c.mem, Function.update c.thread t (some ⟨o, p'⟩)⟩ γ d := by
    intro p' hp'
    apply h.stay
    rw [ht]
    exact ⟨p', rfl, hp'⟩
  cases hp with
  | again =>
    cases hs
    rw [SpinLock.unfold_attempt]
    exact ⟨γ, d, stay _ .attempt⟩
  | attempt =>
    obtain ⟨⟨b, s'⟩, hb, he⟩ := Option.map_eq_some_iff.mp hs
    cases he
    by_cases hc : c.mem.locked = false ∧ choice = 0
    · -- the lock is taken
      cases (if_pos hc).symm.trans hb
      have hinv := h.inv.tryLock hc.1 ht
      refine ⟨_, d, h.move hinv ⟨N.sect o, rfl, fun _ _ hr => hr, fun he => ?_⟩⟩
      have hdata : c.mem.data = d := (hinv.held t _ _ _ (Function.update_self ..)).1
      rw [hdata]
      exact hends he t o _ d _ h.inv.spec (by rw [ht]; rfl)
    · cases (if_neg hc).symm.trans hb
      exact ⟨γ, d, stay _ .spin⟩
  | spin =>
    cases hs
    rw [SpinLock.unfold_spin]
    exact ⟨γ, d, stay _ .look⟩
  | look =>
    cases hs
    refine ⟨γ, d, stay _ ?_⟩
    cases c.mem.locked with
    | true => exact .spin
    | false => exact .again

/-- A step of the thread that holds the lock. -/
theorem LockRun.step_inside (h : LockRun N ends d₀ x₀ c γ d) {o : Op} {d₁ d₂ : D}
    (ht : γ t = .inside o d₁ d₂) {q : Prog E (Res o)} {p' : Prog (LockAct E) (Res o)}
    {choice : ℕ} {s : LockMem Tid D C}
    (hq : ∀ a d', Result N.machine t q d₂ a d' → Result N.machine t (N.sect o) d₁ a d')
    (hends : ends → Ends N.machine t False q d₂ fun _ _ => True)
    (hs : (lockSystem N).advance t choice o c.mem (SpinLock.leaving q) = some (s, p')) :
    ∃ γ' d', LockRun N ends d₀ x₀ ⟨s, Function.update c.thread t (some ⟨o, p'⟩)⟩ γ' d' := by
  have hdata := h.data_eq ht
  subst hdata
  cases q with
  | ret a =>
    -- the guard is dropped
    cases hs
    exact ⟨_, _, h.move (h.inv.unlock ht (hq a _ (.ret ..))) rfl⟩
  | act e k =>
    obtain ⟨⟨b, s'⟩, hb, he⟩ := Option.map_eq_some_iff.mp hs
    cases he
    obtain ⟨⟨b', d'⟩, hb', he⟩ := Option.map_eq_some_iff.mp hb
    cases he
    refine ⟨_, d, h.move (h.inv.inside ht d') ⟨k b', rfl, ?_, fun he => ?_⟩⟩
    · exact fun a d'' hr => hq a d'' (.act hb' hr)
    · cases hends he with
      | act _ hsome => exact hsome choice b' d' hb'
  | loop body b k =>
    cases hs
    refine ⟨γ, d, h.stay ?_⟩
    rw [ht]
    refine ⟨Prog.unfold body b k, ?_, fun a d' hr => hq a d' (.loop hr), fun he => ?_⟩
    · simp only [SpinLock.leaving, bind_eq, hoist_unfold, unfold_bind]
    · cases hends he with
      | loop hends => exact hends

/-- **What every configuration that is reached satisfies.** -/
theorem LockRun.reachable (hends : ends → N.End d₀ x₀)
    (h : (lockSystem N).Reachable (· = .init d₀ x₀) System.anyMove c) :
    ∃ γ d, LockRun N ends d₀ x₀ c γ d := by
  induction h with
  | init hs =>
    subst hs
    exact ⟨_, d₀, LockMem.inv_init, fun _ => rfl⟩
  | @next c c' m _ _ hm ih =>
    obtain ⟨γ, d, ih⟩ := ih
    cases m with
    | start t o =>
      obtain ⟨hnone, s, hs, rfl⟩ := System.next_start hm
      obtain ⟨x, hx, rfl⟩ := Option.map_eq_some_iff.mp hs
      have ht := ih.thread t
      rw [hnone] at ht
      have hidle : γ t = .idle := by
        cases hg : γ t with
        | idle => rfl
        | waiting o =>
          rw [hg] at ht
          obtain ⟨p, hp, -⟩ := ht
          cases hp
        | inside o d₁ d =>
          rw [hg] at ht
          obtain ⟨q, hq, -⟩ := ht
          cases hq
        | left o a =>
          rw [hg] at ht
          cases ht
      have hinv := ih.inv.elsewhere (t := t) (g := .waiting o) (x := x) (by simp [hidle]) (by simp)
        (ih.inv.spec.start (by rw [hidle]; rfl) hx)
      exact ⟨_, d, ih.move hinv ⟨_, rfl, .again⟩⟩
    | step t choice =>
      obtain ⟨o, p, s, p', hp, hs, rfl⟩ := System.next_step hm
      have ht := ih.thread t
      cases hg : γ t with
      | idle =>
        rw [hg, hp] at ht
        cases ht
      | waiting o' =>
        rw [hg, hp] at ht
        obtain ⟨p, hp, hwaiting⟩ := ht
        cases hp
        exact ih.step_waiting hends hg hwaiting hs
      | inside o' d₁ d =>
        rw [hg, hp] at ht
        obtain ⟨q, hp, hq, hends⟩ := ht
        cases hp
        exact ih.step_inside hg hq hends hs
      | left o' a =>
        rw [hg, hp] at ht
        cases ht
        cases hs
    | finish t =>
      obtain ⟨o, a, hp, rfl⟩ := System.next_finish hm
      have ht := ih.thread t
      cases hg : γ t with
      | idle =>
        rw [hg, hp] at ht
        cases ht
      | waiting o' =>
        rw [hg, hp] at ht
        obtain ⟨p, hp, hwaiting⟩ := ht
        cases hp
        cases hwaiting
      | inside o' d₁ d =>
        rw [hg, hp] at ht
        obtain ⟨q, hq, -⟩ := ht
        simp only [Option.some.injEq, Sigma.mk.injEq] at hq
        obtain ⟨rfl, hq⟩ := hq
        cases q <;> cases hq
      | left o' a' =>
        rw [hg, hp] at ht
        cases ht
        have hinv := ih.inv.elsewhere (t := t) (g := .idle) (by simp [hg]) (by simp)
          (ih.inv.spec.finish (by rw [hg]; rfl))
        exact ⟨_, d, ih.move hinv rfl⟩

/-! ## What the lock is for -/

/-- A thread is in its section. -/
def InSection (c : Config (LockAct E) Tid Op Res (LockMem Tid D C)) (t : Tid) : Prop :=
  ∃ (o : Op) (β : Type) (e : LockAct E β) (k : β → Prog (LockAct E) (Res o)),
    c.thread t = some ⟨o, .act e k⟩ ∧ e.InSection

/-- The call that a thread is running is at the phase of the specification: it has the result once
its section is over. -/
def AtPhase (x : Option (Σ o : Op, Prog (LockAct E) (Res o))) : CallPhase Op Res → Prop
  | .idle => x = none
  | .before o => ∃ p, x = some ⟨o, p⟩ ∧ ∀ a, p ≠ .ret a
  | .after o a => x = some ⟨o, .ret a⟩

theorem SpinLock.leaving_ne_ret (q : Prog E α) (a : α) : SpinLock.leaving q ≠ .ret a := by
  intro h
  cases q <;> cases h

omit [DecidableEq Tid] in
theorem LockThread.atPhase {g : LockGhost Op Res D}
    {x : Option (Σ o : Op, Prog (LockAct E) (Res o))} (h : LockThread N ends t g x) :
    AtPhase x g.phase := by
  cases g with
  | idle => exact h
  | waiting o =>
    obtain ⟨p, hx, hp⟩ := h
    refine ⟨p, hx, fun a hret => ?_⟩
    rw [hret] at hp
    cases hp
  | inside o d₁ d =>
    obtain ⟨q, hx, -⟩ := h
    exact ⟨_, hx, SpinLock.leaving_ne_ret q⟩
  | left o a => exact h

omit [DecidableEq Tid] in
/-- Nothing of a call that waits for the lock is in a section. -/
theorem SpinLock.Waiting.not_inSection {β : Type} {e : LockAct E β} {f : β → Prog (LockAct E) α}
    {k : Unit → Prog (LockAct E) α} (h : SpinLock.Waiting k (.act e f)) : ¬ e.InSection := by
  cases h with
  | attempt => exact id
  | look => exact id

/-- A thread in its section holds the lock. -/
theorem LockRun.holder (h : LockRun N ends d₀ x₀ c γ d) (ht : InSection c t) :
    c.mem.holder = some t := by
  obtain ⟨o, β, e, k, hp, he⟩ := ht
  have hthread := h.thread t
  rw [h.inv.holding.holder]
  cases hg : γ t with
  | idle =>
    rw [hg, hp] at hthread
    cases hthread
  | waiting o' =>
    rw [hg, hp] at hthread
    obtain ⟨p, hp, hwaiting⟩ := hthread
    cases hp
    exact absurd he hwaiting.not_inSection
  | inside o' d₁ d => exact ⟨o', d₁, d, rfl⟩
  | left o' a =>
    rw [hg, hp] at hthread
    cases hthread

omit [DecidableEq Tid] in
/-- The phase of a call whose section is over. -/
theorem AtPhase.after {f : CallPhase Op Res} {o : Op} {a : Res o}
    (h : AtPhase (some ⟨o, (.ret a : Prog (LockAct E) (Res o))⟩) f) : f = .after o a := by
  cases f with
  | idle => cases h
  | before o' =>
    obtain ⟨p, hp, hret⟩ := h
    cases hp
    exact absurd rfl (hret a)
  | after o' a' =>
    cases h
    rfl

omit [DecidableEq Tid] in
theorem AtPhase.idle {f : CallPhase Op Res}
    (h : AtPhase (none : Option (Σ o : Op, Prog (LockAct E) (Res o))) f) : f = .idle := by
  cases f with
  | idle => rfl
  | before o =>
    obtain ⟨p, hp, -⟩ := h
    cases hp
  | after o a => cases h

/-- The sections exclude each other. -/
theorem inSection_unique (h : (lockSystem N).Reachable (· = .init d₀ x₀) System.anyMove c)
    {u : Tid} (ht : InSection c t) (hu : InSection c u) : t = u := by
  obtain ⟨γ, d, hrun⟩ := LockRun.reachable False.elim h
  exact Option.some.inj ((hrun.holder ht).symm.trans (hrun.holder hu))

/-- What is done under the lock is what is done in the specification. -/
theorem exists_atomically (h : (lockSystem N).Reachable (· = .init d₀ x₀) System.anyMove c) :
    ∃ d φ, Atomically N d₀ x₀ c.mem.client d φ ∧ (∀ t, AtPhase (c.thread t) (φ t)) ∧
      (c.mem.locked = false → c.mem.data = d) := by
  obtain ⟨γ, d, hrun⟩ := LockRun.reachable False.elim h
  refine ⟨d, _, hrun.inv.spec, fun t => (hrun.thread t).atPhase, fun hlocked => ?_⟩
  apply hrun.inv.free
  by_contra hne
  rw [hrun.inv.holding.locked.mpr hne] at hlocked
  cases hlocked

/-- Between calls no thread holds the lock. -/
theorem unlocked_of_quiescent (h : (lockSystem N).Reachable (· = .init d₀ x₀) System.anyMove c)
    (hq : c.Quiescent) : c.mem.locked = false := by
  obtain ⟨γ, d, hrun⟩ := LockRun.reachable False.elim h
  by_contra hlocked
  rw [Bool.not_eq_false, hrun.inv.holding.locked] at hlocked
  obtain ⟨t, ht⟩ := Option.ne_none_iff_exists'.mp hlocked
  obtain ⟨o, d₁, d₂, hg⟩ := (hrun.inv.holding.holder t).mp ht
  have hphase := (hrun.thread t).atPhase
  rw [hq t, hg] at hphase
  cases hphase.idle

/-- **The lock makes sections atomic.** They exclude each other, and what the threads do is what they
do in the specification, which is at the same phase of every call and knows the same of the calls;
whenever no thread holds the lock, it has the same data. Between calls no thread holds it. -/
theorem lock_refines_atomic
    (h : (lockSystem N).Reachable (· = .init d₀ x₀) System.anyMove c) :
    (∀ t u, InSection c t → InSection c u → t = u) ∧
    (∃ d φ, Atomically N d₀ x₀ c.mem.client d φ ∧ (∀ t, AtPhase (c.thread t) (φ t)) ∧
      (c.mem.locked = false → c.mem.data = d)) ∧
    (c.Quiescent → c.mem.locked = false) :=
  ⟨fun _ _ ht hu => inSection_unique h ht hu, exists_atomically h, unlocked_of_quiescent h⟩

/-! ## Going on -/

omit [DecidableEq Tid] in
/-- The thread that holds the lock runs its section to the end and drops its guard. -/
theorem leaving_result {o : Op} {q : Prog E (Res o)} {s : LockMem Tid D C}
    (h : Ends N.machine t False q s.data fun _ _ => True) :
    ∃ a s', Result (lockSystem N).toMachine t (SpinLock.leaving q) s a s' := by
  have hends : Ends (lockSystem N).toMachine t False (SpinLock.leaving q) s fun _ _ => True := by
    apply Ends.bind
    apply (Ends.hoist (N := (lockSystem N).toMachine) (fun e => LockAct.inside e) LockMem.data
      (fun d s => { s with data := d }) (fun _ _ _ => rfl) (fun _ _ => rfl) (fun _ => rfl)
      (fun _ _ _ => rfl) h).mono
    intro a s' _
    apply Ends.act
    · rintro choice ⟨⟩
    · rintro choice b s'' ⟨⟩
      exact .ret trivial
  obtain ⟨a, s', hr, -⟩ := hends.exists_result_of
  exact ⟨a, s', hr⟩

omit [DecidableEq Tid] in
/-- A thread that waits for the lock takes it once it is free. -/
theorem waiting_result {o : Op} {p : Prog (LockAct E) (Res o)} {s : LockMem Tid D C}
    (hfree : s.locked = false) (h : Ends N.machine t False (N.sect o) s.data fun _ _ => True)
    (hp : SpinLock.Waiting (fun _ => SpinLock.leaving (N.sect o)) p) :
    ∃ a s', Result (lockSystem N).toMachine t p s a s' := by
  have hcan : s.locked = false ∧ 0 = 0 := ⟨hfree, rfl⟩
  obtain ⟨a, s', hleaving⟩ := leaving_result
    (s := { s with locked := true, holder := some t }) h
  have hattempt : Result (lockSystem N).toMachine t (.act (.tryLock id) fun b =>
      if b then SpinLock.leaving (N.sect o)
      else .loop SpinLock.spin () fun _ => .loop SpinLock.attempt () fun _ =>
        SpinLock.leaving (N.sect o)) s a s' := by
    have hexec : (lockSystem N).exec t (.tryLock id) s 0 =
        some (true, { s with locked := true, holder := some t }) := if_pos hcan
    exact .act hexec hleaving
  have hagain : Result (lockSystem N).toMachine t (.loop SpinLock.attempt () fun _ =>
      SpinLock.leaving (N.sect o)) s a s' := by
    apply Result.loop
    rw [SpinLock.unfold_attempt]
    exact hattempt
  have hlook : Result (lockSystem N).toMachine t (.act (.loadLocked id) fun b =>
      if b then .loop SpinLock.spin () fun _ => .loop SpinLock.attempt () fun _ =>
        SpinLock.leaving (N.sect o)
      else .loop SpinLock.attempt () fun _ => SpinLock.leaving (N.sect o)) s a s' := by
    have hexec : (lockSystem N).exec t (.loadLocked id) s 0 = some (false, s) := by
      show some (s.locked, s) = _
      rw [hfree]
    exact .act hexec hagain
  refine ⟨a, s', ?_⟩
  cases hp with
  | again => exact hagain
  | attempt => exact hattempt
  | spin =>
    apply Result.loop
    rw [SpinLock.unfold_spin]
    exact hlook
  | look => exact hlook

/-- Sections that come to their end do not block each other: whenever a call is running, there is
one that returns by moves of its thread alone. -/
theorem sections_not_deadlocked (hends : N.End d₀ x₀)
    (h : (lockSystem N).Reachable (· = .init d₀ x₀) System.anyMove c) (ht : c.thread t ≠ none) :
    ∃ u ms c', c.thread u ≠ none ∧ (∀ m ∈ ms, Move.thread m = u) ∧
      (lockSystem N).run ms c = some c' ∧ c'.thread u = none := by
  obtain ⟨γ, d, hrun⟩ := LockRun.reachable (fun _ : True => hends) h
  -- an execution of what is left of a call is enough
  have enough : ∀ u o p a s', c.thread u = some ⟨o, p⟩ →
      Result (lockSystem N).toMachine u p c.mem a s' →
      ∃ u ms c', c.thread u ≠ none ∧ (∀ m ∈ ms, Move.thread m = u) ∧
        (lockSystem N).run ms c = some c' ∧ c'.thread u = none := by
    intro u o p a s' hu hr
    obtain ⟨ms, hms, hc⟩ := System.run_of_result hr rfl hu
    exact ⟨u, ms, _, by simp [hu], hms, hc, Function.update_self ..⟩
  cases hholder : c.mem.holder with
  | some u =>
    obtain ⟨o, d₁, d₂, hg⟩ := (hrun.inv.holding.holder u).mp hholder
    have hthread := hrun.thread u
    rw [hg] at hthread
    obtain ⟨q, hp, -, hq⟩ := hthread
    have hdata := hrun.data_eq hg
    subst hdata
    obtain ⟨a, s', hr⟩ := leaving_result (hq trivial)
    exact enough u o _ a s' hp hr
  | none =>
    have hlocked : c.mem.locked = false := by
      simpa [hholder] using hrun.inv.holding.locked
    have hthread := hrun.thread t
    cases hg : γ t with
    | idle =>
      rw [hg] at hthread
      exact absurd hthread ht
    | waiting o =>
      rw [hg] at hthread
      obtain ⟨p, hp, hwaiting⟩ := hthread
      have hsect := hends t o _ d _ hrun.inv.spec (by rw [hg]; rfl)
      rw [← hrun.inv.free hholder] at hsect
      obtain ⟨a, s', hr⟩ := waiting_result hlocked hsect hwaiting
      exact enough t o p a s' hp hr
    | inside o d₁ d₂ => exact absurd hg (hrun.inv.holding.not_inside hlocked)
    | left o a =>
      rw [hg] at hthread
      exact enough t o _ a _ hthread (.ret ..)

end MimallocRs
