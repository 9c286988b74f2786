import MimallocRs.Foundations.Interleave.Alone
import Mathlib.Logic.Relation

/-!
# The write-once cell

`OnceBox` of `sync.rs`. Any number of threads call `get_or_init`, each with a closure of its own,
and go on with the value. The closures and what the callers do with the value act on a further state;
both and the machine of that state are parameters.

However the threads are interleaved, at most one closure is run, on the state as it was before the
first call, and with no step of a caller in between; every caller goes on with its value
(`initialized_once`). What the callers keep, they keep from the end of that closure on
(`OnceRun.keeps`).
-/

namespace MimallocRs

open Interleave Prog

variable {E : Type → Type} {V α : Type}

/-- The state of a cell. -/
inductive OnceState
  | uninit | initializing | ready
  deriving DecidableEq

/-- The events of a cell, of the closures and of the callers. -/
inductive OnceAct (E : Type → Type) (V β : Type) : Type
  /-- `state.load`. -/
  | loadState (answer : OnceState → β)
  /-- The compare-exchange of `init_slow`: whether it has succeeded. -/
  | claim (answer : Bool → β)
  /-- The value is written. -/
  | write (v : V) (answer : Unit → β)
  /-- `state.store(READY)`. -/
  | setReady (answer : Unit → β)
  /-- `assume_init_ref`. -/
  | assumeInit (answer : V → β)
  /-- An event of a closure. -/
  | init (e : E β)
  /-- An event of a caller that has the value. -/
  | use (e : E β)

namespace OnceBox

/-- A round of the loop of `init_slow` that waits for the value. -/
def wait (_ : Unit) : Prog (OnceAct E V) (Unit ⊕ Unit) := do
  if (← perform (.loadState id)) ≠ .ready then return .inl () else return .inr ()

/-- What is left of a closure, and the publication of its value. -/
def publish (f : Prog E V) : Prog (OnceAct E V) Unit := do
  let v ← f.hoist .init
  perform (.write v id)
  perform (.setReady id)

/-- `OnceBox::init_slow`. -/
def initSlow (f : Prog E V) : Prog (OnceAct E V) Unit := do
  if ← perform (.claim id) then publish f else iterate wait ()

/-- `OnceBox::get_or_init`. -/
def getOrInit (f : Prog E V) : Prog (OnceAct E V) V := do
  if (← perform (.loadState id)) ≠ .ready then
    initSlow f
    perform (.assumeInit id)
  else
    perform (.assumeInit id)

end OnceBox

/-! ## Any number of threads -/

variable {Tid Op : Type} {Res : Op → Type} {S : Type}

/-- The cell and the state on which the closures and the callers act. -/
structure OnceMem (V S : Type) where
  state : OnceState
  value : Option V
  rest : S
  /-- History: how many closures have been started. -/
  started : ℕ

namespace OnceMem

/-- Before the first call. -/
def init (s : S) : OnceMem V S := ⟨.uninit, none, s, 0⟩

/-- The events, by the thread `t`. To read a value that has not been written is undefined. -/
def exec (M : Machine E Tid S) {β : Type} (t : Tid) (e : OnceAct E V β) (s : OnceMem V S)
    (choice : ℕ) : Option (β × OnceMem V S) :=
  match e with
  | .loadState k => some (k s.state, s)
  | .claim k =>
    if s.state = .uninit then
      some (k true, { s with state := .initializing, started := s.started + 1 })
    else some (k false, s)
  | .write v k => some (k (), { s with value := some v })
  | .setReady k => some (k (), { s with state := .ready })
  | .assumeInit k => s.value.map fun v => (k v, s)
  | .init e | .use e => (M.exec t e s.rest choice).map fun r => (r.1, { s with rest := r.2 })

end OnceMem

/-- What the callers of one cell run: the machine of the state, their closures, and what they do with
the value. -/
structure OnceUsers (E : Type → Type) (Tid Op : Type) (Res : Op → Type) (V S : Type) where
  machine : Machine E Tid S
  closure : Op → Prog E V
  body : (o : Op) → V → Prog E (Res o)

/-- What a caller does once it is to read the value. -/
def OnceUsers.reading (N : OnceUsers E Tid Op Res V S) (o : Op) : Prog (OnceAct E V) (Res o) :=
  .act (.assumeInit id) fun v => (N.body o v).hoist .use

/-- Any number of threads that use one cell. -/
def onceSystem (N : OnceUsers E Tid Op Res V S) :
    System (OnceAct E V) Tid Op Res (OnceMem V S) where
  exec t e s choice := s.exec N.machine t e choice
  prog _ o := do
    let v ← OnceBox.getOrInit (N.closure o)
    (N.body o v).hoist .use
  start _ _ s := some s
  finish _ _ _ s := s

/-! ## Where a call is -/

namespace OnceUsers

variable {N : OnceUsers E Tid Op Res V S} {o : Op}

/-- A call that has not claimed the cell. -/
inductive Early (N : OnceUsers E Tid Op Res V S) (o : Op) : Prog (OnceAct E V) (Res o) → Prop
  | first : Early N o (.act (.loadState id) fun s =>
      if s ≠ .ready then .act (.claim id) fun b =>
        if b then (OnceBox.publish (N.closure o)).bind fun _ => N.reading o
        else .loop OnceBox.wait () fun _ => N.reading o
      else N.reading o)
  | claim : Early N o (.act (.claim id) fun b =>
      if b then (OnceBox.publish (N.closure o)).bind fun _ => N.reading o
      else .loop OnceBox.wait () fun _ => N.reading o)
  | wait : Early N o (.loop OnceBox.wait () fun _ => N.reading o)
  | look : Early N o (.act (.loadState id) fun s =>
      if s ≠ .ready then .loop OnceBox.wait () fun _ => N.reading o else N.reading o)

/-- A call that has the value, or is to read it. -/
inductive Late (N : OnceUsers E Tid Op Res V S) (P : ∀ {β : Type}, E β → Prop) (o : Op) :
    Prog (OnceAct E V) (Res o) → Prop
  | reading : Late N P o (N.reading o)
  | body {q : Prog E (Res o)} (hq : q.Every P) : Late N P o (q.hoist .use)

theorem unfold_wait (k : Unit → Prog (OnceAct E V) α) : unfold OnceBox.wait () k =
    .act (.loadState id) fun s => if s ≠ .ready then .loop OnceBox.wait () k else k () := by
  show Prog.act _ _ = _
  congr
  funext s
  cases s <;> rfl

theorem prog_eq (t : Tid) : (onceSystem N).prog t o = .act (.loadState id) fun s =>
      if s ≠ .ready then .act (.claim id) fun b =>
        if b then (OnceBox.publish (N.closure o)).bind fun _ => N.reading o
        else .loop OnceBox.wait () fun _ => N.reading o
      else N.reading o := by
  show Prog.act _ _ = _
  congr
  funext s
  cases s with
  | ready => rfl
  | _ =>
    show Prog.act _ _ = Prog.act _ _
    congr
    funext b
    cases b with
    | true =>
      show ((OnceBox.publish (N.closure o)).bind fun _ => perform (.assumeInit id)).bind _ = _
      rw [Prog.bind_assoc]
      rfl
    | false => rfl

end OnceUsers

/-! ## Runs -/

variable {N : OnceUsers E Tid Op Res V S} {P : ∀ {β : Type}, E β → Prop} {s₀ : S} {t : Tid} {o : Op}

/-- The closure of a call has been run, on the state before the first call, with the value `v`. -/
def OnceUsers.Ran (N : OnceUsers E Tid Op Res V S) (s₀ : S) (v : V) (s : S) : Prop :=
  ∃ t o, Result N.machine t (N.closure o) s₀ v s

/-- What is left of the call that has claimed the cell. -/
inductive OnceUsers.Claimed (N : OnceUsers E Tid Op Res V S) (s₀ : S) (t : Tid) (o : Op)
    (s : OnceMem V S) : Prog (OnceAct E V) (Res o) → Prop
  | closure {q : Prog E V} (hvalue : s.value = none)
    (hq : ∀ v s', Result N.machine t q s.rest v s' → Result N.machine t (N.closure o) s₀ v s') :
    Claimed N s₀ t o s ((OnceBox.publish q).bind fun _ => N.reading o)
  | written {v : V} (hvalue : s.value = some v)
    (hv : Result N.machine t (N.closure o) s₀ v s.rest) :
    Claimed N s₀ t o s (.act (.setReady id) fun _ => N.reading o)

/-- A step of a caller that has the value, at an event that meets `P`. -/
def UseStep (M : Machine E Tid S) (P : ∀ {β : Type}, E β → Prop) (s s' : S) : Prop :=
  ∃ t, ∃ (β : Type) (e : E β) (choice : ℕ) (b : β), P e ∧ M.exec t e s choice = some (b, s')

/-- Where the cell is. -/
def OnceUsers.CellOk (N : OnceUsers E Tid Op Res V S) (P : ∀ {β : Type}, E β → Prop) (s₀ : S)
    (s : OnceMem V S) : Prop :=
  match s.state with
  | .uninit => s.rest = s₀ ∧ s.value = none ∧ s.started = 0
  | .initializing => s.started = 1
  | .ready => s.started = 1 ∧ ∃ v s₁, s.value = some v ∧ N.Ran s₀ v s₁ ∧
      Relation.ReflTransGen (UseStep N.machine P) s₁ s.rest

/-- Where a thread is. -/
def OnceUsers.ThreadOk (N : OnceUsers E Tid Op Res V S) (P : ∀ {β : Type}, E β → Prop) (s₀ : S)
    (s : OnceMem V S) (claimer : Option Tid) (t : Tid) :
    Option (Σ o : Op, Prog (OnceAct E V) (Res o)) → Prop
  | none => claimer ≠ some t
  | some ⟨o, p⟩ => (claimer = some t ∧ N.Claimed s₀ t o s p) ∨
      (claimer ≠ some t ∧ (N.Early o p ∨ (s.state = .ready ∧ N.Late P o p)))

/-- **The invariant.** -/
structure OnceRun (N : OnceUsers E Tid Op Res V S) (P : ∀ {β : Type}, E β → Prop) (s₀ : S)
    (c : Config (OnceAct E V) Tid Op Res (OnceMem V S)) (claimer : Option Tid) : Prop where
  cell : N.CellOk P s₀ c.mem
  claimed : claimer ≠ none ↔ c.mem.state = .initializing
  thread : ∀ t, N.ThreadOk P s₀ c.mem claimer t (c.thread t)

namespace OnceRun

variable [DecidableEq Tid] {c : Config (OnceAct E V) Tid Op Res (OnceMem V S)}
  {claimer : Option Tid}

/-- A step of a thread after which the cell and the state are as before. -/
theorem stay (h : OnceRun N P s₀ c claimer)
    {x : Option (Σ o : Op, Prog (OnceAct E V) (Res o))}
    (hx : N.ThreadOk P s₀ c.mem claimer t x) :
    OnceRun N P s₀ ⟨c.mem, Function.update c.thread t x⟩ claimer := by
  refine ⟨h.cell, h.claimed, fun u => ?_⟩
  by_cases hu : u = t
  · subst hu
    simpa using hx
  · simpa [hu] using h.thread u

/-- A step of the only thread that can have claimed the cell, before the value is ready. -/
theorem move (h : OnceRun N P s₀ c claimer) {claimer' : Option Tid} {s : OnceMem V S}
    {x : Option (Σ o : Op, Prog (OnceAct E V) (Res o))} (hready : c.mem.state ≠ .ready)
    (hothers : ∀ u, u ≠ t → claimer ≠ some u) (hothers' : ∀ u, u ≠ t → claimer' ≠ some u)
    (hcell : N.CellOk P s₀ s) (hclaimed : claimer' ≠ none ↔ s.state = .initializing)
    (hx : N.ThreadOk P s₀ s claimer' t x) :
    OnceRun N P s₀ ⟨s, Function.update c.thread t x⟩ claimer' := by
  refine ⟨hcell, hclaimed, fun u => ?_⟩
  by_cases hu : u = t
  · subst hu
    simpa using hx
  · have hthread := h.thread u
    rw [show (⟨s, Function.update c.thread t x⟩ : Config ..).thread u = c.thread u from
      Function.update_of_ne hu ..]
    cases hp : c.thread u with
    | none => exact hothers' u hu
    | some y =>
      rw [hp] at hthread
      rcases hthread with ⟨hclaimer, -⟩ | ⟨-, hearly | ⟨hr, -⟩⟩
      · exact absurd hclaimer (hothers u hu)
      · exact Or.inr ⟨hothers' u hu, Or.inl hearly⟩
      · exact absurd hr hready

/-- A step of a caller that has the value. -/
theorem use (h : OnceRun N P s₀ c claimer) {s : S}
    {x : Option (Σ o : Op, Prog (OnceAct E V) (Res o))} (hready : c.mem.state = .ready)
    (hs : UseStep N.machine P c.mem.rest s)
    (hx : N.ThreadOk P s₀ { c.mem with rest := s } claimer t x) :
    OnceRun N P s₀ ⟨{ c.mem with rest := s }, Function.update c.thread t x⟩ claimer := by
  have hnone : claimer = none := by
    by_contra hne
    rw [h.claimed.mp hne] at hready
    cases hready
  refine ⟨?_, h.claimed, fun u => ?_⟩
  · have hcell := h.cell
    unfold OnceUsers.CellOk at hcell ⊢
    simp only [hready] at hcell ⊢
    obtain ⟨hstarted, v, s₁, hvalue, hran, hsteps⟩ := hcell
    exact ⟨hstarted, v, s₁, hvalue, hran, hsteps.tail hs⟩
  · by_cases hu : u = t
    · subst hu
      simpa using hx
    · have hthread := h.thread u
      rw [show (⟨{ c.mem with rest := s }, Function.update c.thread t x⟩ : Config ..).thread u =
        c.thread u from Function.update_of_ne hu ..]
      cases hp : c.thread u with
      | none =>
        rw [hp] at hthread
        exact hthread
      | some y =>
        rw [hp] at hthread
        rcases hthread with ⟨hclaimer, -⟩ | hrest
        · rw [hnone] at hclaimer
          cases hclaimer
        · exact Or.inr hrest

/-- A step of a thread that has not claimed the cell. -/
theorem step_early (h : OnceRun N P s₀ c claimer) (ht : claimer ≠ some t)
    {p p' : Prog (OnceAct E V) (Res o)} {choice : ℕ} {s : OnceMem V S}
    (hp : N.Early o p) (hs : (onceSystem N).advance t choice o c.mem p = some (s, p')) :
    ∃ claimer, OnceRun N P s₀ ⟨s, Function.update c.thread t (some ⟨o, p'⟩)⟩ claimer := by
  have early : ∀ p', N.Early o p' →
      ∃ claimer, OnceRun N P s₀ ⟨c.mem, Function.update c.thread t (some ⟨o, p'⟩)⟩ claimer :=
    fun p' hp' => ⟨claimer, h.stay (Or.inr ⟨ht, Or.inl hp'⟩)⟩
  have reading : c.mem.state = .ready → ∃ claimer,
      OnceRun N P s₀ ⟨c.mem, Function.update c.thread t (some ⟨o, N.reading o⟩)⟩ claimer :=
    fun hr => ⟨claimer, h.stay (Or.inr ⟨ht, Or.inr ⟨hr, .reading⟩⟩)⟩
  cases hp with
  | first =>
    cases hs
    by_cases hr : c.mem.state = .ready
    · simpa [hr] using reading hr
    · simpa [hr] using early _ .claim
  | claim =>
    obtain ⟨⟨b, s'⟩, hb, he⟩ := Option.map_eq_some_iff.mp hs
    cases he
    by_cases hu : c.mem.state = .uninit
    · -- the thread is the first
      cases (if_pos hu).symm.trans hb
      have hcell := h.cell
      unfold OnceUsers.CellOk at hcell
      simp only [hu] at hcell
      obtain ⟨hrest, hvalue, hstarted⟩ := hcell
      have hnone : claimer = none := by
        by_contra hne
        rw [h.claimed.mp hne] at hu
        cases hu
      refine ⟨some t, h.move (by simp [hu]) (by simp [hnone]) ?_ ?_ (by simp) ?_⟩
      · intro u hne heq
        exact hne (Option.some.inj heq).symm
      · show c.mem.started + 1 = 1
        rw [hstarted]
      · refine Or.inl ⟨rfl, .closure hvalue fun v s' hr => ?_⟩
        rw [← hrest]
        exact hr
    · cases (if_neg hu).symm.trans hb
      exact early _ .wait
  | wait =>
    cases hs
    rw [OnceUsers.unfold_wait]
    exact early _ .look
  | look =>
    cases hs
    by_cases hr : c.mem.state = .ready
    · simpa [hr] using reading hr
    · simpa [hr] using early _ .wait

/-- A step of the thread that has claimed the cell. -/
theorem step_claimed (h : OnceRun N P s₀ c (some t)) {p p' : Prog (OnceAct E V) (Res o)}
    {choice : ℕ} {s : OnceMem V S} (hp : N.Claimed s₀ t o c.mem p)
    (hs : (onceSystem N).advance t choice o c.mem p = some (s, p')) :
    ∃ claimer, OnceRun N P s₀ ⟨s, Function.update c.thread t (some ⟨o, p'⟩)⟩ claimer := by
  have hstate : c.mem.state = .initializing := h.claimed.mp (by simp)
  have hready : c.mem.state ≠ .ready := by simp [hstate]
  have hothers : ∀ u, u ≠ t → some t ≠ some u := fun u hu heq => hu (Option.some.inj heq).symm
  have hstarted : c.mem.started = 1 := by
    have hcell := h.cell
    unfold OnceUsers.CellOk at hcell
    simpa only [hstate] using hcell
  -- the cell remains claimed
  have claimed : ∀ {s : OnceMem V S} {p'}, s.state = .initializing → s.started = 1 →
      N.Claimed s₀ t o s p' →
      ∃ claimer, OnceRun N P s₀ ⟨s, Function.update c.thread t (some ⟨o, p'⟩)⟩ claimer := by
    intro s p' hs hstarted hp'
    refine ⟨some t, h.move hready hothers hothers ?_ (by simp [hs]) (Or.inl ⟨rfl, hp'⟩)⟩
    unfold OnceUsers.CellOk
    simp only [hs]
    exact hstarted
  cases hp with
  | @closure q hvalue hq =>
    cases q with
    | ret v =>
      cases hs
      exact claimed hstate hstarted (.written rfl (hq v _ (.ret ..)))
    | act e k =>
      obtain ⟨⟨b, s'⟩, hb, he⟩ := Option.map_eq_some_iff.mp hs
      cases he
      obtain ⟨⟨b', d⟩, hb', he⟩ := Option.map_eq_some_iff.mp hb
      cases he
      refine claimed hstate hstarted ?_
      exact .closure (q := k b') hvalue fun v s' hr => hq v s' (.act hb' hr)
    | loop body b k =>
      cases hs
      have hunfold : Prog.unfold (fun b => (body b).hoist .init) b (fun c =>
            (OnceBox.publish (k c)).bind fun _ => N.reading o) =
          (OnceBox.publish (Prog.unfold body b k)).bind fun _ => N.reading o := by
        simp only [OnceBox.publish, bind_eq, hoist_unfold, unfold_bind]
      refine claimed hstate hstarted (hunfold.symm ▸ ?_)
      exact .closure hvalue fun v s' hr => hq v s' (.loop hr)
  | @written v hvalue hv =>
    cases hs
    refine ⟨none, h.move hready hothers (by simp) ?_ (by simp) ?_⟩
    · exact ⟨hstarted, v, c.mem.rest, hvalue, ⟨t, o, hv⟩, .refl⟩
    · exact Or.inr ⟨by simp, Or.inr ⟨rfl, .reading⟩⟩

/-- A step of a caller that is to read the value, or has it. -/
theorem step_late (h : OnceRun N P s₀ c claimer) (hP : ∀ o v, (N.body o v).Every P)
    (ht : claimer ≠ some t) (hready : c.mem.state = .ready) {p p' : Prog (OnceAct E V) (Res o)}
    {choice : ℕ} {s : OnceMem V S} (hp : N.Late P o p)
    (hs : (onceSystem N).advance t choice o c.mem p = some (s, p')) :
    ∃ claimer, OnceRun N P s₀ ⟨s, Function.update c.thread t (some ⟨o, p'⟩)⟩ claimer := by
  cases hp with
  | reading =>
    obtain ⟨⟨q, s'⟩, hb, he⟩ := Option.map_eq_some_iff.mp hs
    cases he
    obtain ⟨v, -, he⟩ := Option.map_eq_some_iff.mp hb
    cases he
    exact ⟨claimer, h.stay (Or.inr ⟨ht, Or.inr ⟨hready, .body (hP o v)⟩⟩)⟩
  | @body q hq =>
    cases q with
    | ret a => cases hs
    | act e k =>
      obtain ⟨⟨b, s'⟩, hb, he⟩ := Option.map_eq_some_iff.mp hs
      cases he
      obtain ⟨⟨b', d⟩, hb', he⟩ := Option.map_eq_some_iff.mp hb
      cases he
      refine ⟨claimer, h.use hready ⟨t, _, e, choice, b', hq.1, hb'⟩ ?_⟩
      exact Or.inr ⟨ht, Or.inr ⟨hready, .body (hq.2 b')⟩⟩
    | loop body b k =>
      cases hs
      refine ⟨claimer, h.stay (Or.inr ⟨ht, Or.inr ⟨hready, ?_⟩⟩)⟩
      rw [← hoist_unfold]
      exact .body hq.unfold

/-- **What every configuration that is reached satisfies.** -/
theorem reachable (hP : ∀ o v, (N.body o v).Every P)
    (h : (onceSystem N).Reachable (· = .init s₀) System.anyMove c) :
    ∃ claimer, OnceRun N P s₀ c claimer := by
  induction h with
  | init hs =>
    subst hs
    exact ⟨none, ⟨rfl, rfl, rfl⟩, by simp [OnceMem.init], fun _ => by
      show none ≠ some _
      simp⟩
  | @next c c' m _ _ hm ih =>
    obtain ⟨claimer, ih⟩ := ih
    cases m with
    | start t o =>
      obtain ⟨hnone, s, hs, rfl⟩ := System.next_start hm
      cases hs
      have ht := ih.thread t
      rw [hnone] at ht
      refine ⟨claimer, ih.stay (Or.inr ⟨ht, Or.inl ?_⟩)⟩
      rw [OnceUsers.prog_eq]
      exact .first
    | step t choice =>
      obtain ⟨o, p, s, p', hp, hs, rfl⟩ := System.next_step hm
      have ht := ih.thread t
      rw [hp] at ht
      rcases ht with ⟨rfl, hclaimed⟩ | ⟨hne, hearly | ⟨hready, hlate⟩⟩
      · exact ih.step_claimed hclaimed hs
      · exact ih.step_early hne hearly hs
      · exact ih.step_late hP hne hready hlate hs
    | finish t =>
      obtain ⟨o, a, hp, rfl⟩ := System.next_finish hm
      have ht := ih.thread t
      rw [hp] at ht
      have hne : claimer ≠ some t := by
        rcases ht with ⟨-, hclaimed⟩ | ⟨hne, -⟩
        · generalize hret : (Prog.ret a : Prog (OnceAct E V) (Res o)) = p at hclaimed
          cases hclaimed with
          | @closure q _ _ => cases q <;> cases hret
          | written => cases hret
        · exact hne
      exact ⟨claimer, ih.stay hne⟩

omit [DecidableEq Tid] in
/-- What every closure leaves and every caller keeps holds from the end of the closure on. -/
theorem keeps {J : S → Prop} (h : OnceRun N P s₀ c claimer)
    (hclosure : ∀ t o v s, Result N.machine t (N.closure o) s₀ v s → J s)
    (huse : ∀ s s', J s → UseStep N.machine P s s' → J s') (hready : c.mem.state = .ready) :
    J c.mem.rest := by
  have hcell := h.cell
  unfold OnceUsers.CellOk at hcell
  simp only [hready] at hcell
  obtain ⟨-, v, s₁, -, ⟨t, o, hran⟩, hsteps⟩ := hcell
  generalize c.mem.rest = s at hsteps
  induction hsteps with
  | refl => exact hclosure t o v s₁ hran
  | tail _ hstep ih => exact huse _ _ ih hstep

end OnceRun

/-! ## What the cell is for -/

/-- A caller is about to read the value, or to use it. -/
def OnceAct.Reads {β : Type} : OnceAct E V β → Prop
  | .assumeInit _ | .use _ => True
  | _ => False

/-- A closure is being run, or its value is about to be written. -/
def OnceAct.Writes {β : Type} : OnceAct E V β → Prop
  | .init _ | .write .. => True
  | _ => False

namespace OnceRun

variable {c : Config (OnceAct E V) Tid Op Res (OnceMem V S)} {claimer : Option Tid} {β : Type}
  {e : OnceAct E V β} {k : β → Prog (OnceAct E V) (Res o)}

/-- At most one closure has been started. -/
theorem started_le (h : OnceRun N P s₀ c claimer) : c.mem.started ≤ 1 := by
  have hcell := h.cell
  unfold OnceUsers.CellOk at hcell
  cases hs : c.mem.state with
  | uninit =>
    simp only [hs] at hcell
    omega
  | initializing =>
    simp only [hs] at hcell
    omega
  | ready =>
    simp only [hs] at hcell
    omega

/-- Whoever reads finds the value there. -/
theorem ready_of_reads (h : OnceRun N P s₀ c claimer) (ht : c.thread t = some ⟨o, .act e k⟩)
    (he : e.Reads) : c.mem.state = .ready := by
  have hthread := h.thread t
  rw [ht] at hthread
  rcases hthread with ⟨-, hclaimed⟩ | ⟨-, hearly | ⟨hready, -⟩⟩
  · generalize hp : Prog.act e k = p at hclaimed
    cases hclaimed with
    | @closure q _ _ =>
      cases q with
      | ret v =>
        cases hp
        exact he.elim
      | act e' k' =>
        cases hp
        exact he.elim
      | loop body b k' => cases hp
    | written =>
      cases hp
      exact he.elim
  · cases hearly <;> exact he.elim
  · exact hready

/-- Whoever writes has claimed the cell, in which there is no value yet. -/
theorem claimed_of_writes (h : OnceRun N P s₀ c claimer) (ht : c.thread t = some ⟨o, .act e k⟩)
    (he : e.Writes) : claimer = some t ∧ c.mem.value = none := by
  have hthread := h.thread t
  rw [ht] at hthread
  rcases hthread with ⟨hclaimer, hclaimed⟩ | ⟨-, hearly | ⟨-, hlate⟩⟩
  · generalize hp : Prog.act e k = p at hclaimed
    cases hclaimed with
    | closure hvalue => exact ⟨hclaimer, hvalue⟩
    | written =>
      cases hp
      exact he.elim
  · cases hearly <;> exact he.elim
  · generalize hp : Prog.act e k = p at hlate
    cases hlate with
    | reading =>
      cases hp
      exact he.elim
    | @body q _ =>
      cases q with
      | ret a => cases hp
      | act e' k' =>
        cases hp
        exact he.elim
      | loop body b k' => cases hp

end OnceRun

/-- At most one closure is ever started. It is run alone, on the state before the first call, and
everybody goes on with its value: whoever reads finds the cell ready, and while somebody reads nobody
writes. What has happened since is what the callers have done that have the value. -/
theorem initialized_once [DecidableEq Tid] {c : Config (OnceAct E V) Tid Op Res (OnceMem V S)}
    (hP : ∀ o v, (N.body o v).Every P)
    (h : (onceSystem N).Reachable (· = .init s₀) System.anyMove c) :
    c.mem.started ≤ 1 ∧
    (∀ t o (β : Type) (e : OnceAct E V β) (k : β → Prog (OnceAct E V) (Res o)),
      c.thread t = some ⟨o, .act e k⟩ →
        (e.Reads → c.mem.state = .ready) ∧ (e.Writes → c.mem.state = .initializing ∧
          c.mem.value = none ∧ ∀ u o' (β' : Type) (e' : OnceAct E V β')
            (k' : β' → Prog (OnceAct E V) (Res o')), c.thread u = some ⟨o', .act e' k'⟩ →
              e'.Writes → u = t)) ∧
    (c.mem.state = .ready → ∃ v s₁, c.mem.value = some v ∧ N.Ran s₀ v s₁ ∧
      Relation.ReflTransGen (UseStep N.machine P) s₁ c.mem.rest) := by
  obtain ⟨claimer, hrun⟩ := OnceRun.reachable hP h
  refine ⟨hrun.started_le, fun t o β e k ht => ⟨hrun.ready_of_reads ht, fun he => ?_⟩,
    fun hready => ?_⟩
  · obtain ⟨hclaimer, hvalue⟩ := hrun.claimed_of_writes ht he
    refine ⟨hrun.claimed.mp (by simp [hclaimer]), hvalue, fun u o' β' e' k' hu he' => ?_⟩
    have hclaimer' := (hrun.claimed_of_writes hu he').1
    rw [hclaimer] at hclaimer'
    exact (Option.some.inj hclaimer').symm
  · have hcell := hrun.cell
    unfold OnceUsers.CellOk at hcell
    simp only [hready] at hcell
    exact hcell.2

end MimallocRs
