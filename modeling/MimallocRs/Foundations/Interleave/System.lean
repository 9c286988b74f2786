import MimallocRs.Foundations.Interleave.Prog
import Mathlib.Data.Option.Basic
import Mathlib.Data.Nat.Notation

/-!
# Threads running operations on a shared state

A `Machine` says how an event acts on the shared state. A `System` over it says which program
each operation runs, which operations a thread may start and what is recorded when one returns. A
configuration is the
shared state together with the running operation of each thread, if any. A move starts an
operation of an idle thread, lets a running thread do one event (or unfold one iteration), or
lets a thread whose program has returned finish. `Reachable` collects the configurations that any
order of moves reaches from a set of initial states; its parameter `ok` restricts which moves are
taken, so that "every run whose moves all meet a condition" is `Reachable` at that condition.

The choice `ℕ` given to a step stands for what the state does not determine: whether a weak
compare-exchange fails spuriously, or which answer the environment gives. An event that has no
answer at any choice blocks its thread for ever.
-/

namespace Interleave

/-- What events do to a shared state. -/
structure Machine (E : Type → Type) (Tid S : Type) where
  /-- The answer to an event and the state after it, under a choice. -/
  exec : {β : Type} → Tid → E β → S → ℕ → Option (β × S)

/-- Operations, what they run, and what their start and end do to the state. -/
structure System (E : Type → Type) (Tid Op : Type) (Res : Op → Type) (S : Type) extends
    Machine E Tid S where
  /-- The program of an operation run by a thread. -/
  prog : Tid → (o : Op) → Prog E (Res o)
  /-- The state after a thread has started an operation; `none` if it may not. -/
  start : Tid → Op → S → Option S
  /-- The state after an operation has returned. -/
  finish : Tid → (o : Op) → Res o → S → S

variable {E : Type → Type} {Tid Op : Type} {Res : Op → Type} {S : Type}

/-- A shared state and the running operation of each thread. -/
structure Config (E : Type → Type) (Tid Op : Type) (Res : Op → Type) (S : Type) where
  mem : S
  thread : Tid → Option (Σ o : Op, Prog E (Res o))

/-- One move of one thread. -/
inductive Move (Tid Op : Type)
  | start (t : Tid) (o : Op)
  | step (t : Tid) (choice : ℕ)
  | finish (t : Tid)
  deriving DecidableEq

/-- No thread is running an operation. -/
def Config.Quiescent (c : Config E Tid Op Res S) : Prop := ∀ t, c.thread t = none

namespace System

variable [DecidableEq Tid] (M : System E Tid Op Res S)

/-- What a running thread does in one step. -/
def advance (t : Tid) (choice : ℕ) (o : Op) (s : S) :
    Prog E (Res o) → Option (S × Prog E (Res o))
  | .ret _ => none
  | .act e k => (M.exec t e s choice).map fun r => (r.2, k r.1)
  | .loop body b k => some (s, Prog.unfold body b k)

/-- The configuration after a move; `none` if the move is not possible. -/
def next : Move Tid Op → Config E Tid Op Res S → Option (Config E Tid Op Res S)
  | .start t o, c =>
    match c.thread t with
    | some _ => none
    | none => (M.start t o c.mem).map fun s =>
        ⟨s, Function.update c.thread t (some ⟨o, M.prog t o⟩)⟩
  | .step t choice, c =>
    match c.thread t with
    | none => none
    | some ⟨o, p⟩ => (M.advance t choice o c.mem p).map fun r =>
        ⟨r.1, Function.update c.thread t (some ⟨o, r.2⟩)⟩
  | .finish t, c =>
    match c.thread t with
    | some ⟨o, .ret a⟩ => some ⟨M.finish t o a c.mem, Function.update c.thread t none⟩
    | _ => none

/-- The configuration after a list of moves. -/
def run : List (Move Tid Op) → Config E Tid Op Res S → Option (Config E Tid Op Res S)
  | [], c => some c
  | m :: ms, c => (M.next m c).bind (run ms)

/-- The configurations reached from the states `init`, all threads idle, by moves that meet
`ok`. -/
inductive Reachable (init : S → Prop) (ok : Config E Tid Op Res S → Move Tid Op → Prop) :
    Config E Tid Op Res S → Prop
  | init {s : S} (h : init s) : Reachable init ok ⟨s, fun _ => none⟩
  | next {c c' : Config E Tid Op Res S} {m : Move Tid Op} (h : Reachable init ok c)
      (hok : ok c m) (hm : M.next m c = some c') : Reachable init ok c'

/-- Every move is allowed. -/
def anyMove : Config E Tid Op Res S → Move Tid Op → Prop := fun _ _ => True

variable {M}

theorem Reachable.mono {init init' : S → Prop} {ok ok' : Config E Tid Op Res S → Move Tid Op → Prop}
    (hinit : ∀ s, init s → init' s) (hok : ∀ c m, ok c m → ok' c m) {c : Config E Tid Op Res S}
    (h : M.Reachable init ok c) : M.Reachable init' ok' c := by
  induction h with
  | init hs => exact .init (hinit _ hs)
  | next _ hm hn ih => exact ih.next (hok _ _ hm) hn

theorem Reachable.run {init : S → Prop} {c c' : Config E Tid Op Res S}
    (h : M.Reachable init anyMove c) {ms : List (Move Tid Op)} (hr : M.run ms c = some c') :
    M.Reachable init anyMove c' := by
  induction ms generalizing c with
  | nil => cases hr; exact h
  | cons m ms ih =>
    obtain ⟨d, hd, hr⟩ := Option.bind_eq_some_iff.mp hr
    exact ih (h.next trivial hd) hr

/-- A run from an initial state reaches its last configuration. -/
theorem reachable_of_run {init : S → Prop} {s : S} (hs : init s) {ms : List (Move Tid Op)}
    {c' : Config E Tid Op Res S} (hr : M.run ms ⟨s, fun _ => none⟩ = some c') :
    M.Reachable init anyMove c' :=
  (Reachable.init hs).run hr

/-- The configuration after a list of moves, each made from a configuration that passes a test. -/
def runChecked (test : Config E Tid Op Res S → Bool) :
    List (Move Tid Op) → Config E Tid Op Res S → Option (Config E Tid Op Res S)
  | [], c => some c
  | m :: ms, c => if test c then (M.next m c).bind (runChecked test ms) else none

theorem Reachable.runChecked {init : S → Prop} {ok : Config E Tid Op Res S → Move Tid Op → Prop}
    {test : Config E Tid Op Res S → Bool} (htest : ∀ c m, test c = true → ok c m)
    {c c' : Config E Tid Op Res S} (h : M.Reachable init ok c) {ms : List (Move Tid Op)}
    (hr : M.runChecked test ms c = some c') : M.Reachable init ok c' := by
  induction ms generalizing c with
  | nil => cases hr; exact h
  | cons m ms ih =>
    simp only [System.runChecked] at hr
    split at hr
    · next ht =>
      obtain ⟨d, hd, hr⟩ := Option.bind_eq_some_iff.mp hr
      exact ih (h.next (htest c m ht) hd) hr
    · cases hr

/-! ## What a move can do -/

theorem next_start {t : Tid} {o : Op} {c c' : Config E Tid Op Res S}
    (h : M.next (.start t o) c = some c') :
    c.thread t = none ∧ ∃ s, M.start t o c.mem = some s ∧
      c' = ⟨s, Function.update c.thread t (some ⟨o, M.prog t o⟩)⟩ := by
  simp only [next] at h
  split at h
  · cases h
  · next hn =>
    obtain ⟨s, hs, rfl⟩ := Option.map_eq_some_iff.mp h
    exact ⟨hn, s, hs, rfl⟩

theorem next_step {t : Tid} {choice : ℕ} {c c' : Config E Tid Op Res S}
    (h : M.next (.step t choice) c = some c') :
    ∃ o p s p', c.thread t = some ⟨o, p⟩ ∧ M.advance t choice o c.mem p = some (s, p') ∧
      c' = ⟨s, Function.update c.thread t (some ⟨o, p'⟩)⟩ := by
  simp only [next] at h
  split at h
  · cases h
  · next o p hp =>
    obtain ⟨⟨s, p'⟩, hs, rfl⟩ := Option.map_eq_some_iff.mp h
    exact ⟨o, p, s, p', hp, hs, rfl⟩

theorem next_finish {t : Tid} {c c' : Config E Tid Op Res S}
    (h : M.next (.finish t) c = some c') :
    ∃ o a, c.thread t = some ⟨o, .ret a⟩ ∧
      c' = ⟨M.finish t o a c.mem, Function.update c.thread t none⟩ := by
  simp only [next] at h
  split at h
  · next o a hp =>
    cases h
    exact ⟨o, a, hp, rfl⟩
  · cases h

/-- A property of the shared state that every event, start and finish keeps holds in every
reachable configuration. -/
theorem Reachable.mem_invariant {init : S → Prop} {ok : Config E Tid Op Res S → Move Tid Op → Prop}
    {I : S → Prop} (hinit : ∀ s, init s → I s)
    (hstart : ∀ t o s s', I s → M.start t o s = some s' → I s')
    (hexec : ∀ {β : Type} t (e : E β) s choice b s', I s → M.exec t e s choice = some (b, s') → I s')
    (hfinish : ∀ t o a s, I s → I (M.finish t o a s))
    {c : Config E Tid Op Res S} (h : M.Reachable init ok c) : I c.mem := by
  induction h with
  | init hs => exact hinit _ hs
  | next _ _ hm ih =>
    rename_i c c' m _ _
    cases m with
    | start t o =>
      obtain ⟨-, s, hs, rfl⟩ := next_start hm
      exact hstart t o _ _ ih hs
    | step t choice =>
      obtain ⟨o, p, s, p', -, hp, rfl⟩ := next_step hm
      cases p with
      | ret a => cases hp
      | act e k =>
        obtain ⟨⟨b, s'⟩, hb, he⟩ := Option.map_eq_some_iff.mp hp
        cases he
        exact hexec t e _ _ _ _ ih hb
      | loop body b k => cases hp; exact ih
    | finish t =>
      obtain ⟨o, a, -, rfl⟩ := next_finish hm
      exact hfinish t o a _ ih

/-- A property of what is left of a running program, which its steps keep. -/
theorem Reachable.prog_invariant {init : S → Prop} {ok : Config E Tid Op Res S → Move Tid Op → Prop}
    {P : (o : Op) → Prog E (Res o) → Prop} (hstart : ∀ t o, P o (M.prog t o))
    (hact : ∀ o {β : Type} (e : E β) k b, P o (.act e k) → P o (k b))
    (hloop : ∀ o {β γ : Type} (body : β → Prog E (β ⊕ γ)) b k, P o (.loop body b k) →
      P o (Prog.unfold body b k))
    {c : Config E Tid Op Res S} (h : M.Reachable init ok c) :
    ∀ t o p, c.thread t = some ⟨o, p⟩ → P o p := by
  induction h with
  | init hs => exact fun t o p hp => by cases hp
  | next _ _ hm ih =>
    rename_i c c' m _ _
    have others : ∀ t (x : Option (Σ o : Op, Prog E (Res o))), (∀ o p, x = some ⟨o, p⟩ → P o p) →
        ∀ u o p, Function.update c.thread t x u = some ⟨o, p⟩ → P o p := by
      intro t x hx u o p hp
      by_cases hu : u = t
      · subst hu
        exact hx o p (by simpa using hp)
      · exact ih u o p (by simpa [hu] using hp)
    cases m with
    | start t o =>
      obtain ⟨-, s, -, rfl⟩ := next_start hm
      refine others t _ fun o' p hp => ?_
      cases hp
      exact hstart t o
    | step t choice =>
      obtain ⟨o, p, s, p', hp, hs, rfl⟩ := next_step hm
      refine others t _ fun o' q hq => ?_
      cases hq
      cases p with
      | ret a => cases hs
      | act e k =>
        obtain ⟨⟨b, s'⟩, -, he⟩ := Option.map_eq_some_iff.mp hs
        cases he
        exact hact o e k b (ih t o _ hp)
      | loop body b k =>
        cases hs
        exact hloop o body b k (ih t o _ hp)
    | finish t =>
      obtain ⟨o, a, -, rfl⟩ := next_finish hm
      exact others t _ fun o' q hq => by cases hq

/-- An operation that is running after a move was running before, or has been started by it. -/
theorem running_of_next {m : Move Tid Op} {c c' : Config E Tid Op Res S}
    (hm : M.next m c = some c') {t : Tid} {o : Op} {p : Prog E (Res o)}
    (ht : c'.thread t = some ⟨o, p⟩) :
    (∃ q, c.thread t = some ⟨o, q⟩) ∨ M.start t o c.mem = some c'.mem := by
  cases m with
  | start u o' =>
    obtain ⟨-, s, hs, rfl⟩ := next_start hm
    by_cases hu : t = u
    · subst hu
      simp only [Function.update_self, Option.some.injEq] at ht
      cases ht
      exact Or.inr hs
    · simp only [Function.update_of_ne hu] at ht
      exact Or.inl ⟨p, ht⟩
  | step u choice =>
    obtain ⟨o', q, s, q', hq, -, rfl⟩ := next_step hm
    by_cases hu : t = u
    · subst hu
      simp only [Function.update_self, Option.some.injEq] at ht
      cases ht
      exact Or.inl ⟨q, hq⟩
    · simp only [Function.update_of_ne hu] at ht
      exact Or.inl ⟨p, ht⟩
  | finish u =>
    obtain ⟨o', a, -, rfl⟩ := next_finish hm
    by_cases hu : t = u
    · subst hu
      simp at ht
    · simp only [Function.update_of_ne hu] at ht
      exact Or.inl ⟨p, ht⟩

/-- A property of a running operation that its start establishes and every move keeps. -/
theorem Reachable.running {init : S → Prop} {ok : Config E Tid Op Res S → Move Tid Op → Prop}
    {R : Tid → Op → S → Prop}
    (hstart : ∀ t o c s, M.Reachable init ok c → M.start t o c.mem = some s → R t o s)
    (hmove : ∀ t o c c' m q p, M.Reachable init ok c → M.next m c = some c' →
      c.thread t = some ⟨o, q⟩ → c'.thread t = some ⟨o, p⟩ → R t o c.mem → R t o c'.mem)
    {c : Config E Tid Op Res S} (h : M.Reachable init ok c) :
    ∀ t o p, c.thread t = some ⟨o, p⟩ → R t o c.mem := by
  induction h with
  | init hs => exact fun t o p hp => by cases hp
  | @next c c' m hc _ hm ih =>
    intro t o p ht
    rcases running_of_next hm ht with ⟨q, hq⟩ | hs
    · exact hmove t o c c' m q p hc hm hq ht (ih t o q hq)
    · exact hstart t o c c'.mem hc hs

/-- The next event of a running program is one of those its operation can come to. -/
theorem Reachable.every {init : S → Prop} {ok : Config E Tid Op Res S → Move Tid Op → Prop}
    {P : ∀ {β : Type}, E β → Prop} (hP : ∀ t o, (M.prog t o).Every P)
    {c : Config E Tid Op Res S} (h : M.Reachable init ok c) {t : Tid} {o : Op} {β : Type} {e : E β}
    {k : β → Prog E (Res o)} (ht : c.thread t = some ⟨o, .act e k⟩) : P e :=
  (h.prog_invariant (P := fun _ p => p.Every P) hP (fun _ _ _ _ b h => h.2 b)
    (fun _ _ _ _ _ _ h => h.unfold) t o _ ht).1

end System

end Interleave
