import Mathlib.Logic.Function.Basic

/-!
# Programs over atomic events

A program over an event signature `E : Type → Type` either returns, performs one event and goes
on with its answer, or iterates a body until the body says it is done. An event of type `E β` is
answered by a value of type `β`; what it does to a state is not fixed here. The iteration is a
constructor rather than a fixed point, so that a retry loop of unbounded length is a finite term
and a program can be stepped by a computable function.

* `Prog.bind` and the `Monad` instance sequence programs.
* `Prog.iterate body b` runs `body` from `b` until it answers `.inr a`, and returns `a`.
* `Prog.unfold` is the one-step unfolding of an iteration.
* `Prog.forEach`, `Prog.allOf` and `Prog.firstSome` are the bounded loops.
* `Prog.hoist` renames the events of a program along a map of signatures.
* `Prog.Every P` says that every event the program can come to satisfies `P`.
-/

namespace Interleave

/-- Programs with events in `E`. -/
inductive Prog (E : Type → Type) : Type → Type 1
  /-- Return a value. -/
  | ret {α : Type} (a : α) : Prog E α
  /-- Perform the event `e` and go on with its answer. -/
  | act {α β : Type} (e : E β) (k : β → Prog E α) : Prog E α
  /-- Iterate `body` from `b` until it answers `.inr c`, then go on with `c`. -/
  | loop {α β γ : Type} (body : β → Prog E (β ⊕ γ)) (b : β) (k : γ → Prog E α) : Prog E α

namespace Prog

variable {E F : Type → Type} {α β γ δ : Type}

/-- Run `p`, then `f` on its result. -/
def bind : Prog E α → (α → Prog E δ) → Prog E δ
  | .ret a, f => f a
  | .act e k, f => .act e fun b => (k b).bind f
  | .loop body b k, f => .loop body b fun c => (k c).bind f

instance : Monad (Prog E) where
  pure := .ret
  bind := bind

/-- Perform one event. -/
def perform (e : E β) : Prog E β := .act e .ret

/-- Iterate `body` from `b` until it answers `.inr c`; the result is `c`. -/
def iterate (body : β → Prog E (β ⊕ γ)) (b : β) : Prog E γ := .loop body b .ret

/-- What follows one round of an iteration: another round, or the continuation. -/
def again (body : β → Prog E (β ⊕ γ)) (k : γ → Prog E α) : β ⊕ γ → Prog E α
  | .inl b => .loop body b k
  | .inr c => k c

/-- An iteration is one round of its body, then `again`. -/
def unfold (body : β → Prog E (β ⊕ γ)) (b : β) (k : γ → Prog E α) : Prog E α :=
  (body b).bind (again body k)

@[simp] theorem pure_eq (a : α) : (pure a : Prog E α) = .ret a := rfl

@[simp] theorem bind_eq (p : Prog E α) (f : α → Prog E β) : p >>= f = p.bind f := rfl

@[simp] theorem ret_bind (a : α) (f : α → Prog E δ) : (ret a).bind f = f a := rfl

@[simp] theorem act_bind (e : E β) (k : β → Prog E α) (f : α → Prog E δ) :
    (act e k).bind f = act e fun b => (k b).bind f := rfl

@[simp] theorem loop_bind (body : β → Prog E (β ⊕ γ)) (b : β) (k : γ → Prog E α)
    (f : α → Prog E δ) : (loop body b k).bind f = loop body b fun c => (k c).bind f := rfl

@[simp] theorem perform_bind (e : E β) (f : β → Prog E δ) :
    (perform e).bind f = act e f := rfl

@[simp] theorem iterate_bind (body : β → Prog E (β ⊕ γ)) (b : β) (f : γ → Prog E δ) :
    (iterate body b).bind f = loop body b f := rfl

theorem bind_assoc (p : Prog E α) (f : α → Prog E β) (g : β → Prog E δ) :
    (p.bind f).bind g = p.bind fun a => (f a).bind g := by
  induction p with
  | ret a => rfl
  | act e k ih => simp only [act_bind, ih]
  | loop body b k _ ih => simp only [loop_bind, ih]

theorem again_bind (body : β → Prog E (β ⊕ γ)) (k : γ → Prog E α) (f : α → Prog E δ)
    (r : β ⊕ γ) : (again body k r).bind f = again body (fun c => (k c).bind f) r := by
  cases r <;> rfl

theorem unfold_bind (body : β → Prog E (β ⊕ γ)) (b : β) (k : γ → Prog E α)
    (f : α → Prog E δ) : (unfold body b k).bind f = unfold body b fun c => (k c).bind f := by
  simp only [unfold, bind_assoc, again_bind]

/-- Rename the events of a program. -/
def hoist (φ : ∀ {β : Type}, E β → F β) : {α : Type} → Prog E α → Prog F α
  | _, .ret a => .ret a
  | _, .act e k => .act (φ e) fun b => hoist φ (k b)
  | _, .loop body b k => .loop (fun b => hoist φ (body b)) b fun c => hoist φ (k c)

variable (φ : ∀ {β : Type}, E β → F β)

@[simp] theorem hoist_ret (a : α) : hoist φ (.ret a : Prog E α) = .ret a := rfl

theorem hoist_bind (p : Prog E α) (f : α → Prog E δ) :
    hoist φ (p.bind f) = (hoist φ p).bind fun a => hoist φ (f a) := by
  induction p with
  | ret a => rfl
  | act e k ih => simp only [act_bind, hoist, ih]
  | loop body b k _ ih => simp only [loop_bind, hoist, ih]

theorem hoist_again (body : β → Prog E (β ⊕ γ)) (k : γ → Prog E α) (r : β ⊕ γ) :
    hoist φ (again body k r) =
      again (fun b => hoist φ (body b)) (fun c => hoist φ (k c)) r := by
  cases r <;> rfl

theorem hoist_unfold (body : β → Prog E (β ⊕ γ)) (b : β) (k : γ → Prog E α) :
    hoist φ (unfold body b k) =
      unfold (fun b => hoist φ (body b)) b fun c => hoist φ (k c) := by
  simp only [unfold, hoist_bind, hoist_again]

/-! ## Loops over a list -/

/-- Run `p` on the members of a list, in order. -/
def forEach (p : β → Prog E Unit) : List β → Prog E Unit
  | [] => .ret ()
  | b :: l => (p b).bind fun _ => forEach p l

/-- Run `p` on the members of a list until it answers `false`: whether it never did. -/
def allOf (p : β → Prog E Bool) : List β → Prog E Bool
  | [] => .ret true
  | b :: l => (p b).bind fun r => if r then allOf p l else .ret false

/-- Run `p` on the members of a list until it answers with a value. -/
def firstSome (p : β → Prog E (Option α)) : List β → Prog E (Option α)
  | [] => .ret none
  | b :: l => (p b).bind fun r =>
    match r with
    | some a => .ret (some a)
    | none => firstSome p l

/-! ## The events a program can come to -/

/-- Every event of the program satisfies `P`. -/
def Every (P : ∀ {β : Type}, E β → Prop) : {α : Type} → Prog E α → Prop
  | _, .ret _ => True
  | _, .act e k => P e ∧ ∀ b, Every P (k b)
  | _, .loop body _ k => (∀ b, Every P (body b)) ∧ ∀ c, Every P (k c)

variable {P : ∀ {β : Type}, E β → Prop}

theorem Every.bind {p : Prog E α} {f : α → Prog E δ} (hp : Every P p)
    (hf : ∀ a, Every P (f a)) : Every P (p.bind f) := by
  induction p with
  | ret a => exact hf a
  | act e k ih => exact ⟨hp.1, fun b => ih b (hp.2 b) hf⟩
  | loop body b k _ ih => exact ⟨hp.1, fun c => ih c (hp.2 c) hf⟩

theorem Every.iterate {body : β → Prog E (β ⊕ γ)} {b : β} (h : ∀ b, Every P (body b)) :
    Every P (iterate body b) :=
  ⟨h, fun _ => trivial⟩

theorem Every.forEach {p : β → Prog E Unit} (h : ∀ b, Every P (p b)) (l : List β) :
    Every P (forEach p l) := by
  induction l with
  | nil => trivial
  | cons b l ih => exact (h b).bind fun _ => ih

theorem Every.allOf {p : β → Prog E Bool} (h : ∀ b, Every P (p b)) (l : List β) :
    Every P (allOf p l) := by
  induction l with
  | nil => trivial
  | cons b l ih =>
    apply (h b).bind
    intro r
    cases r with
    | true => exact ih
    | false => trivial

theorem Every.firstSome {p : β → Prog E (Option α)} (h : ∀ b, Every P (p b)) (l : List β) :
    Every P (firstSome p l) := by
  induction l with
  | nil => trivial
  | cons b l ih =>
    apply (h b).bind
    intro r
    cases r with
    | some a => trivial
    | none => exact ih

theorem Every.unfold {body : β → Prog E (β ⊕ γ)} {b : β} {k : γ → Prog E α}
    (h : Every P (.loop body b k)) : Every P (unfold body b k) := by
  refine (h.1 b).bind fun r => ?_
  cases r with
  | inl b => exact h
  | inr c => exact h.2 c

/-- The events of a program under other names. -/
theorem Every.hoist {Q : ∀ {β : Type}, F β → Prop} {φ : ∀ {β : Type}, E β → F β}
    (hφ : ∀ {β : Type} (e : E β), Q (φ e)) (p : Prog E α) : (p.hoist φ).Every Q := by
  induction p with
  | ret a => trivial
  | act e k ih => exact ⟨hφ e, fun b => ih b⟩
  | loop body b k ihbody ihk => exact ⟨fun b => ihbody b, fun c => ihk c⟩

end Prog

end Interleave
