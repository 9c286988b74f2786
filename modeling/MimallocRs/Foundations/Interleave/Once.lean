import MimallocRs.Foundations.Interleave.Handle

/-!
# Events that happen at most once

`p.Once N A P R` says that every event that `p` can come to satisfies `P`, but for at most one, which
satisfies `A`, and that a value which is returned after that one satisfies `R`; an event with `N` is
one that has no answer. What events with `P` keep, and what an event with `A` turns it into, are so
carried through the program (`Ends.once`).
-/

namespace Interleave

variable {E : Type → Type} {α β γ δ : Type}

namespace Prog

variable {N A P P' : ∀ {β : Type}, E β → Prop}

theorem Every.mono (hP : ∀ {β : Type} (e : E β), P e → P' e) {p : Prog E α} (h : p.Every P) :
    p.Every P' := by
  induction p with
  | ret a => trivial
  | act e k ih => exact ⟨hP e h.1, fun b => ih b (h.2 b)⟩
  | loop body b k ihbody ihk => exact ⟨fun b => ihbody b (h.1 b), fun c => ihk c (h.2 c)⟩

/-- Every event of the program satisfies `P`, or has no answer, and every value that it returns
satisfies `R`. -/
def Then (N P : ∀ {β : Type}, E β → Prop) : {α : Type} → (α → Prop) → Prog E α → Prop
  | _, R, .ret a => R a
  | _, R, .act e k => N e ∨ P e ∧ ∀ b, Then N P R (k b)
  | _, R, .loop body _ k => (∀ b, Every P (body b)) ∧ ∀ c, Then N P R (k c)

/-- Every event satisfies `P`, or has no answer, but for at most one, which satisfies `A`; a value
that is returned after it satisfies `R`. -/
def Once (N A P : ∀ {β : Type}, E β → Prop) : {α : Type} → (α → Prop) → Prog E α → Prop
  | _, _, .ret _ => True
  | _, R, .act e k => N e ∨ (P e ∧ ∀ b, Once N A P R (k b)) ∨ A e ∧ ∀ b, Then N P R (k b)
  | _, R, .loop body _ k => (∀ b, Every P (body b)) ∧ ∀ c, Once N A P R (k c)

theorem Then.act {R : α → Prop} {e : E β} {k : β → Prog E α} (he : P e) (hk : ∀ b, (k b).Then N P R) :
    (Prog.act e k).Then N P R :=
  Or.inr ⟨he, hk⟩

/-- Another event. -/
theorem Once.act {R : α → Prop} {e : E β} {k : β → Prog E α} (he : P e)
    (hk : ∀ b, (k b).Once N A P R) : (Prog.act e k).Once N A P R :=
  Or.inr (Or.inl ⟨he, hk⟩)

/-- The event. -/
theorem Once.turn {R : α → Prop} {e : E β} {k : β → Prog E α} (he : A e)
    (hk : ∀ b, (k b).Then N P R) : (Prog.act e k).Once N A P R :=
  Or.inr (Or.inr ⟨he, hk⟩)

theorem Then.bind {R : δ → Prop} {p : Prog E α} {f : α → Prog E δ} {S : α → Prop}
    (hp : p.Then N P S) (hf : ∀ a, S a → (f a).Then N P R) : (p.bind f).Then N P R := by
  induction p with
  | ret a => exact hf a hp
  | act e k ih => exact hp.imp_right fun h => ⟨h.1, fun b => ih b (h.2 b) hf⟩
  | loop body b k _ ih => exact ⟨hp.1, fun c => ih c (hp.2 c) hf⟩

theorem Every.then {R : α → Prop} {p : Prog E α} (hp : p.Every P) (hR : ∀ a, R a) :
    p.Then N P R := by
  induction p with
  | ret a => exact hR a
  | act e k ih => exact .act hp.1 fun b => ih b (hp.2 b) hR
  | loop body b k _ ih => exact ⟨hp.1, fun c => ih c (hp.2 c) hR⟩

theorem Every.once {R : α → Prop} {p : Prog E α} (hp : p.Every P) : p.Once N A P R := by
  induction p with
  | ret a => trivial
  | act e k ih => exact .act hp.1 fun b => ih b (hp.2 b)
  | loop body b k _ ih => exact ⟨hp.1, fun c => ih c (hp.2 c)⟩

theorem Then.once {R : α → Prop} {p : Prog E α} (hp : p.Then N P R) : p.Once N A P R := by
  induction p with
  | ret a => trivial
  | act e k ih => exact hp.imp_right fun h => Or.inl ⟨h.1, fun b => ih b (h.2 b)⟩
  | loop body b k _ ih => exact ⟨hp.1, fun c => ih c (hp.2 c)⟩

/-- A program that has performed its event is followed by one that performs none. -/
theorem Once.bind {R : δ → Prop} {S : α → Prop} {p : Prog E α} {f : α → Prog E δ}
    (hp : p.Once N A P S) (hf : ∀ a, (f a).Once N A P R) (hR : ∀ a, S a → (f a).Then N P R) :
    (p.bind f).Once N A P R := by
  induction p with
  | ret a => exact hf a
  | act e k ih =>
    obtain he | ⟨he, hk⟩ | ⟨he, hk⟩ := hp
    · exact Or.inl he
    · exact .act he fun b => ih b (hk b) hf hR
    · exact .turn he fun b => (hk b).bind hR
  | loop body b k _ ih => exact ⟨hp.1, fun c => ih c (hp.2 c) hf hR⟩

/-- A program without the event is followed by one that may have it. -/
theorem Every.bind_once {R : δ → Prop} {p : Prog E α} {f : α → Prog E δ} (hp : p.Every P)
    (hf : ∀ a, (f a).Once N A P R) : (p.bind f).Once N A P R :=
  Once.bind (S := fun _ => False) hp.once hf fun _ h => h.elim

theorem Then.unfold {R : α → Prop} {body : β → Prog E (β ⊕ γ)} {b : β} {k : γ → Prog E α}
    (h : (Prog.loop body b k).Then N P R) : (unfold body b k).Then N P R := by
  refine ((h.1 b).then (R := fun _ => True) fun _ => trivial).bind fun r _ => ?_
  cases r with
  | inl b => exact h
  | inr c => exact h.2 c

theorem Once.unfold {R : α → Prop} {body : β → Prog E (β ⊕ γ)} {b : β} {k : γ → Prog E α}
    (h : (Prog.loop body b k).Once N A P R) : (unfold body b k).Once N A P R := by
  refine (h.1 b).bind_once fun r => ?_
  cases r with
  | inl b => exact h
  | inr c => exact h.2 c

variable {F : Type → Type} {N' A' Q : ∀ {β : Type}, F β → Prop} {φ : ∀ {β : Type}, E β → F β}

theorem Every.renamed (hP : ∀ {β : Type} (e : E β), P e → Q (φ e)) {p : Prog E α} (h : p.Every P) :
    (p.hoist φ).Every Q := by
  induction p with
  | ret a => trivial
  | act e k ih => exact ⟨hP e h.1, fun b => ih b (h.2 b)⟩
  | loop body b k ihbody ihk => exact ⟨fun b => ihbody b (h.1 b), fun c => ihk c (h.2 c)⟩

theorem Then.renamed (hN : ∀ {β : Type} (e : E β), N e → N' (φ e))
    (hP : ∀ {β : Type} (e : E β), P e → Q (φ e)) {R : α → Prop} {p : Prog E α}
    (h : p.Then N P R) : (p.hoist φ).Then N' Q R := by
  induction p with
  | ret a => exact h
  | act e k ih => exact h.imp (hN e) fun h => ⟨hP e h.1, fun b => ih b (h.2 b)⟩
  | loop body b k _ ihk => exact ⟨fun b => (h.1 b).renamed hP, fun c => ihk c (h.2 c)⟩

/-- The events of a program on a part of a larger state. -/
theorem Once.renamed (hN : ∀ {β : Type} (e : E β), N e → N' (φ e))
    (hP : ∀ {β : Type} (e : E β), P e → Q (φ e)) (hA : ∀ {β : Type} (e : E β), A e → A' (φ e))
    {R : α → Prop} {p : Prog E α} (h : p.Once N A P R) : (p.hoist φ).Once N' A' Q R := by
  induction p with
  | ret a => trivial
  | act e k ih =>
    obtain he | ⟨he, hk⟩ | ⟨he, hk⟩ := h
    · exact Or.inl (hN e he)
    · exact .act (hP e he) fun b => ih b (hk b)
    · exact .turn (hA e he) fun b => (hk b).renamed hN hP
  | loop body b k _ ihk => exact ⟨fun b => (h.1 b).renamed hP, fun c => ihk c (h.2 c)⟩

end Prog

variable {Tid S : Type} {M : Machine E Tid S} {t : Tid} {panics : Prop}
  {N A P : ∀ {β : Type}, E β → Prop} {I J : S → Prop}

/-- What the events of a program keep, and what its values satisfy. -/
theorem Ends.then (hN : ∀ {β : Type} (e : E β), N e → ∀ s choice, M.exec t e s choice = none)
    (hP : ∀ {β : Type} (e : E β), P e → ∀ s choice b s', J s → M.exec t e s choice = some (b, s') →
      J s')
    {p : Prog E α} {s : S} {Q : α → S → Prop} {R : α → Prop} (h : Ends M t panics p s Q)
    (hp : p.Then N P R) (hs : J s) : Ends M t panics p s fun a s' => Q a s' ∧ J s' ∧ R a := by
  induction h with
  | ret h => exact .ret ⟨h, hs, hp⟩
  | act hnone _ ih =>
    refine .act hnone fun choice b s' he => ?_
    obtain hno | ⟨hev, hk⟩ := hp
    · rw [hN _ hno] at he
      cases he
    · exact ih choice b s' he (hk b) (hP _ hev _ choice b s' hs he)
  | loop _ ih => exact .loop (ih hp.unfold hs)

/-- **The rule for an event that happens at most once.** What holds of the state is kept until the
event, which makes something else of it, and that is kept from then on. -/
theorem Ends.once (hN : ∀ {β : Type} (e : E β), N e → ∀ s choice, M.exec t e s choice = none)
    (hI : ∀ {β : Type} (e : E β), P e → ∀ s choice b s', I s → M.exec t e s choice = some (b, s') →
      I s')
    (hA : ∀ {β : Type} (e : E β), A e → ∀ s choice b s', I s → M.exec t e s choice = some (b, s') →
      J s')
    (hJ : ∀ {β : Type} (e : E β), P e → ∀ s choice b s', J s → M.exec t e s choice = some (b, s') →
      J s')
    {p : Prog E α} {s : S} {Q : α → S → Prop} {R : α → Prop} (h : Ends M t panics p s Q)
    (hp : p.Once N A P R) (hs : I s) :
    Ends M t panics p s fun a s' => Q a s' ∧ (I s' ∨ J s' ∧ R a) := by
  induction h with
  | ret h => exact .ret ⟨h, Or.inl hs⟩
  | act hnone hsome ih =>
    refine .act hnone fun choice b s' he => ?_
    obtain hno | ⟨hev, hk⟩ | ⟨hev, hk⟩ := hp
    · rw [hN _ hno] at he
      cases he
    · exact ih choice b s' he (hk b) (hI _ hev _ choice b s' hs he)
    · apply (Ends.then hN hJ (hsome choice b s' he) (hk b) (hA _ hev _ choice b s' hs he)).mono
      exact fun _ _ h => ⟨h.1, Or.inr h.2⟩
  | loop _ ih => exact .loop (ih hp.unfold hs)

end Interleave
