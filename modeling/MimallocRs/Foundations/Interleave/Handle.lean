import MimallocRs.Foundations.Interleave.Alone

/-!
# Programs whose events are carried out by programs

`Prog.interp φ` replaces every event of a program by the program that `φ` gives for it. A program
over the events of one part of a larger state is so carried out on the whole of it, also where some
of its events stand for calls on other parts. If each event is carried out as the part alone answers
it, then what has been shown of the program on the part alone holds of it there (`Ends.interp`).
-/

namespace Interleave

variable {E F : Type → Type} {α β γ δ : Type}

namespace Prog

/-- Carry out the events of a program by programs. -/
def interp (φ : ∀ {β : Type}, E β → Prog F β) : {α : Type} → Prog E α → Prog F α
  | _, .ret a => .ret a
  | _, .act e k => (φ e).bind fun b => interp φ (k b)
  | _, .loop body b k => .loop (fun b => interp φ (body b)) b fun c => interp φ (k c)

variable (φ : ∀ {β : Type}, E β → Prog F β)

@[simp] theorem interp_ret (a : α) : interp φ (.ret a : Prog E α) = .ret a := rfl

@[simp] theorem interp_act (e : E β) (k : β → Prog E α) :
    interp φ (.act e k) = (φ e).bind fun b => interp φ (k b) := rfl

@[simp] theorem interp_loop (body : β → Prog E (β ⊕ γ)) (b : β) (k : γ → Prog E α) :
    interp φ (.loop body b k) = .loop (fun b => interp φ (body b)) b fun c => interp φ (k c) := rfl

theorem bind_ret (p : Prog E α) : p.bind .ret = p := by
  induction p with
  | ret a => rfl
  | act e k ih => simp only [act_bind, ih]
  | loop body b k _ ih => simp only [loop_bind, ih]

@[simp] theorem interp_perform (e : E β) : interp φ (perform e) = φ e := bind_ret (φ e)

theorem interp_bind (p : Prog E α) (f : α → Prog E δ) :
    interp φ (p.bind f) = (interp φ p).bind fun a => interp φ (f a) := by
  induction p with
  | ret a => rfl
  | act e k ih => simp only [act_bind, interp_act, ih, bind_assoc]
  | loop body b k _ ih => simp only [loop_bind, interp_loop, ih]

theorem interp_again (body : β → Prog E (β ⊕ γ)) (k : γ → Prog E α) (r : β ⊕ γ) :
    interp φ (again body k r) =
      again (fun b => interp φ (body b)) (fun c => interp φ (k c)) r := by
  cases r <;> rfl

theorem interp_unfold (body : β → Prog E (β ⊕ γ)) (b : β) (k : γ → Prog E α) :
    interp φ (unfold body b k) =
      unfold (fun b => interp φ (body b)) b fun c => interp φ (k c) := by
  simp only [unfold, interp_bind, interp_again]

/-- The events of a handled program. -/
theorem Every.interp {P : ∀ {β : Type}, E β → Prop} {R : ∀ {β : Type}, F β → Prop}
    (hφ : ∀ {β : Type} (e : E β), P e → (φ e).Every R) {p : Prog E α} (hp : p.Every P) :
    (p.interp φ).Every R := by
  induction p with
  | ret a => trivial
  | act e k ih => exact (hφ e hp.1).bind fun b => ih b (hp.2 b)
  | loop body b k ihbody ihk => exact ⟨fun b => ihbody b (hp.1 b), fun c => ihk c (hp.2 c)⟩

end Prog

/-- **The rule for handled programs.** A program that ends on a part of the state also ends on the
whole of it, if each of its events is carried out there as the part alone answers it. -/
theorem Ends.interp {Tid S S' : Type} {M : Machine E Tid S} {N : Machine F Tid S'} {t : Tid}
    {panics : Prop} {φ : ∀ {β : Type}, E β → Prog F β} (get : S' → S) (put : S → S' → S')
    (hput : ∀ s w w', put w (put w' s) = put w s) (hget : ∀ s w, get (put w s) = w)
    (hself : ∀ s, put (get s) s = s)
    (hφ : ∀ {β : Type} (e : E β) s, (∀ choice, M.exec t e (get s) choice ≠ none) →
      Ends N t panics (φ e) s fun b s' =>
        ∃ choice w, M.exec t e (get s) choice = some (b, w) ∧ s' = put w s)
    {p : Prog E α} {Q : α → S → Prop} {s : S'} (h : Ends M t False p (get s) Q) :
    Ends N t panics (p.interp φ) s fun a s' => Q a (get s') ∧ s' = put (get s') s := by
  generalize hs : get s = w at h
  induction h generalizing s with
  | ret h =>
    subst hs
    exact .ret ⟨h, (hself s).symm⟩
  | act hnone _ ih =>
    subst hs
    apply Ends.bind
    apply (hφ _ s fun choice hn => hnone choice hn).mono
    rintro b s' ⟨choice, w, he, rfl⟩
    apply (ih choice b w he (hget s w)).mono
    rintro a s'' ⟨hQ, hs''⟩
    exact ⟨hQ, by rw [hs'', hget, hput]⟩
  | loop _ ih =>
    apply Ends.loop
    rw [← Prog.interp_unfold]
    exact ih hs

end Interleave
