import MimallocRs.Foundations.Interleave.Outline

/-!
# Outlines over more state

A system is often a part of a larger one: its machine works on one component of a larger state, its
programs run there under other names for their events, and a thread has more ghost state. The
outline of the larger system, over pairs of ghosts, is to speak of the component through the first
part of the pairs as the smaller outline does. Then what has been proved of a program carries over.

* `Safe.extend` carries a whole program over whose events leave the second part of the thread's
  ghost as it is; `Safe.onPart` one for which there is no second part.
* `Safe.extend_act` carries one event over, which may change it.

An outline may also be made to assert more of its events (`Outline.also`). A program whose events all
meet what is added is as safe there (`Safe.also`). Or its invariant may keep a condition on the
state that no event undoes (`Outline.keep`, `Safe.keep`).
-/

namespace Interleave

variable {E F : Type → Type} {Tid S S' G H α β : Type} [DecidableEq Tid]

/-- The larger outline `O'` speaks of the component `get` of the state and of the first part of the
ghosts as `O` does, when thread `t` performs `e` and its own ghost becomes one of those in `K`. -/
def Extends (M : Machine E Tid S) (O : Outline E Tid S G) (N : Machine F Tid S')
    (O' : Outline F Tid S' (G × H)) (get : S' → S) (t : Tid) (e : E β) (e' : F β) (h : H)
    (K : β → G → (H → Prop) → Prop) : Prop :=
  ∀ s γ choice b s', O'.inv s γ → (γ t).2 = h → O'.ok t e' s choice →
    N.exec t e' s choice = some (b, s') →
    O.inv (get s) (fun u => (γ u).1) ∧ O.ok t e (get s) choice ∧
    M.exec t e (get s) choice = some (b, get s') ∧
    (O.asserts t e (get s) → O'.asserts t e' s ∧
      ∀ g', O.inv (get s') (Function.update (fun u => (γ u).1) t g') →
        K b g' fun h' => O'.inv s' (Function.update γ t (g', h')))

namespace Safe

variable {M : Machine E Tid S} {O : Outline E Tid S G} {N : Machine F Tid S'}
  {O' : Outline F Tid S' (G × H)} {t : Tid} {get : S' → S} {g : G} {h : H}

/-- A program whose events leave the second part of the ghost as it is. -/
theorem extend (φ : ∀ {β : Type}, E β → F β) {P : ∀ {β : Type}, E β → Prop}
    (hstep : ∀ {β : Type} (e : E β), P e →
      Extends M O N O' get t e (φ e) h fun _ _ inv => inv h)
    {p : Prog E α} {Q : α → G → Prop} (hp : p.Every P) (hs : Safe M O t p g Q) :
    Safe N O' t (p.hoist φ) (g, h) fun a g' => Q a g'.1 ∧ g'.2 = h := by
  refine coinduct (R := fun p' g' => ∃ p : Prog E α, ∃ g, p' = p.hoist φ ∧ g' = (g, h) ∧
    p.Every P ∧ Safe M O t p g Q) ?_ ⟨p, g, rfl, rfl, hp, hs⟩
  rintro _ _ ⟨p, g, rfl, rfl, hp, hs⟩
  cases p with
  | ret a => exact ⟨hs.of_ret, rfl⟩
  | act e k =>
    intro s γ choice b s' hi hg hok he
    obtain ⟨hinv, hok', he', hrest⟩ := hstep e hp.1 s γ choice b s' hi (by rw [hg]) hok he
    obtain ⟨ha, g', hinv', hs'⟩ := hs.step (get s) _ choice b (get s') hinv (by simp [hg]) hok' he'
    obtain ⟨ha', hinv''⟩ := hrest ha
    exact ⟨ha', _, hinv'' g' hinv', Or.inl ⟨k b, g', rfl, rfl, hp.2 b, hs'⟩⟩
  | loop body b k =>
    exact Or.inl ⟨_, g, (Prog.hoist_unfold φ body b k).symm, rfl, hp.unfold, hs.step⟩

/-- A program that works on a component of the state, of whose ghosts the larger outline asks just
what the smaller one does. -/
theorem onPart {O' : Outline F Tid S' G} (get : S' → S) (φ : ∀ {β : Type}, E β → F β)
    (hstep : ∀ {β : Type} (e : E β) s γ choice b s', O'.inv s γ → O'.ok t (φ e) s choice →
      N.exec t (φ e) s choice = some (b, s') →
      O.inv (get s) γ ∧ O.ok t e (get s) choice ∧
      M.exec t e (get s) choice = some (b, get s') ∧
      (O.asserts t e (get s) → O'.asserts t (φ e) s ∧
        ∀ γ', O.inv (get s') γ' → O'.inv s' γ'))
    {p : Prog E α} {Q : α → G → Prop} (hs : Safe M O t p g Q) :
    Safe N O' t (p.hoist φ) g Q := by
  refine coinduct (R := fun p' g => ∃ p : Prog E α, p' = p.hoist φ ∧ Safe M O t p g Q) ?_
    ⟨p, rfl, hs⟩
  rintro _ g ⟨p, rfl, hs⟩
  cases p with
  | ret a => exact hs.of_ret
  | act e k =>
    intro s γ choice b s' hi hg hok he
    obtain ⟨hinv, hok', he', hrest⟩ := hstep e s γ choice b s' hi hok he
    obtain ⟨ha, g', hinv', hs'⟩ := hs.step (get s) γ choice b (get s') hinv hg hok' he'
    obtain ⟨ha', hinv''⟩ := hrest ha
    exact ⟨ha', g', hinv'' _ hinv', Or.inl ⟨k b, rfl, hs'⟩⟩
  | loop body b k => exact Or.inl ⟨_, (Prog.hoist_unfold φ body b k).symm, hs.step⟩

/-- One event, with what is known of the first part of the ghost after it. -/
theorem extend_act {e : E β} {e' : F β} {k : β → Prog F α} {Q : α → G × H → Prop}
    {K : β → G → Prop} (hs : Safe M O t (.act e .ret) g K)
    (hstep : Extends M O N O' get t e e' h fun b g' inv =>
      K b g' → ∃ h', inv h' ∧ Safe N O' t (k b) (g', h') Q) :
    Safe N O' t (.act e' k) (g, h) Q := by
  apply act
  intro s γ choice b s' hi hg hok he
  obtain ⟨hinv, hok', he', hrest⟩ := hstep s γ choice b s' hi (by rw [hg]) hok he
  obtain ⟨ha, g', hinv', hs'⟩ := hs.step (get s) _ choice b (get s') hinv (by simp [hg]) hok' he'
  obtain ⟨ha', hinv''⟩ := hrest ha
  obtain ⟨h', hinv, hsafe⟩ := hinv'' g' hinv' hs'.of_ret
  exact ⟨ha', (g', h'), hinv, hsafe⟩

end Safe

/-! ## Outlines that assert more -/

/-- The outline that asserts `A` of its events as well. -/
def Outline.also (O : Outline E Tid S G) (A : ∀ {β : Type}, Tid → E β → S → Prop) :
    Outline E Tid S G where
  inv := O.inv
  asserts t e s := O.asserts t e s ∧ A t e s
  ok := O.ok

namespace Safe

variable {M : Machine E Tid S} {O : Outline E Tid S G} {t : Tid} {g : G}
  {A : ∀ {β : Type}, Tid → E β → S → Prop}

/-- A program all of whose events meet what is asserted of them in addition. -/
theorem also {P : ∀ {β : Type}, E β → Prop} (hA : ∀ {β : Type} (e : E β) s, P e → A t e s)
    {p : Prog E α} {Q : α → G → Prop} (hs : Safe M O t p g Q) (hp : p.Every P) :
    Safe M (O.also A) t p g Q := by
  refine coinduct (R := fun p g => p.Every P ∧ Safe M O t p g Q) ?_ ⟨hp, hs⟩
  rintro p g ⟨hp, hs⟩
  cases p with
  | ret a => exact hs.of_ret
  | act e k =>
    intro s γ choice b s' hi hg hok he
    obtain ⟨ha, g', hi', hs'⟩ := hs.step s γ choice b s' hi hg hok he
    exact ⟨⟨ha, hA e s hp.1⟩, g', hi', Or.inl ⟨hp.2 b, hs'⟩⟩
  | loop body b k => exact Or.inl ⟨hp.unfold, hs.step⟩

theorem of_also {p : Prog E α} {Q : α → G → Prop} (hs : Safe M (O.also A) t p g Q) :
    Safe M O t p g Q := by
  refine coinduct (R := fun p g => Safe M (O.also A) t p g Q) ?_ hs
  intro p g hs
  cases p with
  | ret a => exact hs.of_ret
  | act e k =>
    intro s γ choice b s' hi hg hok he
    obtain ⟨ha, g', hi', hs'⟩ := hs.step s γ choice b s' hi hg hok he
    exact ⟨ha.1, g', hi', Or.inl hs'⟩
  | loop body b k => exact Or.inl hs.step

/-- One event, which meets what is asserted of it in addition wherever its thread has the ghost
`g`. -/
theorem also_act {e : E β} {k : β → Prog E α} {K : β → G → Prop} {Q : α → G → Prop}
    (hs : Safe M O t (.act e .ret) g K) (hA : ∀ s γ, O.inv s γ → γ t = g → A t e s)
    (hk : ∀ b g', K b g' → Safe M (O.also A) t (k b) g' Q) :
    Safe M (O.also A) t (.act e k) g Q := by
  apply act
  intro s γ choice b s' hi hg hok he
  obtain ⟨ha, g', hi', hs'⟩ := hs.step s γ choice b s' hi hg hok he
  exact ⟨⟨ha, hA s γ hi hg⟩, g', hi', hk b g' hs'.of_ret⟩

end Safe

/-! ## Conditions that last -/

/-- The outline whose invariant has the condition `K` on the state as well. -/
def Outline.keep (O : Outline E Tid S G) (K : S → Prop) : Outline E Tid S G where
  inv s γ := O.inv s γ ∧ K s
  asserts := O.asserts
  ok := O.ok

/-- A program is as safe while a condition lasts that no event undoes. -/
theorem Safe.keep {M : Machine E Tid S} {O : Outline E Tid S G} {t : Tid} {g : G} {K : S → Prop}
    (hK : ∀ {β : Type} (e : E β) s choice b s', O.asserts t e s →
      M.exec t e s choice = some (b, s') → K s → K s')
    {p : Prog E α} {Q : α → G → Prop} (hs : Safe M O t p g Q) : Safe M (O.keep K) t p g Q := by
  refine coinduct (R := fun p g => Safe M O t p g Q) ?_ hs
  intro p g hs
  cases p with
  | ret a => exact hs.of_ret
  | act e k =>
    rintro s γ choice b s' ⟨hi, hk⟩ hg hok he
    obtain ⟨ha, g', hi', hs'⟩ := hs.step s γ choice b s' hi hg hok he
    exact ⟨ha, g', ⟨hi', hK e s choice b s' ha he hk⟩, Or.inl hs'⟩
  | loop body b k => exact Or.inl hs.step

end Interleave
