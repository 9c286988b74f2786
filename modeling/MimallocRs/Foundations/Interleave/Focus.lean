import MimallocRs.Foundations.Interleave.Outline

/-!
# Outlines over a part of the ghost state

A component of a system speaks of a part of the state and of a part of what each thread knows. A
`Lens` reads that part of a thread's ghost and writes it. `Safe.focus` carries a program of the
component over to the system: the rest of the ghost of its thread stays as it is.
-/

namespace Interleave

/-- A part of a larger value. -/
structure Lens (X G : Type) where
  read : X → G
  write : G → X → X
  read_write : ∀ g x, read (write g x) = g
  write_write : ∀ g g' x, write g' (write g x) = write g' x
  write_read : ∀ x, write (read x) x = x

variable {E F : Type → Type} {Tid S S' G X α β : Type} [DecidableEq Tid]

/-- When thread `t` performs `e`, the outline `O'` of the system speaks of the component `get` of
the state, and of the part `l` of the ghosts, as the outline `O` of the component does. -/
def Focuses (M : Machine E Tid S) (O : Outline E Tid S G) (N : Machine F Tid S')
    (O' : Outline F Tid S' X) (get : S' → S) (l : Lens X G) (t : Tid) (x : X) (e : E β)
    (e' : F β) : Prop :=
  ∀ s γ choice b s', O'.inv s γ → γ t = x → O'.ok t e' s choice →
    N.exec t e' s choice = some (b, s') →
    O.inv (get s) (fun u => l.read (γ u)) ∧ O.ok t e (get s) choice ∧
    M.exec t e (get s) choice = some (b, get s') ∧
    (O.asserts t e (get s) → O'.asserts t e' s ∧
      ∀ g, O.inv (get s') (Function.update (fun u => l.read (γ u)) t g) →
        O'.inv s' (Function.update γ t (l.write g x)))

/-- A program of a component, run by the system. -/
theorem Safe.focus {M : Machine E Tid S} {O : Outline E Tid S G} {N : Machine F Tid S'}
    {O' : Outline F Tid S' X} {t : Tid} (get : S' → S) (l : Lens X G)
    (φ : ∀ {β : Type}, E β → F β) {x : X}
    (hstep : ∀ {β : Type} (e : E β) g, Focuses M O N O' get l t (l.write g x) e (φ e))
    {p : Prog E α} {Q : α → G → Prop} (hs : Safe M O t p (l.read x) Q) :
    Safe N O' t (p.hoist φ) x fun a x' => ∃ g, Q a g ∧ x' = l.write g x := by
  refine Safe.coinduct (R := fun p' x' => ∃ p : Prog E α, ∃ g, p' = p.hoist φ ∧
    x' = l.write g x ∧ Safe M O t p g Q) ?_ ⟨p, l.read x, rfl, (l.write_read x).symm, hs⟩
  rintro _ _ ⟨p, g, rfl, rfl, hs⟩
  cases p with
  | ret a => exact ⟨g, hs.of_ret, rfl⟩
  | act e k =>
    intro s γ choice b s' hi hx hok he
    obtain ⟨hinv, hok', he', hrest⟩ := hstep e g s γ choice b s' hi hx hok he
    have hread : l.read (γ t) = g := by rw [hx, l.read_write]
    obtain ⟨ha, g', hinv', hs'⟩ := hs.step (get s) _ choice b (get s') hinv hread hok' he'
    obtain ⟨ha', hinv''⟩ := hrest ha
    have hnew := hinv'' g' hinv'
    rw [l.write_write] at hnew
    exact ⟨ha', _, hnew, Or.inl ⟨k b, g', rfl, rfl, hs'⟩⟩
  | loop body b k => exact Or.inl ⟨_, g, (Prog.hoist_unfold φ body b k).symm, rfl, hs.step⟩

end Interleave
