import MimallocRs.Foundations.Interleave.System

/-!
# Proof outlines with ghost state

An invariant of a system of threads usually speaks of what each running program is about to do.
An `Outline` states it over ghost state instead: `inv s γ` relates the shared state `s` to the
ghost `γ t` of every thread. `Safe O t p g Q` says that thread `t`, running `p` from the ghost
`g`, meets the assertion of each of its events and re-establishes the invariant after it by
changing its own ghost only, whatever the other threads have done in between, and that it returns
with `Q`. It is the greatest relation
closed under one step, so that programs with unbounded retry loops are covered.

Programs are verified piecewise: `Safe.act` for an event, `Safe.bind` for a sequence,
`Safe.loop` for an iteration with a loop invariant, `Safe.mono` to weaken what is returned.
`Outline.reachable` is the run rule: the invariant holds in every reachable configuration, and
what is left of every running program is still safe; `Outline.run` says the same of a run that
starts anywhere. The component `ok` of an outline restricts
the events that are considered, for results about the runs that meet a condition.
-/

namespace Interleave

variable {E : Type → Type} {Tid Op : Type} {Res : Op → Type} {S G : Type}

/-- An invariant over the shared state and the ghosts of the threads, what is asserted of the
state when a thread performs an event, and which events are considered. -/
structure Outline (E : Type → Type) (Tid S G : Type) where
  inv : S → (Tid → G) → Prop
  asserts : {β : Type} → Tid → E β → S → Prop := fun _ _ _ => True
  ok : {β : Type} → Tid → E β → S → ℕ → Prop := fun _ _ _ _ => True

variable [DecidableEq Tid] {M : Machine E Tid S} {O : Outline E Tid S G} {t : Tid}
variable {α β γ δ : Type}

/-- One step of `Safe`, with `R` for what is left. -/
def SafeStep (M : Machine E Tid S) (O : Outline E Tid S G) (t : Tid) (Q : α → G → Prop)
    (R : Prog E α → G → Prop) : Prog E α → G → Prop
  | .ret a, g => Q a g
  | .act e k, g => ∀ s γ choice b s', O.inv s γ → γ t = g → O.ok t e s choice →
      M.exec t e s choice = some (b, s') → O.asserts t e s ∧
      ∃ g', O.inv s' (Function.update γ t g') ∧ R (k b) g'
  | .loop body b k, g => R (Prog.unfold body b k) g

/-- Thread `t` may run `p` from the ghost `g` and returns with `Q`. -/
def Safe (M : Machine E Tid S) (O : Outline E Tid S G) (t : Tid) (p : Prog E α) (g : G)
    (Q : α → G → Prop) : Prop :=
  ∃ R : Prog E α → G → Prop, R p g ∧ ∀ p g, R p g → SafeStep M O t Q R p g

theorem SafeStep.mono {Q Q' : α → G → Prop} {R R' : Prog E α → G → Prop} {p : Prog E α} {g : G}
    (hQ : ∀ a g, Q a g → Q' a g) (hR : ∀ p g, R p g → R' p g) (h : SafeStep M O t Q R p g) :
    SafeStep M O t Q' R' p g := by
  cases p with
  | ret a => exact hQ _ _ h
  | act e k =>
    intro s γ choice b s' hi hg hok he
    obtain ⟨ha, g', hi', hr⟩ := h s γ choice b s' hi hg hok he
    exact ⟨ha, g', hi', hR _ _ hr⟩
  | loop body b k => exact hR _ _ h

namespace Safe

theorem step {p : Prog E α} {g : G} {Q : α → G → Prop} (h : Safe M O t p g Q) :
    SafeStep M O t Q (fun p g => Safe M O t p g Q) p g := by
  obtain ⟨R, hp, hR⟩ := h
  exact (hR _ _ hp).mono (fun _ _ h => h) fun p g hp => ⟨R, hp, hR⟩

/-- Coinduction: a relation closed under one step, up to what is already safe, is safe. -/
theorem coinduct {R : Prog E α → G → Prop} {Q : α → G → Prop}
    (h : ∀ p g, R p g → SafeStep M O t Q (fun p g => R p g ∨ Safe M O t p g Q) p g)
    {p : Prog E α} {g : G} (hp : R p g) : Safe M O t p g Q := by
  refine ⟨fun p g => R p g ∨ Safe M O t p g Q, Or.inl hp, ?_⟩
  rintro p g (hp | hp)
  · exact h p g hp
  · exact hp.step.mono (fun _ _ h => h) fun _ _ h => Or.inr h

theorem of_step {p : Prog E α} {g : G} {Q : α → G → Prop}
    (h : SafeStep M O t Q (fun p g => Safe M O t p g Q) p g) : Safe M O t p g Q := by
  refine coinduct (R := fun p' g' => p' = p ∧ g' = g) ?_ ⟨rfl, rfl⟩
  rintro p' g' ⟨rfl, rfl⟩
  exact h.mono (fun _ _ h => h) fun _ _ h => Or.inr h

theorem ret {a : α} {g : G} {Q : α → G → Prop} (h : Q a g) : Safe M O t (.ret a) g Q :=
  of_step h

theorem act {e : E β} {k : β → Prog E α} {g : G} {Q : α → G → Prop}
    (h : ∀ s γ choice b s', O.inv s γ → γ t = g → O.ok t e s choice →
      M.exec t e s choice = some (b, s') → O.asserts t e s ∧
      ∃ g', O.inv s' (Function.update γ t g') ∧ Safe M O t (k b) g' Q) :
    Safe M O t (.act e k) g Q :=
  of_step h

theorem of_ret {a : α} {g : G} {Q : α → G → Prop} (h : Safe M O t (.ret a) g Q) : Q a g := h.step

theorem mono {p : Prog E α} {g : G} {Q Q' : α → G → Prop} (h : Safe M O t p g Q)
    (hQ : ∀ a g, Q a g → Q' a g) : Safe M O t p g Q' := by
  obtain ⟨R, hp, hR⟩ := h
  exact ⟨R, hp, fun p g hp => (hR p g hp).mono hQ fun _ _ h => h⟩

theorem bind {p : Prog E α} {f : α → Prog E δ} {g : G} {Q : δ → G → Prop}
    (h : Safe M O t p g fun a g => Safe M O t (f a) g Q) : Safe M O t (p.bind f) g Q := by
  refine coinduct (R := fun q g => ∃ p, q = p.bind f ∧
    Safe M O t p g fun a g => Safe M O t (f a) g Q) ?_ ⟨p, rfl, h⟩
  rintro _ g ⟨p, rfl, h⟩
  cases p with
  | ret a => exact h.of_ret.step.mono (fun _ _ h => h) fun _ _ h => Or.inr h
  | act e k =>
    intro s γ choice b s' hi hg hok he
    obtain ⟨ha, g', hi', hr⟩ := h.step s γ choice b s' hi hg hok he
    exact ⟨ha, g', hi', Or.inl ⟨_, rfl, hr⟩⟩
  | loop body b k => exact Or.inl ⟨_, Prog.unfold_bind body b k f |>.symm, h.step⟩

/-- **The loop rule.** A body that keeps `J` until it stops makes the iteration safe. -/
theorem loop {body : β → Prog E (β ⊕ δ)} {k : δ → Prog E α} {Q : α → G → Prop}
    (J : β → G → Prop)
    (hbody : ∀ b g, J b g → Safe M O t (body b) g fun r g =>
      Sum.elim (J · g) (fun c => Safe M O t (k c) g Q) r)
    {b : β} {g : G} (hb : J b g) : Safe M O t (.loop body b k) g Q := by
  refine coinduct (R := fun q g => (∃ b, q = .loop body b k ∧ J b g) ∨
    ∃ p, q = p.bind (Prog.again body k) ∧ Safe M O t p g fun r g =>
      Sum.elim (J · g) (fun c => Safe M O t (k c) g Q) r) ?_ (Or.inl ⟨b, rfl, hb⟩)
  rintro _ g (⟨b, rfl, hb⟩ | ⟨p, rfl, h⟩)
  · exact Or.inl (Or.inr ⟨_, rfl, hbody b g hb⟩)
  · cases p with
    | ret r =>
      rcases r with b | c
      · exact Or.inl (Or.inr ⟨_, rfl, hbody b g h.of_ret⟩)
      · have hc : Safe M O t (k c) g Q := h.of_ret
        exact hc.step.mono (fun _ _ h => h) fun _ _ h => Or.inr h
    | act e k' =>
      intro s γ choice b s' hi hg hok he
      obtain ⟨ha, g', hi', hr⟩ := h.step s γ choice b s' hi hg hok he
      exact ⟨ha, g', hi', Or.inl (Or.inr ⟨_, rfl, hr⟩)⟩
    | loop body' b' k' => exact Or.inl (Or.inr ⟨_, (Prog.unfold_bind body' b' k' _).symm, h.step⟩)

/-- A loop over a list, with an invariant that speaks of what is left of the list. -/
theorem forEach {p : β → Prog E Unit} {Q : Unit → G → Prop} (J : List β → G → Prop)
    (hbody : ∀ b l g, J (b :: l) g → Safe M O t (p b) g fun _ g' => J l g')
    (hend : ∀ g, J [] g → Q () g) {l : List β} {g : G} (hl : J l g) :
    Safe M O t (Prog.forEach p l) g Q := by
  induction l generalizing g with
  | nil => exact ret (hend g hl)
  | cons b l ih => exact bind ((hbody b l g hl).mono fun _ g' hg' => ih hg')

theorem allOf {p : β → Prog E Bool} {Q : Bool → G → Prop} (J : List β → G → Prop)
    (hbody : ∀ b l g, J (b :: l) g → Safe M O t (p b) g fun r g' =>
      if r then J l g' else Q false g')
    (hend : ∀ g, J [] g → Q true g) {l : List β} {g : G} (hl : J l g) :
    Safe M O t (Prog.allOf p l) g Q := by
  induction l generalizing g with
  | nil => exact ret (hend g hl)
  | cons b l ih =>
    refine bind ((hbody b l g hl).mono fun r g' hg' => ?_)
    cases r with
    | true => exact ih hg'
    | false => exact ret hg'

theorem firstSome {p : β → Prog E (Option α)} {Q : Option α → G → Prop} (J : List β → G → Prop)
    (hbody : ∀ b l g, J (b :: l) g → Safe M O t (p b) g fun r g' =>
      match r with
      | some a => Q (some a) g'
      | none => J l g')
    (hend : ∀ g, J [] g → Q none g) {l : List β} {g : G} (hl : J l g) :
    Safe M O t (Prog.firstSome p l) g Q := by
  induction l generalizing g with
  | nil => exact ret (hend g hl)
  | cons b l ih =>
    refine bind ((hbody b l g hl).mono fun r g' hg' => ?_)
    cases r with
    | some a => exact ret hg'
    | none => exact ih hg'

/-- A program all of whose events keep `J` keeps `J`. -/
theorem of_every {P : ∀ {β : Type}, E β → Prop} {J : G → Prop}
    (hP : ∀ {β : Type} (e : E β), P e → ∀ s γ choice b s', O.inv s γ → J (γ t) →
      O.ok t e s choice → M.exec t e s choice = some (b, s') → O.asserts t e s ∧
      ∃ g', O.inv s' (Function.update γ t g') ∧ J g')
    {p : Prog E α} (hp : p.Every P) {g : G} (hg : J g) : Safe M O t p g fun _ g' => J g' := by
  refine coinduct (R := fun p g => p.Every P ∧ J g) ?_ ⟨hp, hg⟩
  rintro p g ⟨hp, hg⟩
  cases p with
  | ret a => exact hg
  | act e k =>
    rintro s γ choice b s' hi rfl hok he
    obtain ⟨ha, g', hi', hg'⟩ := hP e hp.1 s γ choice b s' hi hg hok he
    exact ⟨ha, g', hi', Or.inl ⟨hp.2 b, hg'⟩⟩
  | loop body b k => exact Or.inl ⟨hp.unfold, hg⟩

end Safe

/-! ## Runs -/

/-- The event that the move `m` performs in `c`, if any, is allowed by the outline. -/
def Outline.Allows (O : Outline E Tid S G) (c : Config E Tid Op Res S) (m : Move Tid Op) : Prop :=
  ∀ ⦃t choice o⦄ ⦃β : Type⦄ ⦃e : E β⦄ ⦃k : β → Prog E (Res o)⦄, m = .step t choice →
    c.thread t = some ⟨o, .act e k⟩ → O.ok t e c.mem choice

/-- What an outline says of one thread: idle with an idle ghost, or running what is left of an
operation safely. -/
def Outline.Thread (M : Machine E Tid S) (O : Outline E Tid S G) (idle : Tid → G → Prop)
    (post : Tid → (o : Op) → Res o → G → Prop) (t : Tid) (g : G) :
    Option (Σ o : Op, Prog E (Res o)) → Prop
  | none => idle t g
  | some ⟨o, p⟩ => Safe M O t p g (post t o)

section Rules

variable {M : System E Tid Op Res S} {idle : Tid → G → Prop}
  {post : Tid → (o : Op) → Res o → G → Prop} {c c' : Config E Tid Op Res S}

/-- The run rule for one move. -/
theorem Outline.next
    (hstart : ∀ t o s s' γ, O.inv s γ → idle t (γ t) → M.start t o s = some s' →
      ∃ g, O.inv s' (Function.update γ t g) ∧ Safe M.toMachine O t (M.prog t o) g (post t o))
    (hfinish : ∀ t o a s γ, O.inv s γ → post t o a (γ t) →
      ∃ g, O.inv (M.finish t o a s) (Function.update γ t g) ∧ idle t g)
    {m : Move Tid Op} (hok : O.Allows c m) (hn : M.next m c = some c') {γ : Tid → G}
    (hi : O.inv c.mem γ) (hth : ∀ t, O.Thread M.toMachine idle post t (γ t) (c.thread t)) :
    ∃ γ, O.inv c'.mem γ ∧ ∀ t, O.Thread M.toMachine idle post t (γ t) (c'.thread t) := by
  -- the ghosts of the other threads, and what is said of them, are unchanged
  have others : ∀ (t : Tid) (g : G) (x : Option (Σ o : Op, Prog E (Res o))),
      O.Thread M.toMachine idle post t g x → ∀ u,
        O.Thread M.toMachine idle post u (Function.update γ t g u)
          (Function.update c.thread t x u) := by
    intro t g x hx u
    by_cases hu : u = t
    · subst hu
      simpa using hx
    · simpa [hu] using hth u
  cases m with
  | start t o =>
    obtain ⟨hnone, s, hs, rfl⟩ := System.next_start hn
    have hidle := hth t
    rw [hnone] at hidle
    obtain ⟨g, hi', hsafe⟩ := hstart t o _ _ γ hi hidle hs
    exact ⟨_, hi', others t g _ hsafe⟩
  | step t choice =>
    obtain ⟨o, p, s, p', hp, hs, rfl⟩ := System.next_step hn
    have hsafe := hth t
    rw [hp] at hsafe
    cases p with
    | ret a => cases hs
    | act e k =>
      obtain ⟨⟨b, s'⟩, hb, he⟩ := Option.map_eq_some_iff.mp hs
      cases he
      obtain ⟨-, g', hi', hr⟩ := Safe.step hsafe _ γ _ _ _ hi rfl (hok rfl hp) hb
      exact ⟨_, hi', others t g' _ hr⟩
    | loop body b k =>
      cases hs
      refine ⟨γ, hi, fun u => ?_⟩
      simpa using others t (γ t) (some ⟨o, Prog.unfold body b k⟩) (Safe.step hsafe) u
  | finish t =>
    obtain ⟨o, a, hp, rfl⟩ := System.next_finish hn
    have hsafe := hth t
    rw [hp] at hsafe
    obtain ⟨g, hi', hidle⟩ := hfinish t o a _ γ hi (Safe.of_ret hsafe)
    exact ⟨_, hi', others t g none hidle⟩

/-- **The run rule.** -/
theorem Outline.reachable {init : S → Prop} {ok : Config E Tid Op Res S → Move Tid Op → Prop}
    (hinit : ∀ s, init s → ∃ γ, O.inv s γ ∧ ∀ t, idle t (γ t))
    (hstart : ∀ t o s s' γ, O.inv s γ → idle t (γ t) → M.start t o s = some s' →
      ∃ g, O.inv s' (Function.update γ t g) ∧ Safe M.toMachine O t (M.prog t o) g (post t o))
    (hfinish : ∀ t o a s γ, O.inv s γ → post t o a (γ t) →
      ∃ g, O.inv (M.finish t o a s) (Function.update γ t g) ∧ idle t g)
    (hok : ∀ c m, ok c m → O.Allows c m) (h : M.Reachable init ok c) :
    ∃ γ, O.inv c.mem γ ∧ ∀ t, O.Thread M.toMachine idle post t (γ t) (c.thread t) := by
  induction h with
  | init hs =>
    obtain ⟨γ, hi, hidle⟩ := hinit _ hs
    exact ⟨γ, hi, hidle⟩
  | next _ hm hn ih =>
    obtain ⟨γ, hi, hth⟩ := ih
    exact Outline.next hstart hfinish (hok _ _ hm) hn hi hth

/-- The run rule from any configuration. -/
theorem Outline.run
    (hstart : ∀ t o s s' γ, O.inv s γ → idle t (γ t) → M.start t o s = some s' →
      ∃ g, O.inv s' (Function.update γ t g) ∧ Safe M.toMachine O t (M.prog t o) g (post t o))
    (hfinish : ∀ t o a s γ, O.inv s γ → post t o a (γ t) →
      ∃ g, O.inv (M.finish t o a s) (Function.update γ t g) ∧ idle t g)
    (hok : ∀ (c : Config E Tid Op Res S) m, O.Allows c m) {ms : List (Move Tid Op)}
    (hr : M.run ms c = some c') {γ : Tid → G} (hi : O.inv c.mem γ)
    (hth : ∀ t, O.Thread M.toMachine idle post t (γ t) (c.thread t)) :
    ∃ γ, O.inv c'.mem γ ∧ ∀ t, O.Thread M.toMachine idle post t (γ t) (c'.thread t) := by
  induction ms generalizing c γ with
  | nil =>
    cases hr
    exact ⟨γ, hi, hth⟩
  | cons m ms ih =>
    obtain ⟨d, hd, hr⟩ := Option.bind_eq_some_iff.mp hr
    obtain ⟨γ', hi', hth'⟩ := Outline.next hstart hfinish (hok c m) hd hi hth
    exact ih hr hi' hth'

end Rules

/-- What an outline asserts of the event that a thread is about to perform. -/
theorem Outline.asserts_of_thread {idle : Tid → G → Prop}
    {post : Tid → (o : Op) → Res o → G → Prop} {c : Config E Tid Op Res S} {γ : Tid → G}
    (hi : O.inv c.mem γ) (hth : O.Thread M idle post t (γ t) (c.thread t)) {o : Op} {e : E β}
    {k : β → Prog E (Res o)} (ht : c.thread t = some ⟨o, .act e k⟩) {choice : ℕ} {r : β × S}
    (hok : O.ok t e c.mem choice) (he : M.exec t e c.mem choice = some r) :
    O.asserts t e c.mem := by
  rw [ht] at hth
  exact (Safe.step hth _ γ choice r.1 r.2 hi rfl hok he).1

end Interleave
