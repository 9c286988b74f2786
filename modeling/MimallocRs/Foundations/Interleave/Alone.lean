import MimallocRs.Foundations.Interleave.System

/-!
# Programs run alone

While no other thread moves, a program is an ordinary sequential one. `Ends M t panics p s Q` says
that every execution of `p` from the state `s` by thread `t` alone comes to an end: it returns with
`Q`, or, if `panics` allows it, comes to an event that has no answer. `Ends M t False` is total
correctness; `Ends M t True p s fun _ _ => False` says that every execution panics, and the two
exclude each other (`Ends.not_panics`).
-/

namespace Interleave

variable {E F : Type → Type} {Tid S S' : Type}

/-- Every execution of a program by thread `t` alone returns with `Q`, or panics if it may. -/
inductive Ends {α : Type} (M : Machine E Tid S) (t : Tid) (panics : Prop) :
    Prog E α → S → (α → S → Prop) → Prop
  | ret {a : α} {s : S} {Q : α → S → Prop} (h : Q a s) : Ends M t panics (.ret a) s Q
  | act {β : Type} {e : E β} {k : β → Prog E α} {s : S} {Q : α → S → Prop}
    (hnone : ∀ choice, M.exec t e s choice = none → panics)
    (hsome : ∀ choice b s', M.exec t e s choice = some (b, s') → Ends M t panics (k b) s' Q) :
    Ends M t panics (.act e k) s Q
  | loop {β γ : Type} {body : β → Prog E (β ⊕ γ)} {b : β} {k : γ → Prog E α} {s : S}
    {Q : α → S → Prop} (h : Ends M t panics (Prog.unfold body b k) s Q) :
    Ends M t panics (.loop body b k) s Q

namespace Ends

variable {M : Machine E Tid S} {t : Tid} {panics : Prop} {α β γ δ : Type} {s : S}

theorem mono {p : Prog E α} {Q Q' : α → S → Prop} (h : Ends M t panics p s Q)
    (hQ : ∀ a s, Q a s → Q' a s) : Ends M t panics p s Q' := by
  induction h with
  | ret h => exact .ret (hQ _ _ h)
  | act hnone _ ih => exact .act hnone fun choice b s' he => ih choice b s' he hQ
  | loop _ ih => exact .loop (ih hQ)

/-- A program may be allowed to panic more often than it does. -/
theorem allow {panics' : Prop} (hp : panics → panics') {p : Prog E α} {Q : α → S → Prop}
    (h : Ends M t panics p s Q) : Ends M t panics' p s Q := by
  induction h with
  | ret h => exact .ret h
  | act hnone _ ih => exact .act (fun choice he => hp (hnone choice he)) ih
  | loop _ ih => exact .loop ih

/-- A program that may not panic may be regarded as one that may. -/
theorem weaken {p : Prog E α} {Q : α → S → Prop} (h : Ends M t False p s Q) :
    Ends M t panics p s Q :=
  h.allow False.elim

theorem bind {p : Prog E α} {f : α → Prog E δ} {Q : δ → S → Prop}
    (h : Ends M t panics p s fun a s' => Ends M t panics (f a) s' Q) :
    Ends M t panics (p.bind f) s Q := by
  generalize hR : (fun a s' => Ends M t panics (f a) s' Q) = R at h
  induction h with
  | ret h =>
    subst hR
    exact h
  | act hnone _ ih => exact .act hnone fun choice b s' he => ih choice b s' he hR
  | loop _ ih =>
    apply Ends.loop
    rw [← Prog.unfold_bind]
    exact ih hR

/-- **The loop rule**: a body that keeps `J` and lowers a measure until it stops. -/
theorem loop_decreasing {body : β → Prog E (β ⊕ γ)} {k : γ → Prog E α} {Q : α → S → Prop}
    (m : β → S → ℕ) (J : β → S → Prop)
    (hbody : ∀ b s, J b s → Ends M t panics (body b) s fun r s' =>
      Sum.elim (fun b' => J b' s' ∧ m b' s' < m b s) (fun c => Ends M t panics (k c) s' Q) r)
    {b : β} (hb : J b s) : Ends M t panics (.loop body b k) s Q := by
  induction hm : m b s using Nat.strongRecOn generalizing b s with
  | _ n ih =>
    subst hm
    apply Ends.loop
    apply Ends.bind
    apply (hbody b s hb).mono
    intro r s' hr
    cases r with
    | inl b' => exact ih (m b' s') hr.2 hr.1 rfl
    | inr c => exact hr

/-- A loop with a measure that does not depend on the state. -/
theorem loop_measure {body : β → Prog E (β ⊕ γ)} {k : γ → Prog E α} {Q : α → S → Prop}
    (m : β → ℕ) (J : β → S → Prop)
    (hbody : ∀ b s, J b s → Ends M t panics (body b) s fun r s' =>
      Sum.elim (fun b' => J b' s' ∧ m b' < m b) (fun c => Ends M t panics (k c) s' Q) r)
    {b : β} (hb : J b s) : Ends M t panics (.loop body b k) s Q :=
  loop_decreasing (fun b _ => m b) J hbody hb

/-- A loop whose body stops in its first round. -/
theorem loop_once {body : β → Prog E (β ⊕ γ)} {b : β} {k : γ → Prog E α} {Q : α → S → Prop}
    (h : Ends M t panics (body b) s fun r s' =>
      Sum.elim (fun _ => False) (fun c => Ends M t panics (k c) s' Q) r) :
    Ends M t panics (.loop body b k) s Q := by
  apply Ends.loop
  apply Ends.bind
  apply h.mono
  intro r s' hr
  cases r with
  | inl b' => exact hr.elim
  | inr c => exact hr

theorem forEach {p : β → Prog E Unit} {Q : Unit → S → Prop} (J : List β → S → Prop)
    (hbody : ∀ b l s, J (b :: l) s → Ends M t panics (p b) s fun _ s' => J l s')
    (hend : ∀ s, J [] s → Q () s) {l : List β} (hl : J l s) :
    Ends M t panics (Prog.forEach p l) s Q := by
  induction l generalizing s with
  | nil => exact .ret (hend s hl)
  | cons b l ih => exact bind ((hbody b l s hl).mono fun _ s' hs' => ih hs')

theorem allOf {p : β → Prog E Bool} {Q : Bool → S → Prop} (J : List β → S → Prop)
    (hbody : ∀ b l s, J (b :: l) s → Ends M t panics (p b) s fun r s' =>
      if r then J l s' else Q false s')
    (hend : ∀ s, J [] s → Q true s) {l : List β} (hl : J l s) :
    Ends M t panics (Prog.allOf p l) s Q := by
  induction l generalizing s with
  | nil => exact .ret (hend s hl)
  | cons b l ih =>
    apply bind
    apply (hbody b l s hl).mono
    intro r s' hs'
    cases r with
    | true => exact ih hs'
    | false => exact .ret hs'

theorem firstSome {p : β → Prog E (Option α)} {Q : Option α → S → Prop} (J : List β → S → Prop)
    (hbody : ∀ b l s, J (b :: l) s → Ends M t panics (p b) s fun r s' =>
      match r with
      | some a => Q (some a) s'
      | none => J l s')
    (hend : ∀ s, J [] s → Q none s) {l : List β} (hl : J l s) :
    Ends M t panics (Prog.firstSome p l) s Q := by
  induction l generalizing s with
  | nil => exact .ret (hend s hl)
  | cons b l ih =>
    apply bind
    apply (hbody b l s hl).mono
    intro r s' hs'
    cases r with
    | some a => exact .ret hs'
    | none => exact ih hs'

/-- A program that returns does not panic. -/
theorem not_panics {p : Prog E α} {Q : α → S → Prop} (h : Ends M t False p s Q) :
    ¬ Ends M t True p s fun _ _ => False := by
  intro hp
  induction h with
  | ret h => cases hp with | ret hf => exact hf
  | @act β e k s Q hnone hsome ih =>
    cases hp with
    | act hnone' hsome' =>
      obtain ⟨⟨b, s'⟩, he⟩ : ∃ r, M.exec t e s 0 = some r :=
        Option.ne_none_iff_exists'.mp fun hn => hnone 0 hn
      exact ih 0 b s' he (hsome' 0 b s' he)
  | loop h ih => cases hp with | loop hp => exact ih hp

/-- What holds whenever a program returns also holds of a program that does return. -/
theorem and_panics {panics' : Prop} {p : Prog E α} {Q Q' : α → S → Prop}
    (h : Ends M t panics p s Q) (h' : Ends M t panics' p s Q') :
    Ends M t panics p s fun a s => Q a s ∧ Q' a s := by
  induction h with
  | ret h => cases h' with | ret h' => exact .ret ⟨h, h'⟩
  | act hnone _ ih =>
    cases h' with
    | act _ hsome' => exact .act hnone fun choice b s' he => ih choice b s' he (hsome' choice b s' he)
  | loop _ ih => cases h' with | loop h' => exact .loop (ih h')

theorem and {p : Prog E α} {Q Q' : α → S → Prop} (h : Ends M t panics p s Q)
    (h' : Ends M t panics p s Q') : Ends M t panics p s fun a s => Q a s ∧ Q' a s :=
  h.and_panics h'

/-- A program that returns has a result. -/
theorem exists_result {p : Prog E α} {Q : α → S → Prop} (h : Ends M t False p s Q) :
    ∃ a s', Q a s' := by
  induction h with
  | @ret a s Q h => exact ⟨a, s, h⟩
  | @act β e k s Q hnone hsome ih =>
    obtain ⟨⟨b, s'⟩, he⟩ : ∃ r, M.exec t e s 0 = some r :=
      Option.ne_none_iff_exists'.mp fun hn => hnone 0 hn
    exact ih 0 b s' he
  | loop _ ih => exact ih

/-- What every event of a program keeps also holds after it has run. -/
theorem keeps {P : ∀ {β : Type}, E β → Prop} {J : S → Prop}
    (hP : ∀ {β : Type} (e : E β), P e → ∀ s choice b s', J s → M.exec t e s choice = some (b, s') →
      J s')
    {p : Prog E α} {Q : α → S → Prop} (h : Ends M t panics p s Q) (hp : p.Every P) (hs : J s) :
    Ends M t panics p s fun a s' => Q a s' ∧ J s' := by
  induction h with
  | ret h => exact .ret ⟨h, hs⟩
  | act hnone _ ih =>
    exact .act hnone fun choice b s' he =>
      ih choice b s' he (hp.2 b) (hP _ hp.1 _ choice b s' hs he)
  | loop _ ih => exact .loop (ih hp.unfold hs)

/-- A program of a machine that is one part of another runs there as it does alone, if the other
machine, as long as `J` holds, gives only answers that its part can give. -/
theorem embed {N : Machine F Tid S'} (J : S' → Prop) (φ : ∀ {β : Type}, E β → F β) (get : S' → S)
    (put : S → S' → S') (hput : ∀ s w w', put w (put w' s) = put w s)
    (hget : ∀ s w, get (put w s) = w) (hself : ∀ s, put (get s) s = s)
    (hJ : ∀ s w, J s → J (put w s))
    (hexec : ∀ {β : Type} (e : E β) s choice, J s → ∃ choice', N.exec t (φ e) s choice =
      (M.exec t e (get s) choice').map fun r => (r.1, put r.2 s))
    {p : Prog E α} {Q : α → S → Prop} {s : S'} (hs : J s) (h : Ends M t panics p (get s) Q) :
    Ends N t panics (p.hoist φ) s fun a s' => Q a (get s') ∧ s' = put (get s') s := by
  generalize hw : get s = w at h
  induction h generalizing s with
  | ret h =>
    subst hw
    exact .ret ⟨h, (hself s).symm⟩
  | act hnone hsome ih =>
    subst hw
    refine .act (fun choice hn => ?_) fun choice b s' he => ?_
    · obtain ⟨choice', hchoice⟩ := hexec _ s choice hs
      rw [hchoice, Option.map_eq_none_iff] at hn
      exact hnone choice' hn
    · obtain ⟨choice', hchoice⟩ := hexec _ s choice hs
      rw [hchoice] at he
      obtain ⟨⟨b', w'⟩, hw, he⟩ := Option.map_eq_some_iff.mp he
      cases he
      apply (ih choice' _ w' hw (hJ s w' hs) (hget s w')).mono
      rintro a s'' ⟨hQ, hs''⟩
      exact ⟨hQ, by rw [hs'', hget, hput]⟩
  | loop _ ih =>
    apply Ends.loop
    rw [← Prog.hoist_unfold]
    exact ih hs hw

/-- A program of a machine that is one part of another runs there as it does alone. -/
theorem hoist {N : Machine F Tid S'} (φ : ∀ {β : Type}, E β → F β) (get : S' → S)
    (put : S → S' → S') (hput : ∀ s w w', put w (put w' s) = put w s)
    (hget : ∀ s w, get (put w s) = w) (hself : ∀ s, put (get s) s = s)
    (hexec : ∀ {β : Type} (e : E β) s choice, N.exec t (φ e) s choice =
      (M.exec t e (get s) choice).map fun r => (r.1, put r.2 s))
    {p : Prog E α} {Q : α → S → Prop} {s : S'} (h : Ends M t panics p (get s) Q) :
    Ends N t panics (p.hoist φ) s fun a s' => Q a (get s') ∧ s' = put (get s') s :=
  embed (fun _ => True) φ get put hput hget hself (fun _ _ _ => trivial)
    (fun e s choice _ => ⟨choice, hexec e s choice⟩) trivial h

/-- A program of a machine that is one part of another ends there as it does alone, if the other
machine acts on that part as it does. Nothing is said of the rest. -/
theorem hoist_part {Tid' : Type} {N : Machine F Tid' S'} {t' : Tid'} (φ : ∀ {β : Type}, E β → F β)
    (get : S' → S)
    (hexec : ∀ {β : Type} (e : E β) s choice,
      (N.exec t' (φ e) s choice).map (fun r => (r.1, get r.2)) = M.exec t e (get s) choice)
    {p : Prog E α} {Q : α → S → Prop} {s : S'} (h : Ends M t panics p (get s) Q) :
    Ends N t' panics (p.hoist φ) s fun a s' => Q a (get s') := by
  generalize hw : get s = w at h
  induction h generalizing s with
  | ret h =>
    subst hw
    exact .ret h
  | act hnone hsome ih =>
    subst hw
    refine .act (fun choice hn => ?_) fun choice b s' he => ?_
    · apply hnone choice
      rw [← hexec, hn]
      rfl
    · apply ih choice b (get s') _ rfl
      rw [← hexec, he]
      rfl
  | loop _ ih =>
    apply Ends.loop
    rw [← Prog.hoist_unfold]
    exact ih hw

end Ends

/-- An execution of a program by thread `t` alone that returns. -/
inductive Result {α : Type} (M : Machine E Tid S) (t : Tid) : Prog E α → S → α → S → Prop
  | ret (a : α) (s : S) : Result M t (.ret a) s a s
  | act {β : Type} {e : E β} {k : β → Prog E α} {s s' s'' : S} {choice : ℕ} {b : β} {a : α}
    (he : M.exec t e s choice = some (b, s')) (h : Result M t (k b) s' a s'') :
    Result M t (.act e k) s a s''
  | loop {β γ : Type} {body : β → Prog E (β ⊕ γ)} {b : β} {k : γ → Prog E α} {s s' : S} {a : α}
    (h : Result M t (Prog.unfold body b k) s a s') : Result M t (.loop body b k) s a s'

/-- What every execution ends with holds of one that returns. -/
theorem Ends.result {M : Machine E Tid S} {t : Tid} {panics : Prop} {α : Type} {p : Prog E α}
    {s s' : S} {a : α} {Q : α → S → Prop} (h : Ends M t panics p s Q) (hr : Result M t p s a s') :
    Q a s' := by
  induction h with
  | ret hQ =>
    cases hr
    exact hQ
  | act _ _ ih =>
    cases hr with
    | act he hr => exact ih _ _ _ he hr
  | loop _ ih =>
    cases hr with
    | loop hr => exact ih hr

/-- The execution of a program under the same choice at every event, in at most `n` steps. -/
def Machine.runAlone (M : Machine E Tid S) (t : Tid) (choice : ℕ) {α : Type} :
    ℕ → Prog E α → S → Option (α × S)
  | _, .ret a, s => some (a, s)
  | 0, .act .., _ => none
  | 0, .loop .., _ => none
  | n + 1, .act e k, s => (M.exec t e s choice).bind fun r => M.runAlone t choice n (k r.1) r.2
  | n + 1, .loop body b k, s => M.runAlone t choice n (Prog.unfold body b k) s

theorem Result.of_runAlone {M : Machine E Tid S} {t : Tid} {choice n : ℕ} {α : Type} {p : Prog E α}
    {s s' : S} {a : α} (h : M.runAlone t choice n p s = some (a, s')) : Result M t p s a s' := by
  induction n generalizing p s with
  | zero =>
    cases p with
    | ret a' =>
      cases h
      exact .ret ..
    | act e k => cases h
    | loop body b k => cases h
  | succ n ih =>
    cases p with
    | ret a' =>
      cases h
      exact .ret ..
    | act e k =>
      obtain ⟨⟨b, s₁⟩, he, h⟩ := Option.bind_eq_some_iff.mp h
      exact .act he (ih h)
    | loop body b k => exact .loop (ih h)

/-- What every execution ends with holds of one that passes a test. -/
theorem Ends.runAlone {M : Machine E Tid S} {t : Tid} {panics : Prop} {α : Type} {p : Prog E α}
    {s : S} {Q : α → S → Prop} (h : Ends M t panics p s Q) {choice n : ℕ} {test : α × S → Bool}
    (hr : (M.runAlone t choice n p s).any test = true) : ∃ r, Q r.1 r.2 ∧ test r = true := by
  obtain ⟨r, hrun, htest⟩ := (Option.any_eq_true _ _).mp hr
  exact ⟨r, h.result (.of_runAlone hrun), htest⟩

/-- An execution of an iteration that returns, with the number of its rounds. -/
inductive Rounds {β γ : Type} (M : Machine E Tid S) (t : Tid) (body : β → Prog E (β ⊕ γ)) :
    β → S → ℕ → γ → S → Prop
  | last {b : β} {s s' : S} {c : γ} (h : Result M t (body b) s (.inr c) s') :
    Rounds M t body b s 1 c s'
  | again {b b' : β} {s s' s'' : S} {n : ℕ} {c : γ} (h : Result M t (body b) s (.inl b') s')
    (hrest : Rounds M t body b' s' n c s'') : Rounds M t body b s (n + 1) c s''

end Interleave
