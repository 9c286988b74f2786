import MimallocRs.Foundations.Interleave.Alone

/-!
# Operations one after the other

In a system of a single thread every operation runs to its end before the next one starts, so its
runs are the sequences of whole operations. `System.Reachable.serial` is the run rule for them: an
invariant that each operation re-establishes, by a total-correctness specification of its program,
holds whenever no operation is running, and what is left of a running operation still ends as
specified. For runs whose moves meet a condition the specifications may be about the machine
`Machine.only`, which answers only the events that the condition allows.
-/

namespace Interleave

variable {E : Type → Type} {Tid Op : Type} {Res : Op → Type} {S : Type}

open Classical in
/-- The machine that answers only the allowed events. -/
noncomputable def Machine.only (M : Machine E Tid S)
    (allowed : ∀ {β : Type}, E β → S → ℕ → Prop) : Machine E Tid S where
  exec t e s choice := if allowed e s choice then M.exec t e s choice else none

theorem Machine.only_exec {M : Machine E Tid S} {allowed : ∀ {β : Type}, E β → S → ℕ → Prop}
    {t : Tid} {β : Type} {e : E β} {s : S} {choice : ℕ} (h : allowed e s choice) :
    (M.only allowed).exec t e s choice = M.exec t e s choice := if_pos h

theorem Machine.only_exec_eq_some {M : Machine E Tid S}
    {allowed : ∀ {β : Type}, E β → S → ℕ → Prop} {t : Tid} {β : Type} {e : E β} {s : S}
    {choice : ℕ} {r : β × S} :
    (M.only allowed).exec t e s choice = some r ↔
      allowed e s choice ∧ M.exec t e s choice = some r := by
  unfold only
  dsimp only
  split <;> simp [*]

/-- The moves that perform only allowed events. -/
def Performs (allowed : ∀ {β : Type}, E β → S → ℕ → Prop) (c : Config E Tid Op Res S)
    (m : Move Tid Op) : Prop :=
  ∀ ⦃t choice o⦄ ⦃β : Type⦄ ⦃e : E β⦄ ⦃k : β → Prog E (Res o)⦄, m = .step t choice →
    c.thread t = some ⟨o, .act e k⟩ → allowed e c.mem choice

/-- What holds of a system of one thread: the invariant while it is idle, and otherwise that the
running operation, started from a state with the invariant, ends as specified. -/
def Serial (M : System E Unit Op Res S) (N : Machine E Unit S) (panics : Prop) (inv : S → Prop)
    (post : (o : Op) → S → Res o → S → Prop) (c : Config E Unit Op Res S) : Prop :=
  match c.thread () with
  | none => inv c.mem
  | some ⟨o, p⟩ => ∃ s s', inv s ∧ M.start () o s = some s' ∧
    Ends N () panics p c.mem (post o s)

/-- **The run rule for whole operations**, of which only those are specified that may be started. -/
theorem System.Reachable.serial_starts {M : System E Unit Op Res S} {N : Machine E Unit S} {panics : Prop}
    {inv : S → Prop} {post : (o : Op) → S → Res o → S → Prop} {init : S → Prop}
    {ok : Config E Unit Op Res S → Move Unit Op → Prop}
    (hexec : ∀ c choice o {β : Type} (e : E β) (k : β → Prog E (Res o)) r,
      ok c (.step () choice) → c.thread () = some ⟨o, .act e k⟩ →
      M.exec () e c.mem choice = some r → N.exec () e c.mem choice = some r)
    (hinit : ∀ s, init s → inv s)
    (hstart : ∀ c o s', ok c (.start () o) → inv c.mem → M.start () o c.mem = some s' →
      Ends N () panics (M.prog () o) s' (post o c.mem))
    (hfinish : ∀ o s s' r s'', inv s → M.start () o s = some s' → post o s r s'' →
      inv (M.finish () o r s''))
    {c : Config E Unit Op Res S} (h : M.Reachable init ok c) : Serial M N panics inv post c := by
  induction h with
  | init hs => exact hinit _ hs
  | @next c c' m _ hm hn ih =>
    unfold Serial at ih ⊢
    cases m with
    | start t o =>
      obtain ⟨hnone, s', hs, rfl⟩ := System.next_start hn
      rw [hnone] at ih
      simp only [Function.update_self]
      exact ⟨_, _, ih, hs, hstart c o _ hm ih hs⟩
    | step t choice =>
      obtain ⟨o, p, s, p', hp, hs, rfl⟩ := System.next_step hn
      rw [hp] at ih
      obtain ⟨s₀, s₁, hinv, hst, hends⟩ := ih
      simp only [Function.update_self]
      refine ⟨s₀, s₁, hinv, hst, ?_⟩
      cases p with
      | ret a => cases hs
      | act e k =>
        obtain ⟨⟨b, s'⟩, hb, he⟩ := Option.map_eq_some_iff.mp hs
        cases he
        cases hends with
        | act _ hsome => exact hsome choice b s' (hexec c choice o e k _ hm hp hb)
      | loop body b k =>
        cases hs
        cases hends with
        | loop hends => exact hends
    | finish t =>
      obtain ⟨o, a, hp, rfl⟩ := System.next_finish hn
      rw [hp] at ih
      obtain ⟨s₀, s₁, hinv, hst, hends⟩ := ih
      simp only [Function.update_self]
      cases hends with
      | ret hpost => exact hfinish o s₀ s₁ a c.mem hinv hst hpost

/-- The run rule, with every operation specified. -/
theorem System.Reachable.serial {M : System E Unit Op Res S} {N : Machine E Unit S} {panics : Prop}
    {inv : S → Prop} {post : (o : Op) → S → Res o → S → Prop} {init : S → Prop}
    {ok : Config E Unit Op Res S → Move Unit Op → Prop}
    (hexec : ∀ c choice o {β : Type} (e : E β) (k : β → Prog E (Res o)) r,
      ok c (.step () choice) → c.thread () = some ⟨o, .act e k⟩ →
      M.exec () e c.mem choice = some r → N.exec () e c.mem choice = some r)
    (hinit : ∀ s, init s → inv s)
    (hstart : ∀ o s s', inv s → M.start () o s = some s' →
      Ends N () panics (M.prog () o) s' (post o s))
    (hfinish : ∀ o s s' r s'', inv s → M.start () o s = some s' → post o s r s'' →
      inv (M.finish () o r s''))
    {c : Config E Unit Op Res S} (h : M.Reachable init ok c) : Serial M N panics inv post c :=
  System.Reachable.serial_starts hexec hinit (fun c o s' _ => hstart o c.mem s') hfinish h

/-- The run rule, for runs that perform only allowed events. -/
theorem System.Reachable.serial_only {M : System E Unit Op Res S} {panics : Prop}
    {allowed : ∀ {β : Type}, E β → S → ℕ → Prop} {inv : S → Prop}
    {post : (o : Op) → S → Res o → S → Prop} {init : S → Prop}
    {ok : Config E Unit Op Res S → Move Unit Op → Prop}
    (hok : ∀ c m, ok c m → Performs allowed c m) (hinit : ∀ s, init s → inv s)
    (hstart : ∀ o s s', inv s → M.start () o s = some s' →
      Ends (M.toMachine.only allowed) () panics (M.prog () o) s' (post o s))
    (hfinish : ∀ o s s' r s'', inv s → M.start () o s = some s' → post o s r s'' →
      inv (M.finish () o r s''))
    {c : Config E Unit Op Res S} (h : M.Reachable init ok c) :
    Serial M (M.toMachine.only allowed) panics inv post c := by
  refine System.Reachable.serial ?_ hinit hstart hfinish h
  intro c choice o β e k r hm hc he
  exact Machine.only_exec_eq_some.mpr ⟨hok c _ hm rfl hc, he⟩

/-! ## Runs given by their moves -/

/-- The moves of a whole call that takes `k` steps, under the same choice. -/
def Move.call (t : Tid) (o : Op) (k choice : ℕ) : List (Move Tid Op) :=
  .start t o :: List.replicate k (.step t choice) ++ [.finish t]

/-- A run by moves that are allowed wherever they are made. -/
theorem System.Reachable.run_of_moves [DecidableEq Tid] {M : System E Tid Op Res S} {init : S → Prop}
    {ok : Config E Tid Op Res S → Move Tid Op → Prop} {c c' : Config E Tid Op Res S}
    (h : M.Reachable init ok c) {ms : List (Move Tid Op)} (hms : ∀ m ∈ ms, ∀ c, ok c m)
    (hr : M.run ms c = some c') : M.Reachable init ok c' := by
  induction ms generalizing c with
  | nil =>
    cases hr
    exact h
  | cons m ms ih =>
    obtain ⟨d, hd, hr⟩ := Option.bind_eq_some_iff.mp hr
    exact ih (h.next (hms m (by simp) c) hd) (fun m hm => hms m (by simp [hm])) hr

/-- A run whose last configuration passes a test. -/
theorem System.exists_run [DecidableEq Tid] {M : System E Tid Op Res S}
    {test : Config E Tid Op Res S → Bool} {ms : List (Move Tid Op)} {c : Config E Tid Op Res S}
    (h : (M.run ms c).any test = true) : ∃ c', M.run ms c = some c' ∧ test c' = true := by
  cases hc : M.run ms c with
  | none =>
    rw [hc] at h
    cases h
  | some c' =>
    rw [hc] at h
    exact ⟨c', rfl, h⟩

theorem Serial.idle {M : System E Unit Op Res S} {N : Machine E Unit S} {panics : Prop}
    {inv : S → Prop} {post : (o : Op) → S → Res o → S → Prop} {c : Config E Unit Op Res S}
    (h : Serial M N panics inv post c) (hc : c.thread () = none) : inv c.mem := by
  unfold Serial at h
  rwa [hc] at h

theorem Serial.returned {M : System E Unit Op Res S} {N : Machine E Unit S} {panics : Prop}
    {inv : S → Prop} {post : (o : Op) → S → Res o → S → Prop} {c : Config E Unit Op Res S}
    (h : Serial M N panics inv post c) {o : Op} {r : Res o} (hc : c.thread () = some ⟨o, .ret r⟩) :
    ∃ s s', inv s ∧ M.start () o s = some s' ∧ post o s r c.mem := by
  unfold Serial at h
  rw [hc] at h
  obtain ⟨s, s', hinv, hst, hends⟩ := h
  cases hends with
  | ret hpost => exact ⟨s, s', hinv, hst, hpost⟩

end Interleave
