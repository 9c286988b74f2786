import MimallocRs.Foundations.Interleave.Alone

/-!
# Threads that can go on

An execution of what is left of an operation, by its thread alone, is a list of moves of that
thread that ends with its return (`System.run_of_result`). A program all of whose executions end has
one that does (`Ends.exists_result_of`). Whole calls made one after the other are a run
(`System.Reachable.runCalls`).
-/

namespace Interleave

variable {E : Type → Type} {Tid Op S : Type} {Res : Op → Type}

/-- The thread that makes a move. -/
def Move.thread : Move Tid Op → Tid
  | .start t _ | .step t _ | .finish t => t

/-- A program that ends has an execution that does. -/
theorem Ends.exists_result_of {M : Machine E Tid S} {t : Tid} {α : Type} {p : Prog E α} {s : S}
    {Q : α → S → Prop} (h : Ends M t False p s Q) : ∃ a s', Result M t p s a s' ∧ Q a s' := by
  induction h with
  | @ret a s Q hQ => exact ⟨a, s, .ret a s, hQ⟩
  | @act β e k s Q hnone hsome ih =>
    obtain ⟨⟨b, s₁⟩, he⟩ : ∃ r, M.exec t e s 0 = some r :=
      Option.ne_none_iff_exists'.mp fun hn => hnone 0 hn
    obtain ⟨a, s', hr, hQ⟩ := ih 0 b s₁ he
    exact ⟨a, s', .act he hr, hQ⟩
  | loop _ ih =>
    obtain ⟨a, s', hr, hQ⟩ := ih
    exact ⟨a, s', .loop hr, hQ⟩

variable [DecidableEq Tid] {M : System E Tid Op Res S}

/-- An execution of what is left of an operation, and its return, as moves of its thread. -/
theorem System.run_of_result {t : Tid} {o : Op} {p : Prog E (Res o)} {s s' : S} {a : Res o}
    (h : Result M.toMachine t p s a s') {c : Config E Tid Op Res S} (hs : c.mem = s)
    (ht : c.thread t = some ⟨o, p⟩) :
    ∃ ms, (∀ m ∈ ms, Move.thread m = t) ∧
      M.run ms c = some ⟨M.finish t o a s', Function.update c.thread t none⟩ := by
  induction h generalizing c with
  | ret a s =>
    refine ⟨[.finish t], by simp [Move.thread], ?_⟩
    simp only [System.run, System.next, ht, hs, Option.bind_some]
  | @act β e k s s₁ s' choice b a he _ ih =>
    obtain ⟨ms, hms, hrun⟩ := ih (c := ⟨s₁, Function.update c.thread t (some ⟨o, k b⟩)⟩) rfl
      (Function.update_self ..)
    refine ⟨.step t choice :: ms, by simpa [Move.thread] using hms, ?_⟩
    rw [Function.update_idem] at hrun
    simp only [System.run, System.next, ht, hs, System.advance, he, Option.map_some,
      Option.bind_some, hrun]
  | @loop β γ body b k s s' a _ ih =>
    obtain ⟨ms, hms, hrun⟩ := ih
      (c := ⟨s, Function.update c.thread t (some ⟨o, Prog.unfold body b k⟩)⟩) rfl
      (Function.update_self ..)
    refine ⟨.step t 0 :: ms, by simpa [Move.thread] using hms, ?_⟩
    rw [Function.update_idem] at hrun
    simp only [System.run, System.next, ht, hs, System.advance, Option.map_some, Option.bind_some,
      hrun]

/-! ## Whole calls -/

/-- The state after calls made one after the other, each under the same choice at every event and in
at most `n` steps. -/
def System.runCalls (M : System E Tid Op Res S) (choice n : ℕ) : List (Tid × Op) → S → Option S
  | [], s => some s
  | (t, o) :: calls, s =>
    (M.start t o s).bind fun s₁ =>
      (M.toMachine.runAlone t choice n (M.prog t o) s₁).bind fun r =>
        M.runCalls choice n calls (M.finish t o r.1 r.2)

/-- The moves other than the start of an operation are allowed, and so is the start of the allowed
operations. -/
def System.Starts (allowed : Tid → Op → Prop) (_ : Config E Tid Op Res S) (m : Move Tid Op) : Prop :=
  ∀ t o, m = .start t o → allowed t o

/-- What is left of an operation is executed. -/
theorem System.Reachable.run_result {init : S → Prop} {allowed : Tid → Op → Prop} {t : Tid} {o : Op}
    {p : Prog E (Res o)} {s s' : S} {a : Res o} (h : Result M.toMachine t p s a s')
    {c : Config E Tid Op Res S} (hc : M.Reachable init (System.Starts allowed) c) (hs : c.mem = s)
    (ht : c.thread t = some ⟨o, p⟩) : M.Reachable init (System.Starts allowed)
      ⟨M.finish t o a s', Function.update c.thread t none⟩ := by
  induction h generalizing c with
  | ret a s =>
    have hn : M.next (.finish t) c = some ⟨M.finish t o a s, Function.update c.thread t none⟩ := by
      simp only [System.next, ht, hs]
    exact hc.next (fun _ _ hm => by cases hm) hn
  | @act β e k s s₁ s' choice b a he _ ih =>
    have hn : M.next (.step t choice) c =
        some ⟨s₁, Function.update c.thread t (some ⟨o, k b⟩)⟩ := by
      simp only [System.next, ht, hs, System.advance, he, Option.map_some]
    have h₁ := ih (hc.next (fun _ _ hm => by cases hm) hn) rfl (Function.update_self ..)
    rwa [Function.update_idem] at h₁
  | @loop β γ body b k s s' a _ ih =>
    have hn : M.next (.step t 0) c =
        some ⟨s, Function.update c.thread t (some ⟨o, Prog.unfold body b k⟩)⟩ := by
      simp only [System.next, ht, hs, System.advance, Option.map_some]
    have h₁ := ih (hc.next (fun _ _ hm => by cases hm) hn) rfl (Function.update_self ..)
    rwa [Function.update_idem] at h₁

theorem System.Reachable.runCalls_starts {init : S → Prop} {allowed : Tid → Op → Prop}
    {choice n : ℕ} {calls : List (Tid × Op)} {s s' : S} (hcalls : ∀ c ∈ calls, allowed c.1 c.2)
    (h : M.Reachable init (System.Starts allowed) ⟨s, fun _ => none⟩)
    (hr : M.runCalls choice n calls s = some s') :
    M.Reachable init (System.Starts allowed) ⟨s', fun _ => none⟩ := by
  induction calls generalizing s with
  | nil =>
    cases hr
    exact h
  | cons call calls ih =>
    obtain ⟨t, o⟩ := call
    obtain ⟨s₁, hs₁, hr⟩ := Option.bind_eq_some_iff.mp hr
    obtain ⟨⟨a, s₂⟩, ha, hr⟩ := Option.bind_eq_some_iff.mp hr
    have hstart : M.next (.start t o) ⟨s, fun _ => none⟩ =
        some ⟨s₁, Function.update (fun _ => none) t (some ⟨o, M.prog t o⟩)⟩ := by
      simp only [System.next, hs₁, Option.map_some]
    have hthread : Function.update (fun _ => none) t (some ⟨o, M.prog t o⟩) t =
        some (⟨o, M.prog t o⟩ : Σ o : Op, Prog E (Res o)) := Function.update_self ..
    have hallowed : allowed t o := hcalls _ (List.mem_cons_self ..)
    have h₁ := h.next (fun _ _ hm => by cases hm; exact hallowed) hstart
    have h₂ := System.Reachable.run_result (.of_runAlone ha) h₁ rfl hthread
    rw [Function.update_idem, Function.update_eq_self] at h₂
    exact ih (fun c hc => hcalls c (List.mem_cons_of_mem _ hc)) h₂ hr

theorem System.Reachable.runCalls {init : S → Prop} {choice n : ℕ} {calls : List (Tid × Op)}
    {s s' : S} (h : M.Reachable init System.anyMove ⟨s, fun _ => none⟩)
    (hr : M.runCalls choice n calls s = some s') :
    M.Reachable init System.anyMove ⟨s', fun _ => none⟩ := by
  have hany : M.Reachable init (System.Starts fun _ _ => True) ⟨s, fun _ => none⟩ :=
    h.mono (fun _ h => h) fun _ _ _ _ _ _ => trivial
  exact (System.Reachable.runCalls_starts (fun _ _ => trivial) hany hr).mono (fun _ h => h)
    fun _ _ _ => trivial

omit [DecidableEq Tid] in
/-- Calls that leave a state which passes a test. -/
theorem System.exists_runCalls {test : S → Bool} {choice n : ℕ} {calls : List (Tid × Op)} {s : S}
    (h : (M.runCalls choice n calls s).any test = true) :
    ∃ s', M.runCalls choice n calls s = some s' ∧ test s' = true :=
  (Option.any_eq_true _ _).mp h

end Interleave
