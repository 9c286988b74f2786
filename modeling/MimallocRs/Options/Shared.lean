import MimallocRs.Foundations.Interleave.Serial
import MimallocRs.Options.Text
import MimallocRs.Sync.OnceBox

/-!
# The options of a process

The values of the options are shared by all threads. They are seeded from the environment on the
first use of any option, under a write-once cell, and can be set at any time. However the first uses
of the options race, the seeding overwrites nothing that has been set: from the moment at which the
cell is ready, every option has the value that it has been set to last, or that of the environment
(`options_current`).
-/

namespace MimallocRs

open Interleave Prog

namespace Options

/-- The events on `VALUES`. -/
inductive OptionAct (β : Type) : Type
  /-- A store by the closure of `ensure_init`. -/
  | seed (i : ℕ) (v : ℤ) (answer : Unit → β)
  /-- A store by `set`. -/
  | store (o : Opt) (v : ℤ) (answer : Unit → β)
  /-- A load by `get`. -/
  | load (o : Opt) (answer : ℤ → β)

/-- `VALUES`. -/
structure OptionMem where
  values : ℕ → ℤ
  /-- History: what has been set, last first. -/
  sets : List (Opt × ℤ)

/-- Before the first use. -/
def OptionMem.init : OptionMem := ⟨fun _ => 0, []⟩

/-- The events on `VALUES`. -/
def OptionMem.exec {β : Type} (e : OptionAct β) (s : OptionMem) : Option (β × OptionMem) :=
  match e with
  | .seed i v k => some (k (), { s with values := Function.update s.values i v })
  | .store o v k => some (k (),
      { values := Function.update s.values o.index v, sets := (o, v) :: s.sets })
  | .load o k => some (k (s.values o.index), s)

/-- The closure of `ensure_init`, in the environment `env`. -/
def seedAll (env : String → Option (List UInt8)) : Prog OptionAct Unit :=
  forEach (fun i : ℕ =>
    match Opt.fromIndex i with
    | some o => perform (.seed i (envValue env o) id)
    | none => return ()) (List.range optCount)

/-- The calls. -/
inductive OptionOp
  | get (o : Opt) | set (o : Opt) (v : ℤ)

/-- What they return. -/
abbrev OptionOp.Res : OptionOp → Type
  | .get _ => ℤ
  | .set .. => Unit

/-- `get` and `set`, in the environment `env`: each starts with `ensure_init`. -/
def optionUsers (Tid : Type) (env : String → Option (List UInt8)) :
    OnceUsers OptionAct Tid OptionOp OptionOp.Res Unit OptionMem where
  machine := ⟨fun _ e s _ => s.exec e⟩
  closure _ := seedAll env
  body
    | .get o, _ => perform (.load o id)
    | .set o v, _ => perform (.store o v id)

/-- What an option has been set to last, or its value in the environment. -/
def OptionMem.current (env : String → Option (List UInt8)) (s : OptionMem) (o : Opt) : ℤ :=
  ((s.sets.find? fun x => x.1 = o).map Prod.snd).getD (envValue env o)

/-! ## The seeding -/

variable {Tid : Type} {env : String → Option (List UInt8)} {s s' : OptionMem} {t : Tid}

theorem Opt.index_injective : Function.Injective Opt.index := by
  intro o o' h
  cases o <;> cases o' <;> first | rfl | cases h

theorem Opt.fromIndex_index (o : Opt) : Opt.fromIndex o.index = some o := by cases o <;> rfl

theorem Opt.index_lt (o : Opt) : o.index < optCount := by cases o <;> decide

theorem Opt.index_of_fromIndex {i : ℕ} (hi : i < optCount) :
    ∃ o, Opt.fromIndex i = some o ∧ o.index = i := by
  unfold optCount at hi
  interval_cases i
  · exact ⟨.verbose, rfl, rfl⟩
  · exact ⟨.showStats, rfl, rfl⟩
  · exact ⟨.eagerCommit, rfl, rfl⟩
  · exact ⟨.purgeDecommits, rfl, rfl⟩
  · exact ⟨.purgeDelay, rfl, rfl⟩
  · exact ⟨.arenaReserve, rfl, rfl⟩
  · exact ⟨.arenaPurgeMult, rfl, rfl⟩

/-- The seeding gives every option its value in the environment. -/
theorem seedAll_ends :
    Ends (optionUsers Tid env).machine t False (seedAll env) .init fun _ s =>
      s.sets = [] ∧ ∀ o : Opt, s.values o.index = envValue env o := by
  apply Ends.forEach fun l s => (∀ i ∈ l, i < optCount) ∧ s.sets = [] ∧
    ∀ o : Opt, o.index ∉ l → s.values o.index = envValue env o
  · rintro i l s ⟨hl, hsets, hseeded⟩
    obtain ⟨o', hfrom, hindex⟩ := Opt.index_of_fromIndex (hl i List.mem_cons_self)
    rw [hfrom]
    apply Ends.act
    · rintro choice ⟨⟩
    · rintro choice _ _ ⟨⟩
      apply Ends.ret
      refine ⟨fun i hi => hl i (List.mem_cons_of_mem _ hi), hsets, fun o ho => ?_⟩
      by_cases hoi : o.index = i
      · have hoo : o = o' := Opt.index_injective (hoi.trans hindex.symm)
        subst hoo
        show Function.update s.values i _ o.index = _
        rw [hoi, Function.update_self]
      · show Function.update s.values i _ o.index = _
        rw [Function.update_of_ne hoi]
        exact hseeded o fun hmem => (List.mem_cons.mp hmem).elim hoi ho
  · rintro s ⟨-, hsets, hseeded⟩
    exact ⟨hsets, fun o => hseeded o (by simp)⟩
  · refine ⟨fun i hi => List.mem_range.mp hi, rfl, fun o ho => ?_⟩
    exact absurd (List.mem_range.mpr o.index_lt) ho

/-- A set changes the option that is set, and no other. -/
theorem current_kept (hs : ∀ o : Opt, s.values o.index = s.current env o)
    (hstep : UseStep (optionUsers Tid env).machine
      (fun {_} e => ∀ i v k, e ≠ OptionAct.seed i v k) s s') :
    ∀ o : Opt, s'.values o.index = s'.current env o := by
  obtain ⟨t, β, e, choice, b, he, hexec⟩ := hstep
  intro o
  cases e with
  | seed i v k => exact absurd rfl (he i v k)
  | load o' k =>
    cases hexec
    exact hs o
  | store o' v k =>
    cases hexec
    unfold OptionMem.current
    by_cases ho : o' = o
    · subst ho
      rw [List.find?_cons_of_pos (by simp)]
      exact Function.update_self ..
    · rw [List.find?_cons_of_neg (by simpa using ho)]
      show Function.update s.values o'.index v o.index = _
      rw [Function.update_of_ne fun h => ho (Opt.index_injective h).symm]
      exact hs o

/-- The environment is read at most once, an option is loaded or stored only after that, and from then
on every option has the value to which it has been set last, or that of the environment. -/
theorem options_current [DecidableEq Tid]
    {c : Config (OnceAct OptionAct Unit) Tid OptionOp OptionOp.Res (OnceMem Unit OptionMem)}
    (h : (onceSystem (optionUsers Tid env)).Reachable (· = .init .init) System.anyMove c) :
    c.mem.started ≤ 1 ∧
    (∀ t o (β : Type) (e : OptionAct β) (k : β → Prog (OnceAct OptionAct Unit) (OptionOp.Res o)),
      c.thread t = some ⟨o, .act (.use e) k⟩ → c.mem.state = .ready) ∧
    (c.mem.state = .ready → ∀ o : Opt, c.mem.rest.values o.index = c.mem.rest.current env o) := by
  have hbody : ∀ o v, ((optionUsers Tid env).body o v).Every
      fun {_} e => ∀ i v k, e ≠ OptionAct.seed i v k := by
    intro o v
    cases o with
    | get o => exact ⟨by rintro i v k ⟨⟩, fun _ => trivial⟩
    | set o v => exact ⟨by rintro i v k ⟨⟩, fun _ => trivial⟩
  obtain ⟨claimer, hrun⟩ := OnceRun.reachable hbody h
  refine ⟨hrun.started_le, fun t o β e k ht => hrun.ready_of_reads ht trivial, fun hready => ?_⟩
  apply hrun.keeps (J := fun s => ∀ o : Opt, s.values o.index = s.current env o) _ _ hready
  · intro t o v s hr
    obtain ⟨hsets, hseeded⟩ := seedAll_ends.result hr
    intro o'
    rw [hseeded o', OptionMem.current, hsets]
    rfl
  · exact fun s s' hs hstep => current_kept hs hstep

/-- A first call that sets an option, in an empty environment. -/
def firstSet : List (Move ℕ OptionOp) := Move.call 0 (.set .purgeDelay 5) 13 0

/-- The option has the value to which it has been set. -/
theorem options_current_first :
    ∃ c : Config (OnceAct OptionAct Unit) ℕ OptionOp OptionOp.Res (OnceMem Unit OptionMem),
      c.mem.rest.values 4 = 5 ∧
        ∀ o : Opt, c.mem.rest.values o.index = c.mem.rest.current (fun _ => none) o := by
  have hrun : ((onceSystem (optionUsers ℕ fun _ => none)).run firstSet
      ⟨.init .init, fun _ => none⟩).any (fun c => c.mem.state = .ready &&
        c.mem.rest.values 4 = 5) = true := by
    decide +kernel
  obtain ⟨c, hc, htest⟩ := System.exists_run hrun
  have hreach : (onceSystem (optionUsers ℕ fun _ => none)).Reachable (· = .init .init)
      System.anyMove c := System.reachable_of_run (by rfl) hc
  rw [Bool.and_eq_true, decide_eq_true_iff, decide_eq_true_iff] at htest
  exact ⟨c, htest.2, (options_current hreach).2.2 htest.1⟩

/-- The cell of the options is ready after the first call. -/
theorem initialized_once_first :
    ∃ c : Config (OnceAct OptionAct Unit) ℕ OptionOp OptionOp.Res (OnceMem Unit OptionMem),
      c.mem.state = .ready ∧ c.mem.started ≤ 1 := by
  have hrun : ((onceSystem (optionUsers ℕ fun _ => none)).run firstSet
      ⟨.init .init, fun _ => none⟩).any (fun c => c.mem.state = .ready) = true := by
    decide +kernel
  obtain ⟨c, hc, htest⟩ := System.exists_run hrun
  have hreach : (onceSystem (optionUsers ℕ fun _ => none)).Reachable (· = .init .init)
      System.anyMove c := System.reachable_of_run (by rfl) hc
  have hbody : ∀ o v, ((optionUsers ℕ fun _ => none).body o v).Every fun {_} _ => True := by
    intro o v
    cases o with
    | get o => exact ⟨trivial, fun _ => trivial⟩
    | set o v => exact ⟨trivial, fun _ => trivial⟩
  exact ⟨c, by simpa using htest, (initialized_once hbody hreach).1⟩

end Options

end MimallocRs
