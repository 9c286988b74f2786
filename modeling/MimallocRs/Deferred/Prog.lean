import MimallocRs.Bits
import MimallocRs.Foundations.Interleave.System
import Mathlib.Data.Finset.Insert

/-!
# The deferred-free callback

`register_deferred_free` and `run_deferred_free` of `init.rs`. The callback and its argument are in
two cells that all threads share; the recursion flag and the heartbeat are a thread's own, and no
other step of the thread comes between what it does with them in one go. A callback goes on as it
likes: it triggers collections and registers callbacks until it returns. A nested call is the same
program, and `depth` bounds how deep the calls may nest.
-/

namespace MimallocRs

open Interleave Prog

/-- What a callback may call. -/
inductive CallbackCall
  | collect (force : Bool)
  | register (fn arg : ℕ)
  deriving DecidableEq

/-- The events of a callback's registration and of its invocation. -/
inductive DeferredAct (β : Type) : Type
  /-- `DEFERRED_ARG.store`, in a call that registers `fn`. -/
  | storeArg (fn arg : ℕ) (answer : Unit → β)
  /-- `DEFERRED_FN.store`. -/
  | storeFn (fn : ℕ) (answer : Unit → β)
  /-- `DEFERRED_FN.load`. -/
  | loadFn (answer : ℕ → β)
  /-- Unless the recursion flag is set, set it and take a heartbeat. -/
  | claim (answer : Option ℕ → β)
  /-- `DEFERRED_ARG.load`. -/
  | loadArg (answer : ℕ → β)
  /-- The callback is invoked. -/
  | enter (fn : ℕ) (force : Bool) (hb arg : ℕ) (answer : Unit → β)
  /-- What the callback calls next, if it does not return. -/
  | callback (answer : Option CallbackCall → β)
  /-- The callback has returned. -/
  | leave (answer : Unit → β)
  /-- `Clear::drop`. -/
  | clear (answer : Unit → β)
  /-- The calls nest too deeply. -/
  | overflow (answer : Unit → β)

/-- `register_deferred_free`; 0 is no callback. -/
def registerDeferredFree (fn arg : ℕ) : Prog DeferredAct Unit := do
  perform (.storeArg fn arg id)
  perform (.storeFn fn id)

/-- `run_deferred_free`. -/
def runDeferredFree : ℕ → Bool → Prog DeferredAct Unit
  | 0, _ => perform (.overflow id)
  | depth + 1, force => do
    let fn ← perform (.loadFn id)
    if fn = 0 then return ()
    else
      match ← perform (.claim id) with
      | none => return ()
      | some hb =>
        let arg ← perform (.loadArg id)
        perform (.enter fn force hb arg id)
        iterate (fun _ => do
          match ← perform (.callback id) with
          | none => return .inr ()
          | some (.collect force) =>
            runDeferredFree depth force
            return .inl ()
          | some (.register fn arg) =>
            registerDeferredFree fn arg
            return .inl ()) ()
        perform (.leave id)
        perform (.clear id)

/-! ## The state -/

/-- An invocation of a callback. -/
structure Invocation where
  thread : ℕ
  fn : ℕ
  force : Bool
  heartbeat : ℕ
  arg : ℕ
  /-- The calls of `register_deferred_free` that have registered the function and the argument. -/
  fnCall : ℕ
  argCall : ℕ
  deriving DecidableEq

/-- The two cells, and the state of each thread. -/
structure DeferredMem where
  deferredFn : ℕ
  deferredArg : ℕ
  recurse : ℕ → Bool
  heartbeat : ℕ → ℕ
  /-- History: what the calls of `register_deferred_free` have registered. -/
  calls : List (ℕ × ℕ)
  /-- History: the calls that have stored what is in the two cells. -/
  fnCall : ℕ
  argCall : ℕ
  /-- History: the threads that are between the two stores of a call, and their calls. -/
  storing : Finset ℕ
  call : ℕ → ℕ
  /-- History: the threads that have loaded a function and are about to load its argument. -/
  loading : Finset ℕ
  /-- History: the calls that have stored what a thread has loaded. -/
  loadedFn : ℕ → ℕ
  loadedArg : ℕ → ℕ
  /-- History: the callbacks that have not returned. -/
  active : ℕ → ℕ
  /-- History: the invocations, last first. -/
  invoked : List Invocation
  /-- History: a call has nested too deeply. -/
  overflowed : Bool

namespace DeferredMem

/-- Before the first call. -/
def init : DeferredMem where
  deferredFn := 0
  deferredArg := 0
  recurse := fun _ => false
  heartbeat := fun _ => 0
  calls := []
  fnCall := 0
  argCall := 0
  storing := ∅
  call := fun _ => 0
  loading := ∅
  loadedFn := fun _ => 0
  loadedArg := fun _ => 0
  active := fun _ => 0
  invoked := []
  overflowed := false

/-- What a callback does under a choice: it returns, or calls. -/
def nextCall (choice : ℕ) : Option CallbackCall :=
  if choice = 0 then none
  else if choice.testBit 0 then some (.collect (choice.testBit 1))
  else some (.register (choice / 2).unpair.1 (choice / 2).unpair.2)

/-- The events, by the thread `t`. -/
def exec {β : Type} (t : ℕ) (e : DeferredAct β) (s : DeferredMem) (choice : ℕ) :
    Option (β × DeferredMem) :=
  match e with
  | .storeArg fn arg k => some (k (), { s with
      deferredArg := arg
      argCall := s.calls.length
      calls := s.calls ++ [(fn, arg)]
      storing := insert t s.storing
      call := Function.update s.call t s.calls.length })
  | .storeFn fn k => some (k (), { s with
      deferredFn := fn
      fnCall := s.call t
      storing := s.storing.erase t })
  | .loadFn k =>
    if s.deferredFn = 0 ∨ s.recurse t = true then some (k s.deferredFn, s)
    else some (k s.deferredFn, { s with
      loading := insert t s.loading
      loadedFn := Function.update s.loadedFn t s.fnCall })
  | .claim k =>
    if s.recurse t then some (k none, s)
    else some (k (some (s.heartbeat t)), { s with
      recurse := Function.update s.recurse t true
      heartbeat := Function.update s.heartbeat t ((s.heartbeat t + 1) % 2 ^ 64) })
  | .loadArg k => some (k s.deferredArg, { s with
      loading := s.loading.erase t
      loadedArg := Function.update s.loadedArg t s.argCall })
  | .enter fn force hb arg k => some (k (), { s with
      active := Function.update s.active t (s.active t + 1)
      invoked := ⟨t, fn, force, hb, arg, s.loadedFn t, s.loadedArg t⟩ :: s.invoked })
  | .callback k => some (k (nextCall choice), s)
  | .leave k => some (k (), { s with active := Function.update s.active t (s.active t - 1) })
  | .clear k => some (k (), { s with recurse := Function.update s.recurse t false })
  | .overflow k => some (k (), { s with overflowed := true })

end DeferredMem

/-- The calls. -/
inductive DeferredOp
  | register (fn arg : ℕ)
  | run (depth : ℕ) (force : Bool)
  deriving DecidableEq

/-- Any number of threads that register callbacks and run the callback that is registered. A call
may nest twice at least. -/
def deferredSystem : System DeferredAct ℕ DeferredOp (fun _ => Unit) DeferredMem where
  exec t e s choice := s.exec t e choice
  prog
    | _, .register fn arg => registerDeferredFree fn arg
    | _, .run depth force => runDeferredFree depth force
  start
    | _, .register .., s => some s
    | _, .run depth _, s => if 2 ≤ depth then some s else none
  finish _ _ _ s := s

end MimallocRs
