import MimallocRs.Page.Alone
import Mathlib.Logic.Encodable.Basic
import Mathlib.Logic.Equiv.List

/-!
# An owned page and the threads that free into it

While a page is owned, other threads can only push their blocks onto its cross-thread list. `Crowd` is
the page as its owner sees it: before each event of the owner any number of their steps take place. A
thread that pushes writes the link of its block, which nobody else looks at, and exchanges the head word
when the link is what the word holds; of the steps of `Page.threadFreePush` these are the ones that
change anything. Weak compare-exchanges of the owner may fail without reason, any finite number of
times.
-/

namespace MimallocRs

open Interleave Prog

/-- A step of a thread that pushes a block: it writes a link, or exchanges the head word. -/
abbrev PushStep := Blk × Option (Option Blk)

/-- An owned page, and what the owner and the other threads do to it. The live blocks are those that
are not on a list: any thread may push them. -/
structure Crowd extends LivePage where
  /-- The page is listed in the abandoned registry of its arena. -/
  registered : Bool
  /-- The slices of the page have been returned to the arena. -/
  released : Bool
  /-- How often a weak compare-exchange may still fail without reason. -/
  spurious : ℕ
  /-- History: the blocks that other threads have pushed, last one first. -/
  pushed : List Blk
  /-- History: how often `try_unown` has failed. -/
  fails : ℕ
  /-- History: the page has been registered while it was. -/
  twice : Bool

namespace Crowd

/-- Another thread takes a step, if it may. -/
def push (s : Crowd) : PushStep → Crowd
  | (b, some n) =>
    if b ∈ s.live then { s with page := { s.page with next := Function.update s.page.next b n } }
    else s
  | (b, none) =>
    if b ∈ s.live ∧ s.page.next b = s.page.xthreadFree.block then
      { s with
        page := { s.page with xthreadFree := ⟨some b, true⟩ }
        live := s.live.erase b
        pushed := b :: s.pushed }
    else s

/-- Other threads take steps. -/
def pushAll (s : Crowd) (steps : List PushStep) : Crowd := steps.foldl push s

/-- An event of the owner. `fails` says whether a weak compare-exchange is to fail without reason. -/
def execOwner {β : Type} (e : PageAct β) (fails : Bool) (s : Crowd) : Option (β × Crowd) :=
  match e with
  | .cas weak e n =>
    if weak ∧ fails ∧ 0 < s.spurious then some (false, { s with spurious := s.spurious - 1 })
    else if s.page.xthreadFree = e then
      some (true, { s with page := { s.page with xthreadFree := n } })
    else some (false, { s with fails := if weak then s.fails else s.fails + 1 })
  | .casId e n =>
    if fails ∧ 0 < s.spurious then
      some (some s.page.xthreadId, { s with spurious := s.spurious - 1 })
    else if s.page.xthreadId = e then some (none, { s with page := { s.page with xthreadId := n } })
    else some (some s.page.xthreadId, s)
  | .register => some ((), { s with registered := true, twice := s.twice || s.registered })
  | .unregister => some ((), { s with registered := false })
  | .release => some ((), { s with released := true })
  | e => (s.toLivePage.exec e).map fun r => (r.1, { s with toLivePage := r.2 })

/-- A strong compare-exchange fails only if the word is another one. -/
theorem execOwner_cas (s : Crowd) (e n : Tf) (fails : Bool) :
    s.execOwner (.cas false e n) fails =
      if s.page.xthreadFree = e then
        some (true, { s with page := { s.page with xthreadFree := n } })
      else some (false, { s with fails := s.fails + 1 }) := by
  simp [execOwner]

/-- An event of the owner, before which others have taken steps. -/
def exec {β : Type} (e : PageAct β) (s : Crowd) (choice : ℕ) : Option (β × Crowd) :=
  match (Encodable.decode choice : Option (Bool × List PushStep)) with
  | some (fails, steps) => (s.pushAll steps).execOwner e fails
  | none => s.execOwner e false

end Crowd

/-- The owner of a page among other threads. -/
def crowdMachine : Machine PageAct Unit Crowd where
  exec _ e s choice := s.exec e choice

/-- Every execution of a page program by the owner comes to an end. -/
abbrev CrowdEnds {α : Type} (p : Prog PageAct α) (s : Crowd) (Q : α → Crowd → Prop) : Prop :=
  Ends crowdMachine () False p s Q

namespace Crowd

/-- From `s` to `s'` other threads have pushed the blocks `l`, and the owner has been at work on the
free lists. -/
structure Goes (s s' : Crowd) (l : List Blk) : Prop where
  pushed : s'.pushed = l ++ s.pushed
  card : s'.live.card + l.length = s.live.card
  owned : s'.page.xthreadFree.owned = true
  spurious : s'.spurious ≤ s.spurious
  reserved : s'.page.reserved = s.page.reserved
  capacity : s'.page.capacity = s.page.capacity
  xthreadId : s'.page.xthreadId = s.page.xthreadId
  registered : s'.registered = s.registered
  released : s'.released = s.released
  fails : s'.fails = s.fails
  twice : s'.twice = s.twice

theorem Goes.refl {s : Crowd} (h : s.page.xthreadFree.owned = true) : Goes s s [] :=
  ⟨rfl, rfl, h, le_rfl, rfl, rfl, rfl, rfl, rfl, rfl, rfl⟩

theorem Goes.trans {s s' s'' : Crowd} {l l' : List Blk} (h : Goes s s' l) (h' : Goes s' s'' l') :
    Goes s s'' (l' ++ l) where
  pushed := by rw [h'.pushed, h.pushed, List.append_assoc]
  card := by
    have hcard := h.card
    have hcard' := h'.card
    rw [List.length_append]
    omega
  owned := h'.owned
  spurious := h'.spurious.trans h.spurious
  reserved := h'.reserved.trans h.reserved
  capacity := h'.capacity.trans h.capacity
  xthreadId := h'.xthreadId.trans h.xthreadId
  registered := h'.registered.trans h.registered
  released := h'.released.trans h.released
  fails := h'.fails.trans h.fails
  twice := h'.twice.trans h.twice

/-- Other threads have pushed the blocks `l`, and the owner has done nothing. -/
structure Pushes (s s' : Crowd) (l : List Blk) : Prop extends Goes s s' l where
  free : s'.page.free = s.page.free
  used : s'.page.used = s.page.used

variable {s s' : Crowd} {captured : Option Blk} {fr lo xs cap l : List Blk}

/-- The free lists of the page, and its live blocks. -/
abbrev Holds (s : Crowd) (captured : Option Blk) (fr lo xs cap : List Blk) : Prop :=
  LivePage.Blocks s.toLivePage captured fr lo xs cap

/-- A step of another thread queues its block, or changes no list. -/
theorem push_holds (h : s.Holds captured fr lo xs cap) (ho : s.page.xthreadFree.owned = true)
    (step : PushStep) : ∃ l, Pushes s (s.push step) l ∧
      (s.push step).Holds captured fr lo (l ++ xs) cap := by
  obtain ⟨b, n⟩ := step
  cases n with
  | some n =>
    by_cases hb : b ∈ s.live
    · have hpush : s.push (b, some n) =
          { s with page := { s.page with next := Function.update s.page.next b n } } := if_pos hb
      rw [hpush]
      exact ⟨[], ⟨⟨rfl, rfl, ho, le_rfl, rfl, rfl, rfl, rfl, rfl, rfl, rfl⟩, rfl, rfl⟩,
        h.lists.setNext (h.notMem hb) n, h.live⟩
    · have hpush : s.push (b, some n) = s := if_neg hb
      rw [hpush]
      exact ⟨[], ⟨.refl ho, rfl, rfl⟩, h⟩
  | none =>
    by_cases hb : b ∈ s.live ∧ s.page.next b = s.page.xthreadFree.block
    · have hpush : s.push (b, none) = { s with
          page := { s.page with xthreadFree := ⟨some b, true⟩ }
          live := s.live.erase b
          pushed := b :: s.pushed } := if_pos hb
      rw [hpush]
      obtain ⟨hb, hlink⟩ := hb
      refine ⟨[b], ⟨⟨rfl, Finset.card_erase_add_one hb, rfl, le_rfl, rfl, rfl, rfl, rfl, rfl, rfl,
        rfl⟩, rfl, rfl⟩, h.lists.push ((h.live b).mp hb).1 (h.notMem hb) hlink true, fun c => ?_⟩
      have hlive := h.live c
      show c ∈ s.live.erase b ↔ c < s.page.capacity ∧ _
      rw [Finset.mem_erase, hlive]
      simp only [List.singleton_append, List.mem_append, List.mem_cons, not_or]
      tauto
    · have hpush : s.push (b, none) = s := if_neg hb
      rw [hpush]
      exact ⟨[], ⟨.refl ho, rfl, rfl⟩, h⟩

theorem pushAll_holds (h : s.Holds captured fr lo xs cap) (ho : s.page.xthreadFree.owned = true)
    (steps : List PushStep) : ∃ l, Pushes s (s.pushAll steps) l ∧
      (s.pushAll steps).Holds captured fr lo (l ++ xs) cap := by
  induction steps generalizing s xs with
  | nil => exact ⟨[], ⟨.refl ho, rfl, rfl⟩, h⟩
  | cons step steps ih =>
    obtain ⟨l, hpush, hl⟩ := push_holds h ho step
    obtain ⟨l', hpushes, hl'⟩ := ih hl hpush.owned
    refine ⟨l' ++ l, ⟨hpush.toGoes.trans hpushes.toGoes, hpushes.free.trans hpush.free,
      hpushes.used.trans hpush.used⟩, ?_⟩
    rw [List.append_assoc]
    exact hl'

end Crowd

open Crowd

variable {s : Crowd} {captured : Option Blk} {fr lo xs cap : List Blk} {α β : Type}

/-- **An event of the owner**, after whatever the others have pushed. -/
theorem CrowdEnds.act {e : PageAct β} {k : β → Prog PageAct α} {Q : α → Crowd → Prop}
    (h : s.Holds captured fr lo xs cap) (ho : s.page.xthreadFree.owned = true)
    (hstep : ∀ s₁ l fails, Pushes s s₁ l → s₁.Holds captured fr lo (l ++ xs) cap →
      ∃ b s', s₁.execOwner e fails = some (b, s') ∧ CrowdEnds (k b) s' Q) :
    CrowdEnds (.act e k) s Q := by
  have hexec : ∀ choice, ∃ s₁ l fails, Pushes s s₁ l ∧ s₁.Holds captured fr lo (l ++ xs) cap ∧
      s.exec e choice = s₁.execOwner e fails := by
    intro choice
    unfold Crowd.exec
    split
    · next fails steps _ =>
      obtain ⟨l, hpushes, hl⟩ := pushAll_holds h ho steps
      exact ⟨_, l, fails, hpushes, hl, rfl⟩
    · exact ⟨s, [], false, ⟨.refl ho, rfl, rfl⟩, h, rfl⟩
  apply Ends.act
  · intro choice hnone
    obtain ⟨s₁, l, fails, hpushes, hl, heq⟩ := hexec choice
    obtain ⟨b, s', he, -⟩ := hstep s₁ l fails hpushes hl
    cases (heq.trans he).symm.trans hnone
  · intro choice b' s'' hsome
    obtain ⟨s₁, l, fails, hpushes, hl, heq⟩ := hexec choice
    obtain ⟨b, s', he, hk⟩ := hstep s₁ l fails hpushes hl
    cases (heq.trans he).symm.trans hsome
    exact hk

end MimallocRs
