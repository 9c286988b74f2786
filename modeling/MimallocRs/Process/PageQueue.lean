import MimallocRs.Process.Queues

/-!
# Runs of the page queues

`PageQueue::push_front` and `PageQueue::remove`, called one after the other on any of the queues. Pages
are pushed while they are in no queue and removed while they are in the queue. The queues then hold
what has been pushed and not yet removed, last pushed first (`QueueOp.run_linked`).
-/

namespace MimallocRs

open Interleave

variable {w w' : Process} {q : Queues} {p : PagePtr} {th : TheapPtr} {b : ℕ}

/-- The calls on the queues. -/
inductive QueueOp
  | pushFront (th : TheapPtr) (b : ℕ) (p : PagePtr)
  | remove (th : TheapPtr) (b : ℕ) (p : PagePtr)

namespace QueueOp

/-- What a call does to the links and to the queues. -/
def exec : QueueOp → Process → Process
  | .pushFront th b p => Process.pushFront th b p
  | .remove th b p => Process.remove th b p

/-- What a call does to the contents of the queues. -/
def contents : QueueOp → Queues → Queues
  | .pushFront th b p, q => pushTo q th b p
  | .remove th b p, q => eraseFrom q th b p

/-- What the callers of `push_front` and `remove` promise. -/
def Allowed (q : Queues) : QueueOp → Prop
  | .pushFront _ _ p => ∀ th b, p ∉ q th b
  | .remove th b p => p ∈ q th b

/-- The calls keep to the promises, one after the other. -/
def AllAllowed : Queues → List QueueOp → Prop
  | _, [] => True
  | q, op :: ops => op.Allowed q ∧ AllAllowed (op.contents q) ops

/-- The state after some calls. -/
def run (ops : List QueueOp) (w : Process) : Process := ops.foldl (fun w op => op.exec w) w

/-- What the queues hold after some calls. -/
def held (ops : List QueueOp) (q : Queues) : Queues := ops.foldl (fun q op => op.contents q) q

/-- The page has no links. -/
def Unlinked (w : Process) (p : PagePtr) : Prop := w.next p = none ∧ w.prev p = none

/-- A call keeps the queues linked. -/
theorem exec_linked (h : Linked w q) {op : QueueOp} (hop : op.Allowed q) :
    Linked (op.exec w) (op.contents q) := by
  cases op with
  | pushFront th b p => exact h.pushFront hop
  | remove th b p => exact h.remove hop

/-- A page that is in no queue keeps its links. -/
theorem exec_outside (h : Linked w q) {op : QueueOp} (hop : op.Allowed q)
    (hp : ∀ th b, p ∉ op.contents q th b) (hq : ∀ th b, p ∉ q th b) :
    (op.exec w).next p = w.next p ∧ (op.exec w).prev p = w.prev p := by
  cases op with
  | pushFront th b p' =>
    have hne : p ≠ p' := by
      rintro rfl
      apply hp th b
      show p ∈ pushTo q th b p th b
      rw [pushTo_self]
      exact List.mem_cons_self
    exact (h.queues th b).dlist.push_other hne (hq th b)
  | remove th b p' =>
    obtain ⟨l, m, hlm⟩ := List.append_of_mem (show p' ∈ q th b from hop)
    have hdl := (h.queues th b).dlist
    rw [hlm] at hdl
    apply hdl.remove_other
    rw [← hlm]
    exact hq th b

/-- A page that is removed has no links. -/
theorem remove_unlinked : Unlinked (w.remove th b p) p :=
  ⟨Function.update_self .., Function.update_self ..⟩

/-- **One call.** Pages that had no links while they were in no queue still have none, and neither
has the page that the call removes. -/
theorem exec_unlinked (h : Linked w q) {op : QueueOp} (hop : op.Allowed q)
    (hold : (∃ th b, op = .remove th b p) ∨ ((∀ th b, p ∉ q th b) → Unlinked w p))
    (hp : ∀ th b, p ∉ op.contents q th b) : Unlinked (op.exec w) p := by
  by_cases hrem : ∃ th b, op = .remove th b p
  · obtain ⟨th, b, rfl⟩ := hrem
    exact remove_unlinked
  · have hq : ∀ th b, p ∉ q th b := by
      intro th b hin
      cases op with
      | pushFront th' b' p' =>
        exact hp th b (mem_pushTo.mpr (Or.inr hin))
      | remove th' b' p' =>
        have hne : p ≠ p' := by
          rintro rfl
          exact hrem ⟨th', b', rfl⟩
        apply hp th b
        show p ∈ eraseFrom q th' b' p' th b
        by_cases heq : th = th' ∧ b = b'
        · obtain ⟨rfl, rfl⟩ := heq
          rw [eraseFrom_self]
          exact (List.mem_erase_of_ne hne).mpr hin
        · rwa [eraseFrom_of_ne heq]
    obtain ⟨hnext, hprev⟩ := exec_outside h hop hp hq
    obtain ⟨hn, hpv⟩ := hold.resolve_left hrem hq
    exact ⟨hnext.trans hn, hprev.trans hpv⟩

/-- **A run of calls** keeps the queues linked, and the pages that it has removed, and not pushed
again, have no links. -/
theorem run_linked {ops : List QueueOp} (h : Linked w q) (hops : AllAllowed q ops) :
    Linked (run ops w) (held ops q) ∧ ∀ p, (∃ th b, .remove th b p ∈ ops) ∨
      ((∀ th b, p ∉ q th b) → Unlinked w p) → (∀ th b, p ∉ held ops q th b) →
        Unlinked (run ops w) p := by
  induction ops generalizing w q with
  | nil =>
    refine ⟨h, fun p hold hp => ?_⟩
    rcases hold with ⟨th, b, hin⟩ | hold
    · cases hin
    · exact hold hp
  | cons op ops ih =>
    obtain ⟨hlinked, hnull⟩ := ih (exec_linked h hops.1) hops.2
    refine ⟨hlinked, fun p hold hp => hnull p ?_ hp⟩
    by_cases hlater : ∃ th b, .remove th b p ∈ ops
    · exact Or.inl hlater
    · apply Or.inr
      apply exec_unlinked h hops.1
      rcases hold with ⟨th, b, hin⟩ | hold
      · rcases List.mem_cons.mp hin with heq | hin
        · exact Or.inl ⟨th, b, heq.symm⟩
        · exact (hlater ⟨th, b, hin⟩).elim
      · exact Or.inr hold

end QueueOp

/-- The queues are empty. -/
def Process.EmptyQueues (w : Process) : Prop :=
  ∀ th b, w.first th b = none ∧ w.last th b = none ∧ w.count th b = 0

theorem Process.EmptyQueues.linked (h : w.EmptyQueues) : Linked w fun _ _ => [] := by
  refine ⟨fun th b => ?_, fun hp _ => by cases hp⟩
  obtain ⟨hfirst, hlast, hcount⟩ := h th b
  exact ⟨⟨hfirst, trivial, List.nodup_nil⟩, hlast, hcount⟩

/-- **The page queues.** After any calls on queues that were empty, the forward walk of a queue visits
what has been pushed to it and not yet removed, last pushed first and each page once, the backward walk
visits the same pages in the opposite order, the count is their number, and the pages that have been
removed have no links. -/
theorem page_queues {ops : List QueueOp} (h : w.EmptyQueues)
    (hops : QueueOp.AllAllowed (fun _ _ => []) ops) :
    (∀ th b,
      Chain (QueueOp.run ops w).next ((QueueOp.run ops w).first th b)
        (QueueOp.held ops (fun _ _ => []) th b) ∧
      Chain (QueueOp.run ops w).prev ((QueueOp.run ops w).last th b)
        (QueueOp.held ops (fun _ _ => []) th b).reverse ∧
      (QueueOp.held ops (fun _ _ => []) th b).Nodup ∧
      (QueueOp.run ops w).count th b = (QueueOp.held ops (fun _ _ => []) th b).length) ∧
    ∀ th b p, .remove th b p ∈ ops → (∀ th' b', p ∉ QueueOp.held ops (fun _ _ => []) th' b') →
      (QueueOp.run ops w).next p = none ∧ (QueueOp.run ops w).prev p = none := by
  obtain ⟨hlinked, hnull⟩ := QueueOp.run_linked h.linked hops
  constructor
  · intro th b
    have hq := hlinked.queues th b
    refine ⟨hq.dlist.forward, ?_, hq.dlist.nodup, hq.count⟩
    rw [hq.last]
    exact hq.dlist.backward
  · intro th b p hin hp
    exact hnull p (Or.inl ⟨th, b, hin⟩) hp

/-- Two pages are pushed, and the one that is now the last is removed. -/
def pushAndRemove : List QueueOp :=
  [.pushFront ⟨0, 0⟩ 4 (.slice 0 1), .pushFront ⟨0, 0⟩ 4 (.slice 0 2), .remove ⟨0, 0⟩ 4 (.slice 0 1)]

theorem page_queues_pushAndRemove :
    Chain (QueueOp.run pushAndRemove (.blank true)).next
      ((QueueOp.run pushAndRemove (.blank true)).first ⟨0, 0⟩ 4) [.slice 0 2] := by
  have hops : QueueOp.AllAllowed (fun _ _ => []) pushAndRemove := by
    refine ⟨fun _ _ => List.not_mem_nil, fun th b hin => ?_, ?_, trivial⟩
    · rcases mem_pushTo.mp hin with ⟨hc, -, -⟩ | hin
      · cases hc
      · cases hin
    · show _ ∈ pushTo _ _ _ _ _ _
      rw [pushTo_self]
      exact List.mem_cons_of_mem _ (by decide)
  have hheld : QueueOp.held pushAndRemove (fun _ _ => []) ⟨0, 0⟩ 4 = [.slice 0 2] := by decide
  rw [← hheld]
  exact ((page_queues (w := .blank true) (fun _ _ => ⟨rfl, rfl, rfl⟩) hops).1 ⟨0, 0⟩ 4).1

end MimallocRs
