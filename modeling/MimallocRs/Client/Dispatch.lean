import MimallocRs.Client.Zeroed
import MimallocRs.Foundations.Interleave.Serial

/-!
# The dispatch of free

`free` compares the id of the calling thread with the owner id of the page, whose word also carries
the flag of interior pointers. `free_dispatch` says that this finds the block of every pointer that
has been handed out, in every state of the page, and puts that block, and no other, in front of
`local_free` if the page carries the caller's id, and of the cross-thread list otherwise; and that
the flag of interior pointers, once set, stays.
-/

namespace MimallocRs

open Interleave

variable {ar : Area} {t : ℕ} {β : Type} {m m' : ClientMem} {fr lo : List Blk}

/-! ## What a step does to the block being freed -/

/-- What a step of thread `t` does to the blocks that are outstanding: they stay so, or the one that
`t` is freeing is put in front of `local_free`, by the owner of the page, or of the cross-thread
list. -/
def FreeStep (t : ℕ) (m m' : ClientMem) : Prop :=
  (m'.shared.freeing = m.shared.freeing ∧
    ∀ b, m.shared.Outstanding b → m'.shared.Outstanding b) ∨
  ∃ b, m.shared.freeing t = some b ∧
    m'.shared.freeing = Function.update m.shared.freeing t none ∧
    (∀ c, m'.shared.Outstanding c ↔ m.shared.Outstanding c ∧ c ≠ b) ∧
    ((m.ownerId = currentTid t ∧ m.shared.holder = some t ∧
        m'.shared.page.localFree = some b ∧
        m'.shared.page.next b = m.shared.page.localFree) ∨
      (m'.shared.queue = b :: m.shared.queue ∧ m'.shared.page.xthreadFree.block = some b ∧
        m'.shared.page.next b = m.shared.page.xthreadFree.block))

theorem moveOwner_outstanding (s : Shared ℕ) (o o' : Bool) :
    (s.moveOwner t o o').freeing = s.freeing ∧ (s.moveOwner t o o').live = s.live := by
  cases o <;> cases o' <;> exact ⟨rfl, rfl⟩

section Step

variable {e : PageAct β} {choice : ℕ} {r : β} {s' : Shared ℕ} {bytes : ℕ → BitVec 8}

/-- A step that leaves the outstanding blocks as they are. -/
theorem FreeStep.of_same (hfreeing : s'.freeing = m.shared.freeing)
    (hlive : ∀ b, b ∈ m.shared.live → b ∈ s'.live) :
    FreeStep t m { m with shared := s', bytes := bytes } := by
  refine Or.inl ⟨hfreeing, fun b hb => hb.imp (hlive b) ?_⟩
  rintro ⟨u, hu⟩
  exact ⟨u, hfreeing ▸ hu⟩

/-- A compare-exchange of the cross-thread list that succeeds. -/
theorem FreeStep.of_exchange {weak : Bool} {w n : Tf} (hp : Partition m.shared fr lo)
    (hw : m.shared.page.xthreadFree = w) (ha : pageAsserts t (.cas weak w n) m.shared) :
    FreeStep t m { m with shared := m.shared.exchange t w n, bytes := bytes } := by
  obtain ⟨hblock, -⟩ := ha hw
  unfold Shared.exchange
  obtain ⟨hfreeing, hlive⟩ := moveOwner_outstanding (t := t)
    ((m.shared.setWord n).moveBlock t w.block n.block) w.owned n.owned
  obtain ⟨hpage, hqueue, -⟩ :=
    ((m.shared.setWord n).moveBlock t w.block n.block).moveOwner_kept t w.owned n.owned
  by_cases heq : n.block = w.block
  · have hmove : (m.shared.setWord n).moveBlock t w.block n.block = m.shared.setWord n := by
      simp [Shared.moveBlock, heq]
    rw [hmove] at hfreeing hlive ⊢
    exact FreeStep.of_same hfreeing fun b hb => hlive.symm ▸ hb
  · rcases hblock with hblock | ⟨b, hb, hbf, hlink⟩ | ⟨hnone, -, -⟩
    · exact absurd hblock heq
    · have hmove : (m.shared.setWord n).moveBlock t w.block n.block =
          (m.shared.setWord n).publish t b := by
        rw [hb] at heq ⊢
        simp [Shared.moveBlock, heq]
      rw [hmove] at hfreeing hlive hpage hqueue ⊢
      refine Or.inr ⟨b, hbf, hfreeing,
        hp.outstanding_freed hbf _ hlive hfreeing, Or.inr ⟨hqueue, ?_, ?_⟩⟩
      · exact (congrArg (·.xthreadFree.block) hpage).trans hb
      · rw [hw]
        exact (congrArg (·.next b) hpage).trans hlink
    · have hmove : (m.shared.setWord n).moveBlock t w.block n.block =
          (m.shared.setWord n).capture := by
        rw [hnone] at heq ⊢
        simp [Shared.moveBlock, heq]
      rw [hmove] at hfreeing hlive ⊢
      exact FreeStep.of_same hfreeing fun b hb => hlive.symm ▸ hb

/-- What the events of the page do to the blocks that are outstanding. -/
theorem FreeStep.of_page (hp : Partition m.shared fr lo) (ha : pageAsserts t e m.shared)
    (hr : e.Respects t m) (hex : m.shared.exec t e choice = some (r, s')) :
    FreeStep t m { m with shared := s', bytes := bytes } := by
  cases e
  case cas weak w n =>
    rcases PageSafe.exec_cas hex with ⟨-, hw, -, rfl⟩ | ⟨-, -, rfl⟩ | ⟨-, -, rfl⟩
    · exact FreeStep.of_exchange hp hw ha
    · exact FreeStep.of_same rfl fun _ hb => hb
    · exact FreeStep.of_same rfl fun _ hb => hb
  case freeLocal b =>
    cases hex
    refine Or.inr ⟨b, ha.2, rfl,
      hp.outstanding_freed ha.2 _ (by rfl) (by rfl), Or.inl ⟨hr, ha.1, rfl, ?_⟩⟩
    exact Function.update_self _ _ _
  case pop b =>
    cases hex
    exact FreeStep.of_same rfl fun _ hc => List.mem_cons_of_mem _ hc
  case casId old new =>
    simp only [Shared.exec] at hex
    split at hex <;> cases hex <;> exact FreeStep.of_same rfl fun _ hb => hb
  all_goals
    cases hex
    exact FreeStep.of_same rfl fun _ hb => hb

/-- The events of the page keep the flag of interior pointers. -/
theorem HasInterior.of_page (hr : e.Respects t m)
    (hex : m.shared.exec t e choice = some (r, s')) (hf : m.HasInterior) :
    ClientMem.HasInterior { m with shared := s', bytes := bytes } := by
  have keep : s'.page.xthreadId = m.shared.page.xthreadId →
      ClientMem.HasInterior { m with shared := s', bytes := bytes } := fun heq => by
    unfold ClientMem.HasInterior at hf ⊢
    rwa [heq]
  cases e
  case cas weak w n =>
    rcases PageSafe.exec_cas hex with ⟨-, -, -, rfl⟩ | ⟨-, -, rfl⟩ | ⟨-, -, rfl⟩
    · obtain ⟨hpage, -⟩ :=
        ((m.shared.setWord n).moveBlock t w.block n.block).moveOwner_kept t w.owned n.owned
      obtain ⟨hpage', -⟩ := (m.shared.setWord n).moveBlock_kept t w.block n.block
      exact keep (congrArg (·.xthreadId) (hpage.trans hpage'))
    · exact keep rfl
    · exact keep rfl
  case casId old new =>
    simp only [Shared.exec] at hex
    split at hex
    · next hold =>
      cases hex
      have hr : new.testBit 1 = old.testBit 1 := hr
      have hf : m.shared.page.xthreadId.testBit 1 = true := hf
      exact hr.trans (hold.1 ▸ hf)
    · cases hex
      exact keep rfl
  case adoptLocal =>
    cases hex
    exact keep Lists.adoptLocal_sameFields.xthreadId
  case extendFree =>
    cases hex
    exact keep Lists.extendFree_sameFields.xthreadId
  case collectBehind =>
    cases hex
    exact keep Lists.collectBehind_sameFields.xthreadId
  all_goals
    cases hex
    exact keep rfl

end Step

/-! ## Runs -/

section Runs

variable {c c' : Config ClientAct ℕ ClientOp ClientOp.Res ClientMem}

/-- What a step of a run does. -/
theorem client_step (h : (clientSystem ar).Reachable (ClientMem.Init ar) System.anyMove c)
    {choice : ℕ} (hm : (clientSystem ar).next (.step t choice) c = some c') :
    FreeStep t c.mem c'.mem ∧ (c.mem.HasInterior → c'.mem.HasInterior) := by
  obtain ⟨o, p, s, p', hp, hs, rfl⟩ := System.next_step hm
  have same : ∀ m' : ClientMem, m'.shared = c.mem.shared →
      FreeStep t c.mem m' ∧ (c.mem.HasInterior → m'.HasInterior) := by
    intro m' hshared
    unfold FreeStep ClientMem.HasInterior
    rw [hshared]
    exact ⟨Or.inl ⟨rfl, fun _ hb => hb⟩, id⟩
  cases p with
  | ret a => cases hs
  | loop body b k =>
    cases hs
    exact same _ rfl
  | act e k =>
    obtain ⟨⟨x, m'⟩, hx, he⟩ := Option.map_eq_some_iff.mp hs
    cases he
    have ha := clientSystem_asserts h hp hx
    have hx : c.mem.exec ar t e choice = some (x, m') := hx
    cases e with
    | page e =>
      obtain ⟨γ, hinv, -⟩ := clientSystem_reachable h
      obtain ⟨fr, lo, hpart⟩ := hinv.1.partition
      obtain ⟨⟨y, s'⟩, hy, heq⟩ := Option.map_eq_some_iff.mp hx
      cases heq
      exact ⟨FreeStep.of_page hpart ha.1 ha.2 hy, HasInterior.of_page ha.2 hy⟩
    | setHasInterior k' =>
      cases hx
      refine ⟨Or.inl ⟨rfl, fun _ hb => hb⟩, fun hf => ?_⟩
      show (c.mem.shared.page.xthreadId ||| miPageHasInteriorPointers).testBit 1 = true
      rw [Nat.testBit_or, show c.mem.shared.page.xthreadId.testBit 1 = true from hf, Bool.true_or]
    | lookup | freeIsZero | writeZero | keeps | offGrid =>
      cases hx
      exact same _ rfl

/-- The start of an operation leaves the page as it is, and what other threads are freeing. -/
theorem client_start {o : ClientOp} (hm : (clientSystem ar).start t o m = some m') :
    m'.shared.page = m.shared.page ∧ ∀ u, u ≠ t → m'.shared.freeing u = m.shared.freeing u := by
  have howner : ∀ {s' : Shared ℕ}, m.shared.asOwner t = some s' → s' = m.shared := by
    intro s' ho
    unfold Shared.asOwner at ho
    split at ho <;> cases ho
    rfl
  have hrequest : ∀ {size : ℕ}, m.request ar t size = some m' → m'.shared = m.shared := by
    intro size hr
    unfold ClientMem.request at hr
    split at hr
    · obtain ⟨s', ho, rfl⟩ := Option.map_eq_some_iff.mp hr
      exact howner ho
    · cases hr
  have same : m'.shared = m.shared → m'.shared.page = m.shared.page ∧
      ∀ u, u ≠ t → m'.shared.freeing u = m.shared.freeing u := fun hs => by
    rw [hs]
    exact ⟨rfl, fun _ _ => rfl⟩
  cases o with
  | alloc | allocZeroed => exact same (hrequest hm)
  | allocAligned | allocZeroedAligned =>
    simp only [clientSystem] at hm
    split at hm
    · exact same (hrequest hm)
    · cases hm
  | free p =>
    simp only [clientSystem, ClientMem.take] at hm
    split at hm
    · obtain ⟨s', hs, rfl⟩ := Option.map_eq_some_iff.mp hm
      unfold Shared.take at hs
      split at hs <;> cases hs
      exact ⟨rfl, fun u hu => Function.update_of_ne hu _ _⟩
    · cases hm
  | write =>
    simp only [clientSystem, ClientMem.userWrite] at hm
    split at hm <;> cases hm
    exact same rfl
  | isFull | collect | collectRetired | exit =>
    obtain ⟨s', ho, rfl⟩ := Option.map_eq_some_iff.mp hm
    exact same (howner ho)
  | reclaim =>
    simp only [clientSystem] at hm
    split at hm <;> cases hm
    exact same rfl

/-- The return of an operation leaves the page as it is, and what the threads are freeing. -/
theorem client_finish {o : ClientOp} {r : o.Res} :
    ((clientSystem ar).finish t o r m).shared.page = m.shared.page ∧
    ((clientSystem ar).finish t o r m).shared.freeing = m.shared.freeing := by
  cases o with
  | alloc | allocAligned | allocZeroed | allocZeroedAligned | reclaim =>
    cases r <;> exact ⟨rfl, rfl⟩
  | free | write | isFull | collect | collectRetired | exit => exact ⟨rfl, rfl⟩

/-- A running `free` frees the block into which its pointer points, until it is on a list. -/
theorem client_freeing (h : (clientSystem ar).Reachable (ClientMem.Init ar) System.anyMove c)
    {p : ℕ} {q : Prog ClientAct Unit} (ht : c.thread t = some ⟨.free p, q⟩) :
    c.mem.shared.freeing t = none ∨
      c.mem.shared.freeing t = some (ar.blockOf p) ∧ ar.Inside p (ar.blockOf p) := by
  have hrun := h.running (R := fun t o m => ∀ p, o = .free p → m.shared.freeing t = none ∨
    m.shared.freeing t = some (ar.blockOf p) ∧ ar.Inside p (ar.blockOf p)) ?_ ?_ t _ _ ht
  · exact hrun p rfl
  · rintro t o c m' hc hs p rfl
    simp only [clientSystem, ClientMem.take] at hs
    split at hs
    · next hp =>
      obtain ⟨γ, hinv, -⟩ := clientSystem_reachable hc
      obtain ⟨s', hs, rfl⟩ := Option.map_eq_some_iff.mp hs
      unfold Shared.take at hs
      split at hs <;> cases hs
      exact Or.inr ⟨Function.update_self _ _ _, (hinv.2.ptr _ p hp).2.1⟩
    · cases hs
  · rintro t o c c' m q q' hc hm hq hq' hR p rfl
    have hR := hR p rfl
    cases m with
    | start u o' =>
      obtain ⟨hnone, s, hs, rfl⟩ := System.next_start hm
      have hu : t ≠ u := by
        rintro rfl
        rw [hq] at hnone
        cases hnone
      rwa [(client_start hs).2 t hu]
    | step u choice =>
      rcases (client_step hc hm).1 with ⟨hfreeing, -⟩ | ⟨b, -, hfreeing, -⟩
      · rwa [hfreeing]
      · rw [hfreeing]
        by_cases hu : t = u
        · subst hu
          exact Or.inl (Function.update_self _ _ _)
        · rwa [Function.update_of_ne hu]
    | finish u =>
      obtain ⟨o', r, -, rfl⟩ := System.next_finish hm
      rwa [show ((clientSystem ar).finish u o' r c.mem).shared.freeing = _ from client_finish.2]

/-- **Free dispatch recovers the block.** In every reachable configuration, no address off the grid
of blocks has been used as a block; a pointer that has been handed out points into its block, and
unless it is the start of the block, the flag of interior pointers is set, which no move clears; a
page carries the id of a thread only while that thread holds it. A `free` starts by taking the block
into which its pointer points, and while it runs, it is that block which its thread is freeing, or
none any more; each of its steps leaves the outstanding blocks as they are, or puts exactly that
block on a list, on `local_free` only as the owner; and when it returns, it has done so. -/
theorem free_dispatch
    (h : (clientSystem ar).Reachable (ClientMem.Init ar) System.anyMove c) :
    c.mem.fault = false ∧
    (∀ b p, c.mem.ptr b = some p →
      ar.Inside p b ∧ (p ≠ ar.blockStart b → c.mem.HasInterior)) ∧
    (∀ m c', (clientSystem ar).next m c = some c' → c.mem.HasInterior → c'.mem.HasInterior) ∧
    (∀ t, c.mem.ownerId = currentTid t → c.mem.shared.holder = some t) ∧
    (∀ t p c', (clientSystem ar).next (.start t (.free p)) c = some c' →
      ar.Inside p (ar.blockOf p) ∧ c.mem.ptr (ar.blockOf p) = some p ∧
        c'.mem.shared.freeing t = some (ar.blockOf p)) ∧
    (∀ t p q, c.thread t = some ⟨.free p, q⟩ → c.mem.shared.freeing t = none ∨
      c.mem.shared.freeing t = some (ar.blockOf p) ∧ ar.Inside p (ar.blockOf p)) ∧
    (∀ t choice c', (clientSystem ar).next (.step t choice) c = some c' →
      FreeStep t c.mem c'.mem) ∧
    ∀ t p r, c.thread t = some ⟨.free p, .ret r⟩ → c.mem.shared.freeing t = none := by
  obtain ⟨γ, ⟨hi, hk⟩, hth⟩ := clientSystem_reachable h
  refine ⟨hk.fault, fun b p hp => (hk.ptr b p hp).2, fun m c' hm hf => ?_,
    fun t ht => (hk.stamp t ht).1, fun t p c' hm => ?_, fun t p q ht => client_freeing h ht,
    fun t choice c' hm => (client_step h hm).1, fun t p r ht => ?_⟩
  · cases m with
    | start t o =>
      obtain ⟨-, s, hs, rfl⟩ := System.next_start hm
      unfold ClientMem.HasInterior at hf ⊢
      rwa [(client_start hs).1]
    | step t choice => exact (client_step h hm).2 hf
    | finish t =>
      obtain ⟨o, r, -, rfl⟩ := System.next_finish hm
      unfold ClientMem.HasInterior at hf ⊢
      rwa [show ((clientSystem ar).finish t o r c.mem).shared.page = _ from client_finish.1]
  · obtain ⟨-, s, hs, rfl⟩ := System.next_start hm
    simp only [clientSystem, ClientMem.take] at hs
    split at hs
    · next hp =>
      obtain ⟨s', hs, rfl⟩ := Option.map_eq_some_iff.mp hs
      unfold Shared.take at hs
      split at hs <;> cases hs
      exact ⟨(hk.ptr _ p hp).2.1, hp, Function.update_self _ _ _⟩
    · cases hs
  · have hrun := hth t
    rw [ht] at hrun
    have hidle : clientPost ar t (.free p) r (γ t) := Safe.of_ret hrun
    exact (hi.view t).freeing.trans hidle.freeing

/-- Thread 1 has freed the block of the page, and the block is in the cross-thread list. -/
def freedInterior (c : Config ClientAct ℕ ClientOp ClientOp.Res ClientMem) : Bool :=
  match c.thread 1 with
  | some ⟨.free p, .ret _⟩ => p ≠ hugeArea.blockStart 0 ∧ c.mem.shared.queue = [0]
  | _ => false

/-- Thread 0 allocates an aligned block from a huge page, whose pointer lies behind the start of the
page's block, and thread 1 frees it. -/
theorem free_dispatch_interior :
    ∃ c p, (clientSystem hugeArea).Reachable (ClientMem.Init hugeArea) System.anyMove c ∧
      c.thread 1 = some ⟨.free p, .ret ()⟩ ∧ p ≠ hugeArea.blockStart 0 ∧
      c.mem.shared.queue = [0] ∧ c.mem.fault = false ∧ c.mem.shared.freeing 1 = none := by
  have hrun : (onHugePage [.start 0 (.allocAligned 4951441 1048576), .step 0 0, .step 0 0,
      .finish 0, .start 1 (.free 2097152), .step 1 0, .step 1 0, .step 1 0, .step 1 0, .step 1 0,
      .step 1 0]).any freedInterior = true := by
    decide +kernel
  obtain ⟨c, hc, htest⟩ := System.exists_run hrun
  have hreach := onHugePage_reachable hc
  obtain ⟨hfault, -, -, -, -, -, -, hfreeing⟩ := free_dispatch hreach
  unfold freedInterior at htest
  split at htest
  · next p _ ht =>
    obtain ⟨hp, hq⟩ := of_decide_eq_true htest
    exact ⟨c, p, hreach, ht, hp, hq, hfault, hfreeing 1 p () ht⟩
  · cases htest

end Runs

end MimallocRs
