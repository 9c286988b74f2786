import MimallocRs.Page.Conservation

/-!
# Who holds a page

Ownership of a page is the ownership bit of the head word, and four kinds of compare-exchange
race on that word. `page_ownership_exclusive` says of every run that each change of the bit from
clear to set is reported by exactly one call to its caller, that a caller is told so only while it
holds the page, that `try_unown` succeeds only on an empty queue, and that an exchange of the word
queues one block, or captures the whole queue, or leaves it.
-/

namespace MimallocRs

open Interleave

variable {Tid : Type} [DecidableEq Tid]

/-! ## What a step does to the word -/

/-- What a step of thread `t` does to the queue and to the captured chain: nothing, except that a
captured block may go on `free`; queue the block that `t` is freeing; capture the queue. -/
def QueueStep (t : Tid) (s s' : Shared Tid) : Prop :=
  (s'.queue = s.queue ∧ (s'.captured = s.captured ∨
    ∃ b, s.captured = b :: s'.captured ∧ s'.page.free = some b)) ∨
  (∃ b, s.freeing t = some b ∧ b ∉ s.queue ∧ s'.queue = b :: s.queue ∧
    s'.captured = s.captured) ∨
  (s.captured = [] ∧ s'.queue = [] ∧ s'.captured = s.queue)

/-- What a step of thread `t` does to the ownership bit: nothing; set it, which counts as a gain
of `t`; clear it, as the holder of the page. -/
def OwnStep (t : Tid) (s s' : Shared Tid) : Prop :=
  (s'.page.xthreadFree.owned = s.page.xthreadFree.owned ∧ s'.holder = s.holder ∧
    s'.gains = s.gains) ∨
  (s.page.xthreadFree.owned = false ∧ s'.page.xthreadFree.owned = true ∧ s'.holder = some t ∧
    s'.gains = Function.update s.gains t (s.gains t + 1)) ∨
  (s.page.xthreadFree.owned = true ∧ s'.page.xthreadFree.owned = false ∧ s.holder = some t ∧
    s'.holder = none ∧ s'.gains = s.gains)

/-- The event is not the partial collect of the claiming free. -/
def PageAct.Whole : {β : Type} → PageAct β → Prop
  | _, .collectBehind _ => False
  | _, _ => True

section Step

variable {s s' : Shared Tid} {t : Tid} {fr lo : List Blk} {β : Type} {e : PageAct β} {choice : ℕ}
variable {r : β}

/-- A compare-exchange that succeeds. -/
theorem exchange_step {weak : Bool} {e n : Tf} (hp : Partition s fr lo)
    (hw : s.page.xthreadFree = e) (ha : pageAsserts t (.cas weak e n) s) :
    QueueStep t s (s.exchange t e n) ∧ OwnStep t s (s.exchange t e n) := by
  obtain ⟨hblock, hown⟩ := ha hw
  obtain ⟨hpage, hqueue, hcaptured⟩ :=
    ((s.setWord n).moveBlock t e.block n.block).moveOwner_kept t e.owned n.owned
  obtain ⟨hpage', hholder, hgains⟩ := (s.setWord n).moveBlock_kept t e.block n.block
  constructor
  · unfold QueueStep Shared.exchange
    rw [hqueue, hcaptured]
    rcases hblock with hblock | ⟨b, hb, hfreeing, -⟩ | ⟨hnone, -, hcap⟩
    · exact Or.inl (by simp [Shared.moveBlock, hblock, Shared.setWord])
    · have hbq : b ∉ s.queue := fun hm => hp.out_off b (Or.inr ⟨t, hfreeing⟩) (by simp [hm])
      have hne : some b ≠ e.block := fun heq => by
        have hq := hp.lists.queue
        rw [hw, ← heq] at hq
        obtain ⟨l, hl, -⟩ := hq.of_some
        exact hbq (by simp [hl])
      exact Or.inr (Or.inl ⟨b, hfreeing, hbq, by
        simp [Shared.moveBlock, hb, hne, Shared.setWord, Shared.publish]⟩)
    · by_cases hne : none = e.block
      · exact Or.inl (by simp [Shared.moveBlock, hnone, hne.symm, Shared.setWord])
      · exact Or.inr (Or.inr ⟨hcap, by
          simp [Shared.moveBlock, hnone, hne, Shared.setWord, Shared.capture]⟩)
  · have hword : (s.exchange t e n).page.xthreadFree = n := by
      rw [Shared.exchange, hpage, hpage']
      rfl
    unfold OwnStep
    rw [hword, hw, Shared.exchange]
    cases ho : e.owned <;> cases hn : n.owned
    · exact Or.inl ⟨rfl, hholder, hgains⟩
    · exact Or.inr (Or.inl ⟨rfl, rfl, rfl, by
        simp only [Shared.moveOwner, Shared.gain, hgains]
        rfl⟩)
    · exact Or.inr (Or.inr ⟨rfl, rfl, hown ho hn, rfl, hgains⟩)
    · exact Or.inl ⟨rfl, hholder, hgains⟩

/-- An event that leaves the word, the queue and the captured chain alone. -/
theorem step_of_same (hword : s'.page.xthreadFree = s.page.xthreadFree) (hqueue : s'.queue = s.queue)
    (hcaptured : s'.captured = s.captured) (hholder : s'.holder = s.holder)
    (hgains : s'.gains = s.gains) : QueueStep t s s' ∧ OwnStep t s s' :=
  ⟨Or.inl ⟨hqueue, Or.inl hcaptured⟩, Or.inl ⟨by rw [hword], hholder, hgains⟩⟩

/-- What the events of the page functions do to the word. -/
theorem exec_step (hp : Partition s fr lo) (ha : pageAsserts t e s) (hwhole : e.Whole)
    (hex : s.exec t e choice = some (r, s')) : QueueStep t s s' ∧ OwnStep t s s' := by
  cases e
  case cas weak e n =>
    rcases PageSafe.exec_cas hex with ⟨-, hw, -, rfl⟩ | ⟨-, -, rfl⟩ | ⟨-, -, rfl⟩
    · exact exchange_step hp hw ha
    · exact step_of_same rfl rfl rfl rfl rfl
    · exact step_of_same rfl rfl rfl rfl rfl
  case splice tf =>
    cases hex
    obtain ⟨-, hhead⟩ := ha
    refine ⟨Or.inl ⟨rfl, Or.inr ⟨tf, ?_, rfl⟩⟩, Or.inl ⟨rfl, rfl, rfl⟩⟩
    exact List.eq_cons_of_mem_head? hhead
  case adoptLocal =>
    cases hex
    exact step_of_same Lists.adoptLocal_xthreadFree rfl rfl rfl rfl
  case extendFree =>
    cases hex
    exact step_of_same Lists.extendFree_xthreadFree rfl rfl rfl rfl
  case collectBehind => exact hwhole.elim
  case casId e n =>
    simp only [Shared.exec] at hex
    split at hex <;> cases hex <;> exact step_of_same rfl rfl rfl rfl rfl
  all_goals
    cases hex
    exact step_of_same rfl rfl rfl rfl rfl

end Step

/-! ## The programs of the page functions -/

theorem pageSystem_whole (t : Tid) (o : PageOp) :
    ((pageSystem Tid).prog t o).Every PageAct.Whole := by
  have hcapture : Page.capture.Every PageAct.Whole := by
    refine ⟨fun _ => ⟨trivial, fun w => ?_⟩, fun _ => trivial⟩
    obtain ⟨_ | tf, o⟩ := w
    · trivial
    · refine ⟨trivial, fun r => ?_⟩
      cases r <;> trivial
  have hcollect : Page.collect.Every PageAct.Whole := by
    simp only [Page.collect, Prog.bind_eq, Prog.perform_bind]
    refine hcapture.bind fun r => ?_
    cases r with
    | none => exact ⟨trivial, fun _ => trivial⟩
    | some tf =>
      refine ⟨trivial, fun _ => Prog.Every.bind ⟨fun tf => ⟨trivial, fun r => ?_⟩, fun _ => trivial⟩
        fun _ => ⟨trivial, fun _ => trivial⟩⟩
      cases r <;> trivial
  have hpop : ∀ b, (Prog.act (.pop b) fun _ => Prog.ret (some b) :
      Prog PageAct (Option Blk)).Every PageAct.Whole := fun _ => ⟨trivial, fun _ => trivial⟩
  cases o with
  | alloc =>
    simp only [pageSystem, Page.alloc, Page.allocSlow, Prog.bind_eq, Prog.pure_eq,
      Prog.perform_bind]
    refine ⟨trivial, fun v => ?_⟩
    cases v with
    | some b => exact hpop b
    | none =>
      refine hcollect.bind fun _ => ⟨trivial, fun v => ?_⟩
      cases v with
      | some b => exact hpop b
      | none =>
        refine ⟨trivial, fun _ => ⟨trivial, fun v => ?_⟩⟩
        cases v with
        | some b => exact hpop b
        | none => trivial
  | collect => exact hcollect
  | freeLocal b => exact ⟨trivial, fun _ => trivial⟩
  | push b =>
    refine ⟨fun _ => ⟨trivial, fun w => ⟨trivial, fun _ => ⟨trivial, fun r => ?_⟩⟩⟩, fun _ => trivial⟩
    cases r <;> trivial
  | claim =>
    refine ⟨fun _ => ⟨trivial, fun w => ?_⟩, fun _ => trivial⟩
    obtain ⟨_, _ | _⟩ := w
    · refine ⟨trivial, fun r => ?_⟩
      cases r <;> trivial
    · trivial
  | tryUnown => exact ⟨trivial, fun _ => trivial⟩
  | setUnowned =>
    refine ⟨fun _ => ⟨trivial, fun w => ⟨trivial, fun r => ?_⟩⟩, fun _ => trivial⟩
    cases r <;> trivial

section Runs

variable {c c' : Config PageAct Tid PageOp PageOp.Res (Shared Tid)}

/-- Events tell nobody anything. -/
theorem exec_reports {β : Type} {t : Tid} {e : PageAct β} {s s' : Shared Tid} {choice : ℕ} {r : β}
    (h : s.exec t e choice = some (r, s')) : s'.reports = s.reports := by
  cases e
  case cas weak e n =>
    rcases PageSafe.exec_cas h with ⟨-, -, -, rfl⟩ | ⟨-, -, rfl⟩ | ⟨-, -, rfl⟩
    · exact s.exchange_reports t e n
    · rfl
    · rfl
  case casId e n =>
    simp only [Shared.exec] at h
    split at h <;> cases h <;> rfl
  all_goals
    cases h
    rfl

/-- A step of a run changes the queue and the owner as `QueueStep` and `OwnStep` say. -/
theorem pageSystem_step (h : (pageSystem Tid).Reachable Shared.Init System.anyMove c) {t : Tid}
    {choice : ℕ} (hm : (pageSystem Tid).next (.step t choice) c = some c') :
    c'.mem.reports = c.mem.reports ∧ QueueStep t c.mem c'.mem ∧ OwnStep t c.mem c'.mem := by
  obtain ⟨o, p, s, p', hp, hs, rfl⟩ := System.next_step hm
  cases p with
  | ret a => cases hs
  | act e k =>
    obtain ⟨⟨x, s'⟩, hx, he⟩ := Option.map_eq_some_iff.mp hs
    cases he
    obtain ⟨γ, hi, -⟩ := pageSystem_reachable h
    obtain ⟨fr, lo, hpart⟩ := hi.partition
    exact ⟨exec_reports hx, exec_step hpart (pageSystem_asserts h hp)
      (h.every (P := PageAct.Whole) pageSystem_whole hp) hx⟩
  | loop body b k =>
    cases hs
    exact ⟨rfl, step_of_same rfl rfl rfl rfl rfl⟩

/-- Starting a call at most moves a block from the live ones to those being freed. -/
theorem start_kept {s s' : Shared Tid} {t : Tid} {o : PageOp}
    (h : (pageSystem Tid).start t o s = some s') :
    s'.page = s.page ∧ s'.queue = s.queue ∧ s'.captured = s.captured ∧ s'.holder = s.holder ∧
      s'.gains = s.gains ∧ s'.reports = s.reports := by
  have howner : ∀ {s s' : Shared Tid}, s.asOwner t = some s' → s' = s := fun {s s'} h => by
    unfold Shared.asOwner at h
    split at h <;> cases h
    rfl
  have htake : ∀ {s s' : Shared Tid} {b : Blk}, s.take t b = some s' → s'.page = s.page ∧
      s'.queue = s.queue ∧ s'.captured = s.captured ∧ s'.holder = s.holder ∧ s'.gains = s.gains ∧
      s'.reports = s.reports := fun {s s' b} h => by
    unfold Shared.take at h
    split at h <;> cases h
    exact ⟨rfl, rfl, rfl, rfl, rfl, rfl⟩
  cases o with
  | freeLocal b =>
    obtain ⟨s₁, ho, ht⟩ := Option.bind_eq_some_iff.mp h
    cases howner ho
    exact htake ht
  | push b => exact htake h
  | claim => cases h; exact ⟨rfl, rfl, rfl, rfl, rfl, rfl⟩
  | alloc | collect | tryUnown | setUnowned =>
    cases howner h
    exact ⟨rfl, rfl, rfl, rfl, rfl, rfl⟩

/-- What is left of a running `try_unown`. -/
def TryUnownShape : (o : PageOp) → Prog PageAct o.Res → Prop
  | .tryUnown, p => p = Page.tryUnown ∨ ∃ r, p = .ret r
  | _, _ => True

/-- A `try_unown` that succeeds has found the queue empty. -/
theorem tryUnown_step (h : (pageSystem Tid).Reachable Shared.Init System.anyMove c) {t : Tid}
    {choice : ℕ} (hm : (pageSystem Tid).next (.step t choice) c = some c')
    (ht : c'.thread t = some ⟨.tryUnown, .ret true⟩) : c.mem.queue = [] := by
  obtain ⟨o, p, s, p', hp, hs, rfl⟩ := System.next_step hm
  simp only [Function.update_self, Option.some.injEq] at ht
  cases ht
  have hshape : TryUnownShape .tryUnown p := by
    refine h.prog_invariant (P := TryUnownShape) (fun t o => ?_) (fun o β e k b hp => ?_)
      (fun o β γ body b k hp => ?_) t _ _ hp <;> cases o <;> try trivial
    · exact Or.inl rfl
    · rcases hp with hp | ⟨r, hp⟩ <;> cases hp
      exact Or.inr ⟨_, rfl⟩
    · rcases hp with hp | ⟨r, hp⟩ <;> cases hp
  rcases hshape with rfl | ⟨r, rfl⟩
  · obtain ⟨⟨x, s'⟩, hx, he⟩ := Option.map_eq_some_iff.mp hs
    cases he
    obtain ⟨γ, hi, -⟩ := pageSystem_reachable h
    obtain ⟨fr, lo, hpart⟩ := hi.partition
    have hx : c.mem.exec t (.cas false ⟨none, true⟩ ⟨none, false⟩) choice = some (true, s') := hx
    rcases PageSafe.exec_cas hx with ⟨-, hw, -, -⟩ | ⟨hf, -⟩ | ⟨hf, -⟩
    · have hq := hpart.lists.queue
      rwa [hw, Chain.none_iff] at hq
    · cases hf
    · cases hf
  · cases hs

/-! ## The exclusion theorem -/

/-- **Ownership of a page is exclusive and accounted for.** In every reachable configuration the
ownership bit is set exactly while some thread holds the page, and a thread that has been told it
owns the page holds it. A call makes the bit set as often as it tells its caller so: gains and
reports agree between calls, and a call that is about to return differs by its own report, which
it makes only while its thread holds the page. A step changes queue and owner only as `QueueStep`
and `OwnStep` say, starts and returns change neither, and a `try_unown` that succeeds has found
the queue empty. -/
theorem page_ownership_exclusive
    (h : (pageSystem Tid).Reachable Shared.Init System.anyMove c) :
    (c.mem.page.xthreadFree.owned = true ↔ ∃ t, c.mem.holder = some t) ∧
    (∀ t, c.mem.told t = true → c.mem.holder = some t) ∧
    Chain c.mem.page.next c.mem.page.xthreadFree.block c.mem.queue ∧ c.mem.queue.Nodup ∧
    (∀ t, c.thread t = none → c.mem.gains t = c.mem.reports t) ∧
    (∀ t o r, c.thread t = some ⟨o, .ret r⟩ →
      c.mem.gains t = c.mem.reports t + (o.claimed r).toNat ∧
        (o.claimed r = true → c.mem.holder = some t)) ∧
    (∀ t choice c', (pageSystem Tid).next (.step t choice) c = some c' →
      c'.mem.reports = c.mem.reports ∧ QueueStep t c.mem c'.mem ∧ OwnStep t c.mem c'.mem) ∧
    (∀ t o c', (pageSystem Tid).next (.start t o) c = some c' →
      c'.mem.page = c.mem.page ∧ c'.mem.queue = c.mem.queue ∧ c'.mem.captured = c.mem.captured ∧
        c'.mem.holder = c.mem.holder ∧ c'.mem.gains = c.mem.gains ∧
        c'.mem.reports = c.mem.reports) ∧
    (∀ t o r c', c.thread t = some ⟨o, .ret r⟩ →
      (pageSystem Tid).next (.finish t) c = some c' →
      c'.mem = if o.claimed r then c.mem.report t else c.mem) ∧
    ∀ t choice c', (pageSystem Tid).next (.step t choice) c = some c' →
      c'.thread t = some ⟨.tryUnown, .ret true⟩ → c.mem.queue = [] := by
  obtain ⟨γ, hi, hth⟩ := pageSystem_reachable h
  obtain ⟨fr, lo, hp⟩ := hi.partition
  refine ⟨?_, hi.ownership.told, hp.lists.queue, ?_, fun t ht => ?_, fun t o r ht => ?_,
    fun t choice c' hm => pageSystem_step h hm, fun t o c' hm => ?_, fun t o r c' ht hm => ?_,
    fun t choice c' hm ht => tryUnown_step h hm ht⟩
  · rw [hi.ownership.owned, Option.isSome_iff_exists]
  · have hnd := hp.lists.nodup
    simp only [List.nodup_append] at hnd
    exact hnd.1.2.1
  · have hidle := hth t
    rw [ht] at hidle
    rw [hi.ownership.gains, hi.ownership.reports]
    exact hidle.2.2
  · have hpost := hth t
    rw [ht] at hpost
    obtain ⟨-, -, hgained, hown⟩ : pagePost t o r (γ t) := Safe.of_ret hpost
    rw [hi.ownership.gains, hi.ownership.reports]
    exact ⟨hgained, fun hr => (hi.ownership.holder t).mp (hown hr)⟩
  · obtain ⟨-, s, hs, rfl⟩ := System.next_start hm
    exact start_kept hs
  · obtain ⟨o', r', ht', rfl⟩ := System.next_finish hm
    cases ht.symm.trans ht'
    rfl

/-- A thread frees the block of a huge page that its owner has given up, and claims the page. -/
theorem page_ownership_exclusive_push :
    ∃ c, hugeRun [.start true .setUnowned, .step true 0, .step true 0, .step true 0, .finish true,
        .start false (.push 0), .step false 0, .step false 0, .step false 0, .step false 0,
        .finish false] = some c ∧
      c.mem.gains false = c.mem.reports false ∧ c.mem.holder = some false := by
  obtain ⟨c, hc⟩ : ∃ c, hugeRun [.start true .setUnowned, .step true 0, .step true 0,
      .step true 0, .finish true, .start false (.push 0), .step false 0, .step false 0,
      .step false 0, .step false 0, .finish false] = some c := ⟨_, rfl⟩
  obtain ⟨-, htold, -, -, hidle, -⟩ := page_ownership_exclusive (hugeRun_reachable hc)
  refine ⟨c, hc, hidle false ?_, htold false ?_⟩ <;>
  · cases hc
    rfl

end Runs

end MimallocRs
