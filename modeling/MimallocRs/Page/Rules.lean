import MimallocRs.Page.Invariant

/-!
# Rules for the events of a page

One rule for each event of a page: what the thread has to know before it, and what it knows
afterwards. They are the only place where the execution of an event is opened.
-/

namespace MimallocRs

open Interleave

variable {Tid : Type} [DecidableEq Tid]

/-- `Safe` for the page programs. -/
abbrev PageSafe {α : Type} (strict : Prop) (t : Tid) (p : Prog PageAct α) (g : Ghost)
    (Q : α → Ghost → Prop) : Prop :=
  Safe (machine Tid) (pageOutline Tid strict) t p g Q

variable {strict : Prop} {t : Tid} {g : Ghost} {α β : Type} {Q : α → Ghost → Prop}

/-- Changes to the owner id, the zero flag, the registry bit and the release flag. -/
def Aside (s s' : Shared Tid) : Prop :=
  ∃ id z registered released, s' = { s with
    page := { s.page with xthreadId := id, freeIsZero := z }
    registered := registered
    released := released }

omit [DecidableEq Tid] in
theorem Aside.refl (s : Shared Tid) : Aside s s := ⟨_, _, _, _, rfl⟩

omit [DecidableEq Tid] in
theorem PageInv.of_aside {s s' : Shared Tid} {γ : Tid → Ghost} (h : PageInv strict s γ)
    (ha : Aside s s') : PageInv strict s' γ := by
  obtain ⟨id, z, r, r', rfl⟩ := ha
  obtain ⟨fr, lo, hp⟩ := h.partition
  exact {
    ownership := ⟨h.ownership.owned, h.ownership.holder, h.ownership.told, h.ownership.gains,
      h.ownership.reports⟩
    partition := ⟨fr, lo, hp.of_lists ⟨hp.lists.free, hp.lists.localFree, hp.lists.queue,
      hp.lists.captured, hp.lists.nodup, hp.lists.lt, hp.lists.used, hp.lists.capacity_le⟩
      rfl rfl rfl fun _ => Iff.rfl⟩
    view := fun u => ⟨(h.view u).freeing, (h.view u).link, (h.view u).free, (h.view u).captured,
      (h.view u).pushed, (h.view u).tested⟩
    idle := h.idle
    kept := fun hs => ⟨(h.kept hs).holder, (h.kept hs).unowned, (h.kept hs).tested⟩ }

namespace PageSafe

/-- An event that moves no block and leaves the head word alone. -/
theorem aside {e : PageAct β} {k : β → Prog PageAct α}
    (ha : ∀ s : Shared Tid, pageAsserts t e s)
    (he : ∀ (s : Shared Tid) choice b s', s.exec t e choice = some (b, s') → Aside s s')
    (h : ∀ b, PageSafe strict t (k b) g Q) : PageSafe strict t (.act e k) g Q := by
  refine Safe.act fun s γ choice b s' hi hg _ hex => ⟨ha s, g, ?_, h b⟩
  rw [← hg, Function.update_eq_self]
  exact PageInv.of_aside hi (he s choice b s' hex)

theorem load {k : Tf → Prog PageAct α} (h : ∀ w, PageSafe strict t (k w) g Q) :
    PageSafe strict t (.act .load k) g Q :=
  aside (fun _ => trivial) (fun s _ _ _ he => by cases he; exact .refl s) h

theorem loadId {k : ℕ → Prog PageAct α} (h : ∀ id, PageSafe strict t (k id) g Q) :
    PageSafe strict t (.act .loadId k) g Q :=
  aside (fun _ => trivial) (fun s _ _ _ he => by cases he; exact .refl s) h

theorem casId {e n : ℕ} {k : Option ℕ → Prog PageAct α}
    (h : ∀ r, PageSafe strict t (k r) g Q) : PageSafe strict t (.act (.casId e n) k) g Q :=
  aside (fun _ => trivial) (fun s choice b s' he => by
    simp only [Shared.exec] at he
    split at he
    · cases he; exact ⟨_, _, _, _, rfl⟩
    · cases he; exact .refl s) h

theorem usedIsOne {k : Bool → Prog PageAct α} (h : ∀ r, PageSafe strict t (k r) g Q) :
    PageSafe strict t (.act .usedIsOne k) g Q :=
  aside (fun _ => trivial) (fun s _ _ _ he => by cases he; exact .refl s) h

theorem atCapacity {k : Bool → Prog PageAct α} (h : ∀ r, PageSafe strict t (k r) g Q) :
    PageSafe strict t (.act .atCapacity k) g Q :=
  aside (fun _ => trivial) (fun s _ _ _ he => by cases he; exact .refl s) h

theorem clearZero {k : Unit → Prog PageAct α} (h : PageSafe strict t (k ()) g Q) :
    PageSafe strict t (.act .clearZero k) g Q :=
  aside (fun _ => trivial) (fun _ _ _ _ he => by cases he; exact ⟨_, _, _, _, rfl⟩) fun _ => h

theorem register {k : Unit → Prog PageAct α} (h : PageSafe strict t (k ()) g Q) :
    PageSafe strict t (.act .register k) g Q :=
  aside (fun _ => trivial) (fun _ _ _ _ he => by cases he; exact ⟨_, _, _, _, rfl⟩) fun _ => h

theorem unregister {k : Unit → Prog PageAct α} (h : PageSafe strict t (k ()) g Q) :
    PageSafe strict t (.act .unregister k) g Q :=
  aside (fun _ => trivial) (fun _ _ _ _ he => by cases he; exact ⟨_, _, _, _, rfl⟩) fun _ => h

theorem release {k : Unit → Prog PageAct α} (h : PageSafe strict t (k ()) g Q) :
    PageSafe strict t (.act .release k) g Q :=
  aside (fun _ => trivial) (fun _ _ _ _ he => by cases he; exact ⟨_, _, _, _, rfl⟩) fun _ => h

/-! ## Events of a thread that frees a block -/

/-- The thread writes the link of the block it is freeing. -/
theorem setNext {b : Blk} {n : Option Blk} {k : Unit → Prog PageAct α} (hb : g.freeing = some b)
    (h : PageSafe strict t (k ()) { g with link := some n } Q) :
    PageSafe strict t (.act (.setNext b n) k) g Q := by
  refine Safe.act fun s γ choice r s' hi hg _ hex => ?_
  have hi : PageInv strict s γ := hi
  cases hex
  obtain ⟨fr, lo, hp⟩ := hi.partition
  have hv := hi.view t
  rw [hg] at hv
  have hfree : s.freeing t = some b := hv.freeing.trans hb
  refine ⟨hfree, _, ?_, h⟩
  refine hi.of_sameHolder hg ⟨rfl, rfl, rfl, rfl, rfl⟩ rfl rfl rfl ⟨fr, lo, hp.setNext hfree n⟩
    ⟨hv.freeing, ?_, hv.free, hv.captured, hv.pushed, hv.tested⟩ (fun u hu => ?_) hi.idle
    fun _ hk => ⟨hk.holder, hk.unowned, hk.tested⟩
  · intro c v hc hl
    cases hb.symm.trans hc
    cases hl
    exact Function.update_self ..
  · have hvu := hi.view u
    refine ⟨hvu.freeing, fun c v hc hl => ?_, hvu.free, hvu.captured, hvu.pushed, hvu.tested⟩
    have hne : c ≠ b := fun hcb =>
      hu (hp.freeing_inj u t b (hvu.freeing.trans (hcb ▸ hc)) hfree)
    exact (Function.update_of_ne hne _ _).trans (hvu.link c v hc hl)

/-- What a compare-exchange can do. -/
theorem exec_cas {s s' : Shared Tid} {weak : Bool} {e n : Tf} {choice : ℕ} {r : Bool}
    (h : s.exec t (.cas weak e n) choice = some (r, s')) :
    (r = true ∧ s.page.xthreadFree = e ∧ (weak = true → choice = 0) ∧ s' = s.exchange t e n) ∨
    (r = false ∧ weak = true ∧ s' = s) ∨
    (r = false ∧ weak = false ∧ s' = { s with tested := Function.update s.tested t false }) := by
  simp only [Shared.exec] at h
  split at h
  · next hc =>
    cases h
    exact Or.inl ⟨rfl, hc.1, hc.2, rfl⟩
  · split at h
    · next hw =>
      cases h
      exact Or.inr (Or.inl ⟨rfl, hw, rfl⟩)
    · next hw =>
      cases h
      exact Or.inr (Or.inr ⟨rfl, by simpa using hw, rfl⟩)

/-- A weak compare-exchange: what is to be shown when it succeeds. -/
theorem casWeak {e n : Tf} {k : Bool → Prog PageAct α} (g' : Ghost)
    (ha : ∀ s γ, PageInv strict s γ → γ t = g → s.page.xthreadFree = e →
      (n.block = e.block ∨
        (∃ b, n.block = some b ∧ s.freeing t = some b ∧ s.page.next b = e.block) ∨
        (n.block = none ∧ s.holder = some t ∧ s.captured = [])) ∧
      (e.owned = true → n.owned = false → s.holder = some t))
    (hinv : ∀ s γ choice, PageInv strict s γ → γ t = g → s.page.xthreadFree = e → choice = 0 →
      (strict → keepsOutstanding t (.cas true e n) s choice) →
      PageInv strict (s.exchange t e n) (Function.update γ t g'))
    (hfail : PageSafe strict t (k false) g Q) (hsucc : PageSafe strict t (k true) g' Q) :
    PageSafe strict t (.act (.cas true e n) k) g Q := by
  refine Safe.act fun s γ choice r s' hi hg hok hex => ?_
  have hex : s.exec t (.cas true e n) choice = some (r, s') := hex
  refine ⟨ha s γ hi hg, ?_⟩
  rcases exec_cas hex with ⟨rfl, he, hc, rfl⟩ | ⟨rfl, -, rfl⟩ | ⟨-, hw, -⟩
  · exact ⟨g', hinv s γ choice hi hg he (hc rfl) hok, hsucc⟩
  · refine ⟨g, ?_, hfail⟩
    rw [← hg, Function.update_eq_self]
    exact hi
  · cases hw

/-- What a thread knows after its push of `b` has exchanged a word with ownership bit `owned`. -/
def afterPush (g : Ghost) (b : Blk) (owned : Bool) : Ghost :=
  if owned then { g with freeing := none, link := none, free := none, pushed := some b }
  else { own := true, freeing := none, captured := none, tested := false, gained := g.gained + 1,
         reported := g.reported, link := none, free := none, pushed := some b }

/-- The exchange of a push. -/
theorem push {b : Blk} {e : Tf} {k : Bool → Prog PageAct α} (hb : g.freeing = some b)
    (hl : g.link = some e.block) (hfail : PageSafe strict t (k false) g Q)
    (hsucc : PageSafe strict t (k true) (afterPush g b e.owned) Q) :
    PageSafe strict t (.act (.cas true e ⟨some b, true⟩) k) g Q := by
  refine casWeak _ (fun s γ hi hg _ => ?_) (fun s γ choice hi hg he _ _ => ?_) hfail hsucc
  · have hv := hi.view t
    rw [hg] at hv
    exact ⟨Or.inr (Or.inl ⟨b, rfl, hv.freeing.trans hb, hv.link b _ hb hl⟩), fun _ h => by cases h⟩
  obtain ⟨fr, lo, hp⟩ := hi.partition
  have hv := hi.view t
  rw [hg] at hv
  have hfree : s.freeing t = some b := hv.freeing.trans hb
  have hlink : s.page.next b = s.page.xthreadFree.block := by
    rw [he]
    exact hv.link b _ hb hl
  have hbq : b ∉ s.queue := fun hm => hp.out_off b (Or.inr ⟨t, hfree⟩) (by simp [hm])
  have hne : e.block ≠ some b := fun hc => by
    have hq := hp.lists.queue
    rw [he, hc] at hq
    obtain ⟨l, hl, -⟩ := hq.of_some
    exact hbq (by simp [hl])
  have hpush := hp.push hfree hlink true
  have hothers : ∀ u, u ≠ t → View ((s.setWord ⟨some b, true⟩).publish t b) u (γ u) :=
    fun u hu => by
      have hvu := hi.view u
      exact ⟨(Function.update_of_ne hu _ _).trans hvu.freeing, hvu.link, hvu.free, hvu.captured,
        fun ho c hc => List.mem_cons_of_mem _ (hvu.pushed ho c hc), hvu.tested⟩
  cases howned : e.owned with
  | true =>
    rw [Shared.exchange_push_owned hne howned, afterPush, if_pos rfl]
    have hholder : s.holder ≠ none := fun hn => by
      have hword := hi.ownership.owned
      rw [he, howned, hn] at hword
      cases hword
    refine hi.of_sameHolder hg ⟨by simp [Shared.publish, Shared.setWord, he, howned], rfl, rfl, rfl,
      rfl⟩ rfl rfl rfl ⟨fr, lo, hpush⟩
      ⟨by simp [Shared.publish], by simp, by simp, hv.captured, ?_, hv.tested⟩ hothers hi.idle
      fun _ hk => ⟨hk.holder, fun hn => absurd hn hholder, fun u hu => ?_⟩
    · rintro - c hc
      cases hc
      exact List.mem_cons_self
    · -- a block outstanding or queued before is so afterwards
      obtain ⟨c, hc⟩ := hk.tested u hu
      refine ⟨c, ?_⟩
      by_cases hcb : c = b
      · exact Or.inr (hcb ▸ List.mem_cons_self)
      · refine hc.imp (fun hc => ?_) (List.mem_cons_of_mem _)
        exact (hp.outstanding_freed hfree ((s.setWord ⟨some b, true⟩).publish t b) rfl rfl c).mpr
          ⟨hc, hcb⟩
  | false =>
    rw [Shared.exchange_push_unowned hne howned, afterPush, if_neg (by simp)]
    have hnone : s.holder = none := hi.holder_eq_none (he ▸ howned)
    exact {
      ownership := hi.ownership.gain hg hnone rfl rfl rfl rfl rfl rfl rfl rfl
      partition := ⟨fr, lo, hpush.of_lists hpush.lists rfl rfl rfl fun _ => Iff.rfl⟩
      view := View.of_update ⟨by simp [Shared.publish, Shared.gain], by simp, by simp,
        fun _ => by simpa [Shared.publish, Shared.gain, Shared.setWord] using hi.idle hnone,
        fun _ c hc => by cases hc; exact List.mem_cons_self, by simp⟩ fun u hu =>
        ⟨(hothers u hu).freeing, (hothers u hu).link, (hothers u hu).free, (hothers u hu).captured,
          (hothers u hu).pushed, (hothers u hu).tested⟩
      idle := fun hn => by cases hn
      kept := fun hst => (hi.kept hst).of_none hnone rfl rfl }

/-! ## Events on the head word -/

/-- The exchange of a capture. -/
theorem capture {b : Blk} {e : Tf} {k : Bool → Prog PageAct α} (hown : g.own = true)
    (hcap : g.captured = none) (hb : e.block = some b)
    (hfail : PageSafe strict t (k false) g Q)
    (hsucc : PageSafe strict t (k true) { g with captured := some b, pushed := none } Q) :
    PageSafe strict t (.act (.cas true e ⟨none, e.owned⟩) k) g Q := by
  refine casWeak _ (fun s γ hi hg _ => ?_) (fun s γ choice hi hg he hc hok => ?_) hfail hsucc
  · refine ⟨Or.inr (Or.inr ⟨rfl, (hi.ownership.holder t).mp (hg ▸ hown),
      hi.captured_eq_nil hg hown hcap⟩), fun ho hn => ?_⟩
    cases ho.symm.trans hn
  obtain ⟨fr, lo, hp⟩ := hi.partition
  have hv := hi.view t
  rw [hg] at hv
  have hempty := hi.captured_eq_nil hg hown hcap
  have hhead : s.queue.head? = some b := by
    have hq := hp.lists.queue
    rw [he, hb] at hq
    obtain ⟨l, hl, -⟩ := hq.of_some
    simp [hl]
  have hholder := (hi.ownership.holder t).mp (hg ▸ hown)
  rw [Shared.exchange_capture hb]
  refine hi.of_sameHolder hg ⟨by simp [Shared.capture, Shared.setWord, he], rfl, rfl, rfl, rfl⟩
    rfl rfl rfl ⟨fr, lo, hp.capture hempty e.owned⟩
    ⟨hv.freeing, hv.link, hv.free, fun _ => hhead, by simp, hv.tested⟩
    (hi.others_of_own hg hown (fun _ _ => rfl) fun _ _ _ _ => rfl)
    (fun hn => absurd (hholder.symm.trans hn) (by simp)) fun hst hk =>
      ⟨hk.holder, hk.unowned, fun u hu => ?_⟩
  -- whoever has tested the page is the thread that captures now
  obtain rfl : u = t := Option.some.inj ((hk.holder u hu).symm.trans hholder)
  obtain ⟨c, hc⟩ := hok hst he (fun _ => hc) (Or.inl ⟨hu, by simp [hb], rfl⟩)
  exact ⟨c, Or.inl hc⟩

/-- The exchange of a claim. -/
theorem claim {e : Tf} {k : Bool → Prog PageAct α} (he : e.owned = false)
    (hfail : PageSafe strict t (k false) g Q)
    (hsucc : PageSafe strict t (k true) { g with
      own := true, captured := none, tested := false, gained := g.gained + 1, free := none
      pushed := none } Q) :
    PageSafe strict t (.act (.cas true e ⟨e.block, true⟩) k) g Q := by
  refine casWeak _ (fun s γ hi hg _ => ⟨Or.inl rfl, fun ho => by rw [he] at ho; cases ho⟩)
    (fun s γ choice hi hg hw _ _ => ?_) hfail hsucc
  obtain ⟨fr, lo, hp⟩ := hi.partition
  have hv := hi.view t
  rw [hg] at hv
  have hnone : s.holder = none := hi.holder_eq_none (hw ▸ he)
  have hword : s.setWord ⟨e.block, true⟩ = s.setWord ⟨s.page.xthreadFree.block, true⟩ := by rw [hw]
  rw [Shared.exchange_claim he]
  exact {
    ownership := hi.ownership.gain hg hnone rfl rfl rfl rfl rfl rfl rfl rfl
    partition := ⟨fr, lo, by
      rw [hword]
      exact (hp.setOwned true).of_lists (hp.setOwned true).lists rfl rfl rfl fun _ => Iff.rfl⟩
    view := View.of_update
      ⟨hv.freeing, hv.link, by simp, fun _ => by
        simpa [Shared.gain, Shared.setWord] using hi.idle hnone, by simp, by simp⟩
      fun u _ => (hi.view u).of_not_own
        (fun hou => by simpa [hnone] using (hi.ownership.holder u).mp hou) rfl fun _ _ => rfl
    idle := fun hn => by cases hn
    kept := fun hst => (hi.kept hst).of_none hnone rfl rfl }

/-- The holder of the page gives it up. -/
theorem lose_inv {s : Shared Tid} {γ : Tid → Ghost} (hi : PageInv strict s γ) (hg : γ t = g)
    (hown : g.own = true) (hcap : g.captured = none)
    (hout : strict → Kept s → ∃ b, s.Outstanding b) :
    PageInv strict ((s.setWord ⟨s.page.xthreadFree.block, false⟩).lose t)
      (Function.update γ t { g with own := false, tested := false }) := by
  obtain ⟨fr, lo, hp⟩ := hi.partition
  have hv := hi.view t
  rw [hg] at hv
  have hholder := (hi.ownership.holder t).mp (hg ▸ hown)
  have hothers : ∀ u, u ≠ t → View ((s.setWord ⟨s.page.xthreadFree.block, false⟩).lose t) u (γ u) :=
    hi.others_of_own hg hown (fun _ _ => rfl) fun _ _ _ _ => rfl
  exact {
    ownership := hi.ownership.lose hg hown rfl rfl rfl rfl rfl rfl rfl rfl
    partition := ⟨fr, lo,
      (hp.setOwned false).of_lists (hp.setOwned false).lists rfl rfl rfl fun _ => Iff.rfl⟩
    view := View.of_update ⟨hv.freeing, hv.link, by simp, by simp, by simp, by simp⟩ hothers
    idle := fun _ => hi.captured_eq_nil hg hown hcap
    kept := fun hst => by
      have hk := hi.kept hst
      have hun : ∀ u, ((s.setWord ⟨s.page.xthreadFree.block, false⟩).lose t).tested u ≠ true :=
        fun u hu => by
          by_cases hut : u = t
          · subst hut
            simp [Shared.lose] at hu
          · have hu : s.tested u = true := by
              simpa [Shared.lose, Shared.setWord, hut] using hu
            exact hut (Option.some.inj ((hk.holder u hu).symm.trans hholder))
      exact ⟨fun u hu => absurd hu (hun u), fun _ => hout hst hk, fun u hu => absurd hu (hun u)⟩ }

/-- The exchange of `set_unowned`. -/
theorem unown {e : Tf} {k : Bool → Prog PageAct α} (hown : g.own = true)
    (hcap : g.captured = none) (hfail : PageSafe strict t (k false) g Q)
    (hsucc : PageSafe strict t (k true) { g with own := false, tested := false } Q) :
    PageSafe strict t (.act (.cas true e ⟨e.block, false⟩) k) g Q := by
  refine casWeak _
    (fun s γ hi hg _ => ⟨Or.inl rfl, fun _ _ => (hi.ownership.holder t).mp (hg ▸ hown)⟩)
    (fun s γ choice hi hg hw hc hok => ?_) hfail hsucc
  have howned : e.owned = true := hw ▸ hi.owned_of_own hg hown
  rw [Shared.exchange_unown howned, ← hw]
  exact lose_inv hi hg hown hcap fun hst _ => hok hst hw (fun _ => hc) (Or.inr ⟨rfl, howned, rfl⟩)

/-- The exchange of `try_unown`. -/
theorem tryUnown {k : Bool → Prog PageAct α} (hown : g.own = true) (hcap : g.captured = none)
    (htested : strict → g.tested = true)
    (hfail : PageSafe strict t (k false) { g with tested := false } Q)
    (hsucc : PageSafe strict t (k true) { g with own := false, tested := false } Q) :
    PageSafe strict t (.act (.cas false ⟨none, true⟩ ⟨none, false⟩) k) g Q := by
  refine Safe.act fun s γ choice r s' hi hg _ hex => ?_
  have hex : s.exec t (.cas false ⟨none, true⟩ ⟨none, false⟩) choice = some (r, s') := hex
  have hi : PageInv strict s γ := hi
  obtain ⟨fr, lo, hp⟩ := hi.partition
  have hv := hi.view t
  rw [hg] at hv
  refine ⟨fun _ => ⟨Or.inl rfl, fun _ _ => (hi.ownership.holder t).mp (hg ▸ hown)⟩, ?_⟩
  rcases exec_cas hex with ⟨rfl, hw, -, rfl⟩ | ⟨-, hw, -⟩ | ⟨rfl, -, rfl⟩
  · refine ⟨_, ?_, hsucc⟩
    have hbl : (⟨none, false⟩ : Tf) = ⟨s.page.xthreadFree.block, false⟩ := by rw [hw]
    rw [Shared.exchange_unown rfl, hbl]
    refine lose_inv hi hg hown hcap fun hst hk => ?_
    -- nothing is queued, so the block left by the test is outstanding
    obtain ⟨c, hc⟩ := hk.tested t (hv.tested hown (htested hst))
    have hq := hp.lists.queue
    rw [hw, Chain.none_iff] at hq
    rw [hq] at hc
    exact ⟨c, hc.resolve_right (by simp)⟩
  · cases hw
  · refine ⟨_, ?_, hfail⟩
    have hholder := (hi.ownership.holder t).mp (hg ▸ hown)
    refine hi.of_sameHolder hg ⟨rfl, rfl, rfl, rfl, rfl⟩ rfl rfl rfl
      ⟨fr, lo, hp.of_lists hp.lists rfl rfl rfl fun _ => Iff.rfl⟩
      ⟨hv.freeing, hv.link, hv.free, hv.captured, hv.pushed, by simp⟩
      (hi.others_of_own hg hown (fun _ _ => rfl) fun _ _ _ _ => rfl) hi.idle fun _ hk => ?_
    have hun : ∀ u, Function.update s.tested t false u = true → s.tested u = true := fun u hu => by
      by_cases hut : u = t
      · subst hut
        simp at hu
      · simpa [hut] using hu
    exact ⟨fun u hu => hk.holder u (hun u hu), hk.unowned, fun u hu => hk.tested u (hun u hu)⟩

/-! ## Events of the thread that holds the page -/

/-- The holder reads the head of `free`. -/
theorem free {k : Option Blk → Prog PageAct α} (hown : g.own = true)
    (h : ∀ v, PageSafe strict t (k v) { g with free := some v } Q) :
    PageSafe strict t (.act .free k) g Q := by
  refine Safe.act fun s γ choice r s' hi hg _ hex => ⟨trivial, _, ?_, h r⟩
  have hi : PageInv strict s γ := hi
  cases hex
  have hv := hi.view t
  rw [hg] at hv
  exact hi.of_own hg hown ⟨rfl, rfl, rfl, rfl, rfl⟩ hown rfl rfl hi.partition
    ⟨hv.freeing, hv.link, fun _ _ hf => by cases hf; rfl, hv.captured, hv.pushed, hv.tested⟩
    rfl rfl rfl rfl fun _ _ _ => rfl

/-- The holder pops the block it has read. -/
theorem pop {b : Blk} {k : Unit → Prog PageAct α} (hown : g.own = true)
    (hfree : g.free = some (some b)) (h : PageSafe strict t (k ()) { g with free := none } Q) :
    PageSafe strict t (.act (.pop b) k) g Q := by
  refine Safe.act fun s γ choice r s' hi hg _ hex => ⟨?_, _, ?_, h⟩
  have hi : PageInv strict s γ := hi
  · have hv := hi.view t
    rw [hg] at hv
    exact ⟨(hi.ownership.holder t).mp (hg ▸ hown), hv.free hown _ hfree⟩
  cases hex
  obtain ⟨fr, lo, hp⟩ := hi.partition
  have hv := hi.view t
  rw [hg] at hv
  obtain ⟨-, fr', -, hp'⟩ := hp.pop (hv.free hown _ hfree)
  refine hi.of_sameHolder hg ⟨rfl, rfl, rfl, rfl, rfl⟩ rfl rfl rfl ⟨fr', lo, hp'⟩
    ⟨hv.freeing, hv.link, by simp, hv.captured, hv.pushed, hv.tested⟩
    (hi.others_of_own hg hown (fun _ _ => rfl) fun _ _ _ _ => rfl) hi.idle fun _ hk => ?_
  have hmono : ∀ c, s.Outstanding c →
      Shared.Outstanding { s with page := s.page.pop b, live := b :: s.live } c :=
    fun c hc => hc.imp_left (List.mem_cons_of_mem b)
  exact ⟨hk.holder, fun hn => (hk.unowned hn).imp hmono,
    fun u hu => (hk.tested u hu).imp fun c hc => hc.imp_left (hmono c)⟩

/-- The holder puts the block it frees on `local_free`. -/
theorem freeLocal {b : Blk} {k : Unit → Prog PageAct α} (hown : g.own = true)
    (hb : g.freeing = some b)
    (h : PageSafe strict t (k ()) { g with
      freeing := none, link := none, free := none, tested := false } Q) :
    PageSafe strict t (.act (.freeLocal b) k) g Q := by
  refine Safe.act fun s γ choice r s' hi hg _ hex => ?_
  have hi : PageInv strict s γ := hi
  cases hex
  obtain ⟨fr, lo, hp⟩ := hi.partition
  have hv := hi.view t
  rw [hg] at hv
  have hfree : s.freeing t = some b := hv.freeing.trans hb
  have hholder := (hi.ownership.holder t).mp (hg ▸ hown)
  refine ⟨⟨hholder, hfree⟩, _, ?_, h⟩
  refine hi.of_sameHolder hg ⟨rfl, rfl, rfl, rfl, rfl⟩ rfl rfl rfl
    ⟨fr, b :: lo, hp.freeLocal hfree _⟩
    ⟨by simp, by simp, by simp, hv.captured, hv.pushed, by simp⟩
    (hi.others_of_own hg hown (fun u hu => Function.update_of_ne hu _ _) fun u c hu hc => ?_)
    hi.idle fun _ hk => ?_
  · have hne : c ≠ b := fun hcb => hu (hp.freeing_inj u t b (hcb ▸ hc) hfree)
    exact Function.update_of_ne hne _ _
  · have hun : ∀ u, Function.update s.tested t false u ≠ true := fun u hu => by
      by_cases hut : u = t
      · subst hut
        simp at hu
      · have hu : s.tested u = true := by simpa [hut] using hu
        exact hut (Option.some.inj ((hk.holder u hu).symm.trans hholder))
    exact ⟨fun u hu => absurd hu (hun u), fun hn => absurd (hholder.symm.trans hn) (by simp),
      fun u hu => absurd hu (hun u)⟩

/-- The holder moves its first captured block to `free`. -/
theorem splice {tf : Blk} {k : Option Blk → Prog PageAct α} (hown : g.own = true)
    (hcap : g.captured = some tf)
    (h : ∀ r, PageSafe strict t (k r) { g with captured := r, free := none } Q) :
    PageSafe strict t (.act (.splice tf) k) g Q := by
  refine Safe.act fun s γ choice r s' hi hg _ hex => ⟨?_, _, ?_, h r⟩
  have hi : PageInv strict s γ := hi
  · have hv := hi.view t
    rw [hg] at hv
    exact ⟨(hi.ownership.holder t).mp (hg ▸ hown), (hv.captured hown).trans hcap⟩
  cases hex
  obtain ⟨fr, lo, hp⟩ := hi.partition
  have hv := hi.view t
  rw [hg] at hv
  obtain ⟨l, hl⟩ : ∃ l, s.captured = tf :: l := by
    have := hv.captured hown
    rw [hcap] at this
    exact ⟨_, (List.eq_cons_of_mem_head? this)⟩
  obtain ⟨hnext, hp'⟩ := hp.splice hl
  refine hi.of_own hg hown ⟨rfl, rfl, rfl, rfl, rfl⟩ hown rfl rfl ⟨tf :: fr, lo, hp'⟩
    ⟨hv.freeing, fun b v hb hlk => ?_, by simp, fun _ => by simp [hl, hnext], hv.pushed, hv.tested⟩
    rfl rfl rfl rfl fun u b hb => ?_
  · have hne : b ≠ tf := fun hbt =>
      hp.out_off b (Or.inr ⟨t, hv.freeing.trans hb⟩) (by simp [hl, hbt])
    exact (Function.update_of_ne hne _ _).trans (hv.link b v hb hlk)
  · have hne : b ≠ tf := fun hbt => hp.out_off b (Or.inr ⟨u, hb⟩) (by simp [hl, hbt])
    exact Function.update_of_ne hne _ _

/-- The holder adopts `local_free`. -/
theorem adoptLocal {k : Unit → Prog PageAct α} (hown : g.own = true)
    (h : PageSafe strict t (k ()) { g with free := none } Q) :
    PageSafe strict t (.act .adoptLocal k) g Q := by
  refine Safe.act fun s γ choice r s' hi hg _ hex => ⟨?_, _, ?_, h⟩
  · have hi : PageInv strict s γ := hi
    exact (hi.ownership.holder t).mp (hg ▸ hown)
  have hi : PageInv strict s γ := hi
  cases hex
  obtain ⟨fr, lo, hp⟩ := hi.partition
  have hv := hi.view t
  rw [hg] at hv
  have hnext : ∀ u b, s.freeing u = some b → s.page.adoptLocal.next b = s.page.next b :=
    fun u b hb => hp.lists.adoptLocal_next fun hm => hp.out_off b (Or.inr ⟨u, hb⟩) (by simp [hm])
  refine hi.of_own hg hown ⟨by simp [Lists.adoptLocal_xthreadFree], rfl, rfl, rfl, rfl⟩ hown rfl rfl
    ⟨_, _, hp.adoptLocal⟩
    ⟨hv.freeing, fun b v hb hlk => ?_, by simp, hv.captured, hv.pushed, hv.tested⟩
    rfl rfl rfl rfl hnext
  exact (hnext t b (hv.freeing.trans hb)).trans (hv.link b v hb hlk)

/-- The holder threads fresh blocks. -/
theorem extendFree {k : Unit → Prog PageAct α} (hown : g.own = true)
    (h : PageSafe strict t (k ()) { g with free := none } Q) :
    PageSafe strict t (.act .extendFree k) g Q := by
  refine Safe.act fun s γ choice r s' hi hg _ hex => ⟨?_, _, ?_, h⟩
  · have hi : PageInv strict s γ := hi
    exact (hi.ownership.holder t).mp (hg ▸ hown)
  have hi : PageInv strict s γ := hi
  cases hex
  obtain ⟨fr, lo, hp⟩ := hi.partition
  have hv := hi.view t
  rw [hg] at hv
  have hnext : ∀ u b, s.freeing u = some b → s.page.extendFree.next b = s.page.next b :=
    fun u b hb => hp.lists.extendFree_next (hp.out_lt b (Or.inr ⟨u, hb⟩))
  refine hi.of_own hg hown ⟨by simp [Lists.extendFree_xthreadFree], rfl, rfl, rfl, rfl⟩ hown rfl rfl
    ⟨_, _, hp.extendFree⟩
    ⟨hv.freeing, fun b v hb hlk => ?_, by simp, hv.captured, hv.pushed, hv.tested⟩
    rfl rfl rfl rfl hnext
  exact (hnext t b (hv.freeing.trans hb)).trans (hv.link b v hb hlk)

/-- The holder tests whether all blocks are free, when it has nothing left to splice. -/
theorem isAllFree {k : Bool → Prog PageAct α} (hown : g.own = true) (hcap : g.captured = none)
    (h : ∀ r, PageSafe strict t (k r) { g with tested := !r } Q) :
    PageSafe strict t (.act .isAllFree k) g Q := by
  refine Safe.act fun s γ choice r s' hi hg _ hex => ⟨trivial, _, ?_, h r⟩
  have hi : PageInv strict s γ := hi
  cases hex
  obtain ⟨fr, lo, hp⟩ := hi.partition
  have hv := hi.view t
  rw [hg] at hv
  have hholder := (hi.ownership.holder t).mp (hg ▸ hown)
  have hempty := hi.captured_eq_nil hg hown hcap
  refine hi.of_sameHolder hg ⟨rfl, rfl, rfl, rfl, rfl⟩ rfl rfl rfl
    ⟨fr, lo, hp.of_lists hp.lists rfl rfl rfl fun _ => Iff.rfl⟩
    ⟨hv.freeing, hv.link, hv.free, hv.captured, hv.pushed, fun _ ht => by simpa using ht⟩
    (hi.others_of_own hg hown (fun _ _ => rfl) fun _ _ _ _ => rfl) hi.idle fun _ hk => ?_
  refine ⟨fun u hu => ?_, fun hn => absurd (hholder.symm.trans hn) (by simp), fun u hu => ?_⟩ <;>
    by_cases hut : u = t
  · exact hut ▸ hholder
  · exact hk.holder u (by simpa [hut] using hu)
  · subst hut
    exact hp.exists_of_used hempty (by simpa using hu)
  · exact hk.tested u (by simpa [hut] using hu)

/-- The holder moves what is queued behind a block that it knows to be queued. -/
theorem collectBehind {b : Blk} {k : Unit → Prog PageAct α} (hown : g.own = true)
    (hb : g.pushed = some b)
    (h : PageSafe strict t (k ()) { g with free := none, tested := false } Q) :
    PageSafe strict t (.act (.collectBehind b) k) g Q := by
  refine Safe.act fun s γ choice r s' hi hg _ hex => ?_
  have hi : PageInv strict s γ := hi
  cases hex
  obtain ⟨fr, lo, hp⟩ := hi.partition
  have hv := hi.view t
  rw [hg] at hv
  have hholder := (hi.ownership.holder t).mp (hg ▸ hown)
  have hmem : b ∈ s.queue := hv.pushed hown b hb
  refine ⟨⟨hholder, hmem⟩, _, ?_, h⟩
  obtain ⟨fr', lo', hp'⟩ := hp.collectBehind hmem (Function.update s.tested t false)
  have hnext : ∀ u c, s.freeing u = some c → (s.page.collectBehind b).next c = s.page.next c :=
    fun u c hc => hp.collectBehind_next hmem fun hm => hp.out_off c (Or.inr ⟨u, hc⟩) (by simp [hm])
  refine hi.of_sameHolder hg ⟨by simp [Lists.collectBehind_xthreadFree], rfl, rfl, rfl, rfl⟩
    rfl rfl rfl ⟨fr', lo', hp'⟩
    ⟨hv.freeing, fun c v hc hlk => ?_, by simp, hv.captured, fun _ c hc => ?_, by simp⟩
    (hi.others_of_own hg hown (fun _ _ => rfl) fun u c _ hc => hnext u c hc) hi.idle fun _ hk => ?_
  · exact (hnext t c (hv.freeing.trans hc)).trans (hv.link c v hc hlk)
  · cases hb.symm.trans hc
    simp
  · have hun : ∀ u, Function.update s.tested t false u ≠ true := fun u hu => by
      by_cases hut : u = t
      · subst hut
        simp at hu
      · have hu : s.tested u = true := by simpa [hut] using hu
        exact hut (Option.some.inj ((hk.holder u hu).symm.trans hholder))
    exact ⟨fun u hu => absurd hu (hun u), fun hn => absurd (hholder.symm.trans hn) (by simp),
      fun u hu => absurd hu (hun u)⟩

end PageSafe

end MimallocRs
