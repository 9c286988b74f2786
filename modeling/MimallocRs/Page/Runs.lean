import MimallocRs.Page.Outline

/-!
# Runs of a page

The invariant of a page in every reachable configuration of the two systems of
`Page/Shared.lean`: it holds of a fresh page, what starts and finishes a call keeps it, and the
calls keep it by `Page/Outline.lean`.
-/

namespace MimallocRs

open Interleave

variable {Tid : Type} [DecidableEq Tid] {strict : Prop}

/-! ## The ends of a run and of a call -/

/-- What a thread knows of a fresh page of the thread `o`. -/
def Ghost.fresh (o t : Tid) : Ghost where
  own := o = t
  freeing := none
  captured := none
  tested := false
  gained := 0
  reported := 0
  link := none
  free := none
  pushed := none

theorem pageInv_fresh (o : Tid) {p : Page} {live : List Blk}
    (hp : Partition (Shared.fresh o p live) [] []) (howned : p.xthreadFree.owned = true) :
    PageInv strict (Shared.fresh o p live) (Ghost.fresh o) where
  ownership := {
    owned := howned
    holder := fun t => by simp [Ghost.fresh, Shared.fresh]
    told := fun t ht => by
      have : t = o := by simpa [Shared.fresh] using ht
      rw [this]
      rfl
    gains := fun _ => rfl
    reports := fun _ => rfl }
  partition := ⟨[], [], hp⟩
  view t := ⟨rfl, by simp [Ghost.fresh], by simp [Ghost.fresh], by simp [Shared.fresh, Ghost.fresh],
    by simp [Ghost.fresh], by simp [Ghost.fresh]⟩
  idle hn := by cases hn
  kept _ := by
    refine ⟨fun t ht => ?_, fun hn => ?_, fun t ht => ?_⟩
    · cases ht
    · cases hn
    · cases ht

/-- The invariant holds of the pages that runs start from. -/
theorem Shared.Init.pageInv {s : Shared Tid} (h : s.Init) :
    ∃ o, PageInv strict s (Ghost.fresh o) := by
  cases h with
  | small o sliceCount blockSize tid isZero =>
    refine ⟨o, pageInv_fresh o ?_ rfl⟩
    have hout : ∀ b, ¬ (Shared.fresh o (Page.init sliceCount blockSize tid isZero) []).Outstanding b :=
      fun b hb => by simp [Shared.Outstanding, Shared.fresh] at hb
    exact {
      lists := ⟨rfl, rfl, rfl, rfl, List.nodup_nil, by simp [Shared.fresh], rfl, Nat.zero_le _⟩
      live_nodup := List.nodup_nil
      out_lt := fun b hb => absurd hb (hout b)
      out_off := fun b hb => absurd hb (hout b)
      freeing_live := fun t b hb => by cases hb
      freeing_inj := fun t u b hb => by cases hb
      cover := fun b hb => absurd hb (Nat.not_lt_zero b) }
  | huge o blockSize tid isZero =>
    refine ⟨o, pageInv_fresh o ?_ rfl⟩
    have hout : ∀ b, (Shared.fresh o (Page.initHuge blockSize tid isZero).serveHuge [0]).Outstanding b
        ↔ b = 0 := fun b => by simp [Shared.Outstanding, Shared.fresh]
    exact {
      lists := ⟨rfl, rfl, rfl, rfl, List.nodup_nil, by simp [Shared.fresh], rfl, Nat.le_refl 1⟩
      live_nodup := by simp [Shared.fresh]
      out_lt := fun b hb => by
        rw [(hout b).mp hb]
        exact Nat.zero_lt_one
      out_off := fun b _ => by simp [Shared.fresh]
      freeing_live := fun t b hb => by cases hb
      freeing_inj := fun t u b hb => by cases hb
      cover := fun b hb => Or.inl ((hout b).mpr (Nat.lt_one_iff.mp hb)) }

section Ends

variable {s s' : Shared Tid} {γ : Tid → Ghost} {t : Tid} {b : Blk}

/-- A thread starts to free a live block. -/
theorem PageInv.take (h : PageInv strict s γ) (hidle : (γ t).freeing = none)
    (ht : s.take t b = some s') :
    PageInv strict s' (Function.update γ t { γ t with freeing := some b, link := none }) := by
  obtain ⟨fr, lo, hp⟩ := h.partition
  have hfree : s.freeing t = none := (h.view t).freeing.trans hidle
  have hout := hp.outstanding_take hfree ht
  have hp' := hp.take hfree ht
  unfold Shared.take at ht
  split at ht
  · cases ht
    have hv := h.view t
    refine h.of_sameHolder rfl ⟨rfl, rfl, rfl, rfl, rfl⟩ rfl rfl rfl ⟨fr, lo, hp'⟩
      ⟨by simp, by simp, hv.free, hv.captured, hv.pushed, hv.tested⟩ (fun u hu => ?_) h.idle
      fun _ hk => ?_
    · have hvu := h.view u
      exact ⟨(Function.update_of_ne hu _ _).trans hvu.freeing, hvu.link, hvu.free, hvu.captured,
        hvu.pushed, hvu.tested⟩
    · exact ⟨hk.holder, fun hn => (hk.unowned hn).imp fun c => (hout c).mpr,
        fun u hu => (hk.tested u hu).imp fun c hc => hc.imp_left (hout c).mpr⟩
  · cases ht

/-- A call tells its thread that it made the word owned. -/
theorem PageInv.report (h : PageInv strict s γ) (hown : (γ t).own = true) :
    PageInv strict (s.report t)
      (Function.update γ t { γ t with reported := (γ t).reported + 1 }) := by
  obtain ⟨fr, lo, hp⟩ := h.partition
  have key : ∀ u, (Function.update γ t { γ t with reported := (γ t).reported + 1 } u).own =
      (γ u).own ∧ (Function.update γ t { γ t with reported := (γ t).reported + 1 } u).gained =
      (γ u).gained := fun u => by
    by_cases hu : u = t
    · subst hu
      simp
    · simp [hu]
  exact {
    ownership := {
      owned := h.ownership.owned
      holder := fun u => by
        rw [(key u).1]
        exact h.ownership.holder u
      told := fun u hu => by
        by_cases hut : u = t
        · exact hut ▸ (h.ownership.holder t).mp hown
        · exact h.ownership.told u (by simpa [Shared.report, hut] using hu)
      gains := fun u => by
        rw [(key u).2]
        exact h.ownership.gains u
      reports := fun u => by
        have hr := h.ownership.reports u
        by_cases hut : u = t
        · subst hut
          simp [Shared.report, hr]
        · simp [Shared.report, hut, hr] }
    partition := ⟨fr, lo, hp.of_lists hp.lists rfl rfl rfl fun _ => Iff.rfl⟩
    view := View.of_update ⟨(h.view t).freeing, (h.view t).link, (h.view t).free,
      (h.view t).captured, (h.view t).pushed, (h.view t).tested⟩ fun u _ =>
      ⟨(h.view u).freeing, (h.view u).link, (h.view u).free, (h.view u).captured,
        (h.view u).pushed, (h.view u).tested⟩
    idle := h.idle
    kept := fun hs => ⟨(h.kept hs).holder, (h.kept hs).unowned, (h.kept hs).tested⟩ }

omit [DecidableEq Tid] in
/-- A thread that may make an owner's call holds the page. -/
theorem PageInv.own_of_asOwner (h : PageInv strict s γ) (ho : s.asOwner t = some s') :
    s' = s ∧ (γ t).own = true := by
  unfold Shared.asOwner at ho
  split at ho
  · next hc =>
    cases ho
    exact ⟨rfl, (h.ownership.holder t).mpr (h.ownership.told t hc.1)⟩
  · cases ho

end Ends

/-! ## Runs -/

/-- A thread between two calls. -/
def pageIdle (_ : Tid) (g : Ghost) : Prop :=
  g.freeing = none ∧ g.captured = none ∧ g.gained = g.reported

/-- A thread whose call has returned. -/
def pagePost (_ : Tid) (o : PageOp) (r : o.Res) (g : Ghost) : Prop :=
  g.freeing = none ∧ g.captured = none ∧ g.gained = g.reported + (o.claimed r).toNat ∧
    (o.claimed r = true → g.own = true)

omit [DecidableEq Tid] in
/-- A call that tells its thread nothing returns to an idle thread. -/
theorem pagePost_of_idle {t : Tid} {o : PageOp} {r : o.Res} {g : Ghost} (hr : o.claimed r = false)
    (hfreeing : g.freeing = none) (hcap : g.captured = none) (hgained : g.gained = g.reported) :
    pagePost t o r g :=
  ⟨hfreeing, hcap, by simpa [hr] using hgained, fun h => by rw [hr] at h; cases h⟩

theorem pageSystem_start {t : Tid} {o : PageOp} {s s' : Shared Tid} {γ : Tid → Ghost}
    (hi : PageInv False s γ) (hidle : pageIdle t (γ t)) (hs : (pageSystem Tid).start t o s = some s') :
    ∃ g, PageInv False s' (Function.update γ t g) ∧
      PageSafe False t ((pageSystem Tid).prog t o) g (pagePost t o) := by
  obtain ⟨hfreeing, hcap, hgained⟩ := hidle
  -- a call that leaves the ghost as it found it
  have keep : ∀ {r : o.Res} {g : Ghost}, o.claimed r = false → g.toHold = (γ t).toHold →
      pagePost t o r g := fun hr hg =>
    pagePost_of_idle hr ((congrArg Hold.freeing hg).trans hfreeing)
      ((congrArg Hold.captured hg).trans hcap)
      ((congrArg Hold.gained hg).trans (hgained.trans (congrArg Hold.reported hg).symm))
  cases o with
  | alloc =>
    obtain ⟨rfl, hown⟩ := hi.own_of_asOwner hs
    exact ⟨γ t, by rwa [Function.update_eq_self],
      (Page.alloc_safe hown hcap).mono fun _ _ => keep rfl⟩
  | collect =>
    obtain ⟨rfl, hown⟩ := hi.own_of_asOwner hs
    exact ⟨γ t, by rwa [Function.update_eq_self],
      (Page.collect_safe hown hcap).mono fun _ _ => keep rfl⟩
  | freeLocal b =>
    obtain ⟨s₁, ho, ht⟩ := Option.bind_eq_some_iff.mp hs
    obtain ⟨rfl, hown⟩ := hi.own_of_asOwner ho
    exact ⟨_, hi.take hfreeing ht, PageSafe.freeLocal hown rfl
      (Safe.ret (pagePost_of_idle rfl rfl hcap hgained))⟩
  | push b =>
    refine ⟨_, hi.take hfreeing hs, (Page.threadFreePush_safe rfl).mono fun r g hg => ?_⟩
    subst hg
    cases r with
    | true => exact ⟨rfl, rfl, congrArg (· + 1) hgained, fun _ => rfl⟩
    | false => exact pagePost_of_idle rfl rfl hcap hgained
  | claim =>
    cases hs
    refine ⟨γ t, by rwa [Function.update_eq_self],
      Page.claimOwnership_safe.mono fun r g hg => ?_⟩
    cases r with
    | true =>
      exact ⟨(congrArg Hold.freeing hg).trans hfreeing, congrArg Hold.captured hg,
        ((congrArg Hold.gained hg).trans (congrArg (· + 1) hgained)).trans
          (congrArg (·.reported + 1) hg).symm, fun _ => congrArg Hold.own hg⟩
    | false => exact keep rfl hg
  | tryUnown =>
    obtain ⟨rfl, hown⟩ := hi.own_of_asOwner hs
    refine ⟨γ t, by rwa [Function.update_eq_self],
      (Page.tryUnown_safe hown hcap False.elim).mono fun r g hg => ?_⟩
    cases r <;>
    exact pagePost_of_idle rfl ((congrArg Hold.freeing hg).trans hfreeing)
      ((congrArg Hold.captured hg).trans hcap)
      ((congrArg Hold.gained hg).trans (hgained.trans (congrArg Hold.reported hg).symm))
  | setUnowned =>
    obtain ⟨rfl, hown⟩ := hi.own_of_asOwner hs
    refine ⟨γ t, by rwa [Function.update_eq_self],
      (Page.setUnowned_safe hown hcap).mono fun r g hg => ?_⟩
    exact pagePost_of_idle rfl ((congrArg Hold.freeing hg).trans hfreeing)
      ((congrArg Hold.captured hg).trans hcap)
      ((congrArg Hold.gained hg).trans (hgained.trans (congrArg Hold.reported hg).symm))

theorem pageSystem_finish {t : Tid} {o : PageOp} {r : o.Res} {s : Shared Tid} {γ : Tid → Ghost}
    (hi : PageInv False s γ) (hpost : pagePost t o r (γ t)) :
    ∃ g, PageInv False ((pageSystem Tid).finish t o r s) (Function.update γ t g) ∧
      pageIdle t g := by
  obtain ⟨hfreeing, hcap, hgained, hown⟩ := hpost
  simp only [pageSystem]
  split
  · next hr =>
    exact ⟨_, hi.report (hown hr), hfreeing, hcap, by simpa [hr] using hgained⟩
  · next hr =>
    exact ⟨γ t, by rwa [Function.update_eq_self], hfreeing, hcap, by simpa [hr] using hgained⟩

/-- **The invariant of a page**, over every run of its functions. -/
theorem pageSystem_reachable {c : Config PageAct Tid PageOp PageOp.Res (Shared Tid)}
    (h : (pageSystem Tid).Reachable Shared.Init System.anyMove c) :
    ∃ γ, PageInv False c.mem γ ∧
      ∀ t, (pageOutline Tid False).Thread (machine Tid) pageIdle pagePost t (γ t) (c.thread t) := by
  refine Outline.reachable (O := pageOutline Tid False) (fun s hs => ?_) ?_ ?_ ?_ h
  · obtain ⟨o, hi⟩ := hs.pageInv
    exact ⟨_, hi, fun t => ⟨rfl, rfl, rfl⟩⟩
  · exact fun t o s s' γ hi hidle hs => pageSystem_start hi hidle hs
  · exact fun t o r s γ hi hpost => pageSystem_finish hi hpost
  · exact fun c m _ => fun _ _ _ _ _ _ _ _ hf => hf.elim

/-- Every event of a page has an answer. -/
theorem exec_isSome {β : Type} (t : Tid) (e : PageAct β) (s : Shared Tid)
    (choice : ℕ) : ∃ r, s.exec t e choice = some r := by
  cases e
  case cas weak e n =>
    simp only [Shared.exec]
    split
    · exact ⟨_, rfl⟩
    · split <;> exact ⟨_, rfl⟩
  case casId e n =>
    simp only [Shared.exec]
    split <;> exact ⟨_, rfl⟩
  all_goals exact ⟨_, rfl⟩

/-- The assertions of the page outline in every reachable configuration. -/
theorem pageSystem_asserts {c : Config PageAct Tid PageOp PageOp.Res (Shared Tid)}
    (h : (pageSystem Tid).Reachable Shared.Init System.anyMove c) {t : Tid} {o : PageOp}
    {β : Type} {e : PageAct β} {k : β → Prog PageAct o.Res}
    (ht : c.thread t = some ⟨o, .act e k⟩) : pageAsserts t e c.mem := by
  obtain ⟨γ, hi, hth⟩ := pageSystem_reachable h
  obtain ⟨r, hr⟩ := exec_isSome t e c.mem 0
  exact Outline.asserts_of_thread (O := pageOutline Tid False) hi (hth t) ht (fun hf => hf.elim) hr

/-- Moves of two threads on a huge page that `true` has created. -/
def hugeRun (ms : List (Move Bool PageOp)) :
    Option (Config PageAct Bool PageOp PageOp.Res (Shared Bool)) :=
  (pageSystem Bool).run ms
    ⟨Shared.fresh true (Page.initHuge 4194304 8 true).serveHuge [0], fun _ => none⟩

theorem hugeRun_reachable {ms : List (Move Bool PageOp)}
    {c : Config PageAct Bool PageOp PageOp.Res (Shared Bool)} (h : hugeRun ms = some c) :
    (pageSystem Bool).Reachable Shared.Init System.anyMove c :=
  System.reachable_of_run (.huge true 4194304 8 true) h

end MimallocRs
