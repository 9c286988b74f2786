import MimallocRs.Page.Runs

/-!
# Pages that are given up

A page that nobody holds is returned to its arena by the free of its last block, so it must not be
given up when no such free can come. Two places of the source do so. `abandon_owned_page` clears
the ownership bit by `set_unowned`, whatever has been pushed since it found the page not all free;
and `is_full`, between that test and the release, collects, so that `try_unown` finds an empty
queue although nothing is in use. `page_stranded` is a run that ends in such a page.
`no_page_stranded` is what holds: a run in which both steps happen only while a block is
outstanding leaves no such page behind.
-/

namespace MimallocRs

open Interleave

variable {Tid : Type} [DecidableEq Tid] {strict : Prop}

/-! ## Runs of the allocator's operations on a page -/

/-- A thread between two operations. -/
def abandonIdle (_ : Tid) (g : Ghost) : Prop := g.freeing = none ∧ g.captured = none

/-- A thread whose operation has returned. -/
def abandonPost (_ : Tid) (o : AbandonOp) (r : o.Res) (g : Ghost) : Prop :=
  g.freeing = none ∧ g.captured = none ∧ (o.claimed r = true → g.own = true)

theorem abandonSystem_start {blockSize : ℕ} {t : Tid} {o : AbandonOp} {s s' : Shared Tid}
    {γ : Tid → Ghost} (hi : PageInv strict s γ) (hidle : abandonIdle t (γ t))
    (hs : (abandonSystem Tid blockSize).start t o s = some s') :
    ∃ g, PageInv strict s' (Function.update γ t g) ∧
      PageSafe strict t ((abandonSystem Tid blockSize).prog t o) g (abandonPost t o) := by
  obtain ⟨hfreeing, hcap⟩ := hidle
  have keep : ∀ {r : o.Res} {g : Ghost}, o.claimed r = false → g.toHold = (γ t).toHold →
      abandonPost t o r g := fun {r g} hr hg =>
    ⟨(congrArg Hold.freeing hg).trans hfreeing, (congrArg Hold.captured hg).trans hcap,
      fun h => by rw [hr] at h; cases h⟩
  cases o with
  | alloc =>
    obtain ⟨rfl, hown⟩ := hi.own_of_asOwner hs
    exact ⟨γ t, by rwa [Function.update_eq_self],
      (Page.alloc_safe hown hcap).mono fun _ _ => keep rfl⟩
  | collect =>
    obtain ⟨rfl, hown⟩ := hi.own_of_asOwner hs
    exact ⟨γ t, by rwa [Function.update_eq_self],
      (Page.collect_safe hown hcap).mono fun _ _ => keep rfl⟩
  | freeLocal b =>
    obtain ⟨s₁, ho, ht⟩ := Option.bind_eq_some_iff.mp hs
    obtain ⟨rfl, hown⟩ := hi.own_of_asOwner ho
    exact ⟨_, hi.take hfreeing ht, PageSafe.freeLocal hown rfl
      (Safe.ret ⟨rfl, hcap, fun h => by cases h⟩)⟩
  | exit =>
    obtain ⟨rfl, hown⟩ := hi.own_of_asOwner hs
    exact ⟨γ t, by rwa [Function.update_eq_self], (Page.abandonOwnedPage_safe hown hcap).mono
      fun _ _ hg => ⟨hg.1.trans hfreeing, hg.2, fun h => by cases h⟩⟩
  | free b =>
    have hfree : PageSafe strict t (Page.freeMt (blockSize ≤ miSmallSizeMax) b)
        { γ t with freeing := some b, link := none } fun _ g' =>
          g'.freeing = none ∧ g'.captured = none := Page.freeMt_safe hcap rfl
    exact ⟨_, hi.take hfreeing hs, hfree.mono fun _ _ hg => ⟨hg.1, hg.2, fun h => by cases h⟩⟩
  | reclaim tid =>
    have hs : (if s.released then none else some s) = some s' := hs
    split at hs <;> cases hs
    refine ⟨γ t, by rwa [Function.update_eq_self], Page.reclaim_safe.mono fun r g hg => ?_⟩
    cases r with
    | true =>
      exact ⟨(congrArg Hold.freeing hg).trans hfreeing, congrArg Hold.captured hg,
        fun _ => congrArg Hold.own hg⟩
    | false => exact keep rfl hg

theorem abandonSystem_finish {blockSize : ℕ} {t : Tid} {o : AbandonOp} {r : o.Res}
    {s : Shared Tid} {γ : Tid → Ghost} (hi : PageInv strict s γ) (hpost : abandonPost t o r (γ t)) :
    ∃ g, PageInv strict ((abandonSystem Tid blockSize).finish t o r s) (Function.update γ t g) ∧
      abandonIdle t g := by
  obtain ⟨hfreeing, hcap, hown⟩ := hpost
  simp only [abandonSystem]
  split
  · next hr => exact ⟨_, hi.report (hown hr), hfreeing, hcap⟩
  · exact ⟨γ t, by rwa [Function.update_eq_self], hfreeing, hcap⟩

/-- The moves by which no thread gives the page up while nothing of it is outstanding. -/
def KeepsOutstanding (c : Config PageAct Tid AbandonOp AbandonOp.Res (Shared Tid))
    (m : Move Tid AbandonOp) : Prop :=
  ∀ ⦃t choice o⦄ ⦃β : Type⦄ ⦃e : PageAct β⦄ ⦃k : β → Prog PageAct o.Res⦄, m = .step t choice →
    c.thread t = some ⟨o, .act e k⟩ → keepsOutstanding t e c.mem choice

/-- The invariant of a page, over every run of the allocator's operations on it; `strict` is for
runs whose moves keep a block outstanding. -/
theorem abandonSystem_reachable (strict : Prop) {blockSize : ℕ}
    {c : Config PageAct Tid AbandonOp AbandonOp.Res (Shared Tid)}
    {ok : Config PageAct Tid AbandonOp AbandonOp.Res (Shared Tid) → Move Tid AbandonOp → Prop}
    (hok : strict → ∀ c m, ok c m → KeepsOutstanding c m)
    (h : (abandonSystem Tid blockSize).Reachable Shared.Init ok c) :
    ∃ γ, PageInv strict c.mem γ ∧ ∀ t, (pageOutline Tid strict).Thread (machine Tid) abandonIdle
      abandonPost t (γ t) (c.thread t) := by
  refine Outline.reachable (O := pageOutline Tid strict) (fun s hs => ?_) ?_ ?_ ?_ h
  · obtain ⟨o, hi⟩ := hs.pageInv
    exact ⟨_, hi, fun t => ⟨rfl, rfl⟩⟩
  · exact fun t o s s' γ hi hidle hs => abandonSystem_start hi hidle hs
  · exact fun t o r s γ hi hpost => abandonSystem_finish hi hpost
  · exact fun c m hm _ _ _ _ _ _ hstep ht hst => hok hst c m hm hstep ht

/-! ## Stranded pages -/

/-- **No page is stranded** by a run in which `set_unowned`, and a collect that follows a failed
test for emptiness, happen only while some block is outstanding. -/
theorem no_page_stranded {blockSize : ℕ}
    {c : Config PageAct Tid AbandonOp AbandonOp.Res (Shared Tid)}
    (h : (abandonSystem Tid blockSize).Reachable Shared.Init KeepsOutstanding c)
    (hq : c.Quiescent) (hun : c.mem.page.xthreadFree.owned = false) : ∃ b, b ∈ c.mem.live := by
  obtain ⟨γ, hi, hth⟩ := abandonSystem_reachable True (fun _ _ _ hm => hm) h
  obtain ⟨b, hb⟩ := (hi.kept trivial).unowned (hi.holder_eq_none hun)
  rcases hb with hb | ⟨t, ht⟩
  · exact ⟨b, hb⟩
  · -- no operation is in progress, so nothing is being freed
    have hidle := hth t
    rw [hq t] at hidle
    rw [(hi.view t).freeing, hidle.1] at ht
    cases ht

/-- Moves of two threads on a huge page that `true` has created, each made from a configuration
that passes the test. -/
def hugeAbandonRun (test : Config PageAct Bool AbandonOp AbandonOp.Res (Shared Bool) → Bool)
    (ms : List (Move Bool AbandonOp)) :
    Option (Config PageAct Bool AbandonOp AbandonOp.Res (Shared Bool)) :=
  (abandonSystem Bool 4194304).runChecked test ms
    ⟨Shared.fresh true (Page.initHuge 4194304 8 true).serveHuge [0], fun _ => none⟩

theorem hugeAbandonRun_reachable
    {test : Config PageAct Bool AbandonOp AbandonOp.Res (Shared Bool) → Bool}
    {ok : Config PageAct Bool AbandonOp AbandonOp.Res (Shared Bool) → Move Bool AbandonOp → Prop}
    (htest : ∀ c m, test c = true → ok c m) {ms : List (Move Bool AbandonOp)}
    {c : Config PageAct Bool AbandonOp AbandonOp.Res (Shared Bool)}
    (h : hugeAbandonRun test ms = some c) :
    (abandonSystem Bool 4194304).Reachable Shared.Init ok c :=
  System.Reachable.runChecked htest (.init (.huge true 4194304 8 true)) h

omit [DecidableEq Tid] in
/-- While a block is live, every move keeps a block outstanding. -/
theorem keepsOutstanding_of_live
    {c : Config PageAct Tid AbandonOp AbandonOp.Res (Shared Tid)} (hlive : c.mem.live ≠ [])
    (m : Move Tid AbandonOp) : KeepsOutstanding c m := by
  obtain ⟨b, hb⟩ := List.exists_mem_of_ne_nil _ hlive
  intro t choice o β e k _ _
  cases e <;> first | trivial | exact fun _ _ _ => ⟨b, Or.inl hb⟩

/-- The owner of a huge page exits while its block is live. -/
theorem no_page_stranded_exit :
    ∃ c, hugeAbandonRun (fun c => !c.mem.live.isEmpty)
        (.start true .exit :: List.replicate 16 (.step true 0) ++ [.finish true]) = some c ∧
      c.mem.page.xthreadFree.owned = false ∧ ∃ b, b ∈ c.mem.live := by
  obtain ⟨c, hc⟩ : ∃ c, hugeAbandonRun (fun c => !c.mem.live.isEmpty)
      (.start true .exit :: List.replicate 16 (.step true 0) ++ [.finish true]) = some c := ⟨_, rfl⟩
  have hun : c.mem.page.xthreadFree.owned = false := by
    cases hc
    rfl
  have hq : c.Quiescent := by
    cases hc
    intro t
    cases t <;> rfl
  refine ⟨c, hc, hun, no_page_stranded (hugeAbandonRun_reachable (fun c m ht => ?_) hc) hq hun⟩
  exact keepsOutstanding_of_live (by simpa using ht) m

/-- The owner of a huge page exits; between the collect of its `is_full` and its `set_unowned`
another thread frees the block. -/
theorem page_stranded :
    ¬ ∀ c, (abandonSystem Bool 4194304).Reachable Shared.Init System.anyMove c → c.Quiescent →
      c.mem.page.xthreadFree.owned = false → ∃ b, b ∈ c.mem.live := by
  intro h
  obtain ⟨c, hc⟩ : ∃ c, hugeAbandonRun (fun _ => true)
      (.start true .exit :: List.replicate 7 (.step true 0) ++
        .start false (.free 0) :: List.replicate 4 (.step false 0) ++
        .finish false :: List.replicate 9 (.step true 0) ++ [.finish true]) = some c := ⟨_, rfl⟩
  obtain ⟨b, hb⟩ := h c (hugeAbandonRun_reachable (fun _ _ _ => trivial) hc)
    (by cases hc; intro t; cases t <;> rfl) (by cases hc; rfl)
  cases hc
  cases hb

end MimallocRs
