import MimallocRs.Page.Rules

/-!
# The page programs keep the invariant

What each function of `page.rs` and each hand-off of `heap.rs` leaves of a thread's ghost, from
the rules of `Page/Rules.lean`. From this the run rule gives the invariant of a page in every
reachable configuration of the two systems.
-/

namespace MimallocRs

open Interleave

variable {Tid : Type} [DecidableEq Tid] {strict : Prop} {t : Tid} {g : Ghost} {b : Blk}

namespace Hold

/-- The thread has made the word owned. -/
def claim (h : Hold) : Hold :=
  { h with own := true, captured := none, tested := false, gained := h.gained + 1 }

/-- The thread has made the word unowned. -/
def giveUp (h : Hold) : Hold := { h with own := false, tested := false }

end Hold

namespace Page

/-! ## Freeing from another thread -/

theorem threadFreePush_safe (hb : g.freeing = some b) :
    PageSafe strict t (threadFreePush b) g fun r g' => g' = PageSafe.afterPush g b (!r) := by
  refine Safe.loop (fun _ g' => ∃ l, g' = { g with link := l }) ?_ ⟨g.link, rfl⟩
  rintro - _ ⟨l, rfl⟩
  refine PageSafe.load fun cur => PageSafe.setNext hb (PageSafe.push hb rfl ?_ ?_)
  · exact Safe.ret ⟨_, rfl⟩
  · refine Safe.ret (Safe.ret ?_)
    cases cur.owned <;> rfl

/-! ## Collecting -/

theorem capture_safe (hown : g.own = true) (hcap : g.captured = none) :
    PageSafe strict t capture g fun r g' => g'.toHold = { g.toHold with captured := r } := by
  refine Safe.loop (fun _ g' => g' = g) ?_ rfl
  rintro - _ rfl
  refine PageSafe.load fun w => ?_
  obtain ⟨_ | tf, o⟩ := w
  · refine Safe.ret (Safe.ret ?_)
    rw [← hcap]
  · exact PageSafe.capture hown hcap rfl (Safe.ret rfl) (Safe.ret (Safe.ret rfl))

theorem spliceAll_safe {tf : Blk} (hown : g.own = true) (hcap : g.captured = some tf) :
    PageSafe strict t (spliceAll tf) g fun _ g' =>
      g'.toHold = { g.toHold with captured := none } := by
  refine Safe.loop (fun tf g' => g'.toHold = { g.toHold with captured := some tf }) ?_
    (by rw [← hcap])
  intro tf g₁ hg₁
  have hown₁ : g₁.own = true := (congrArg Hold.own hg₁).trans hown
  refine PageSafe.splice hown₁ (congrArg Hold.captured hg₁) fun r => ?_
  cases r with
  | none => exact Safe.ret (Safe.ret (by rw [hg₁]))
  | some tf => exact Safe.ret (by simp [hg₁])

theorem collect_safe (hown : g.own = true) (hcap : g.captured = none) :
    PageSafe strict t collect g fun _ g' => g'.toHold = g.toHold := by
  simp only [collect, Prog.bind_eq, Prog.perform_bind]
  refine Safe.bind ((capture_safe hown hcap).mono fun r g₁ hg₁ => ?_)
  have hown₁ : g₁.own = true := (congrArg Hold.own hg₁).trans hown
  cases r with
  | none => exact PageSafe.adoptLocal hown₁ (Safe.ret (by rw [hg₁, ← hcap]))
  | some tf =>
    refine PageSafe.clearZero (Safe.bind ((spliceAll_safe hown₁
      (congrArg Hold.captured hg₁)).mono fun _ g₂ hg₂ => ?_))
    have hown₂ : g₂.own = true := (congrArg Hold.own hg₂).trans hown₁
    exact PageSafe.adoptLocal hown₂ (Safe.ret (by rw [hg₂, hg₁, ← hcap]))

/-! ## Allocating -/

theorem allocSlow_safe (hown : g.own = true) (hcap : g.captured = none) :
    PageSafe strict t allocSlow g fun _ g' => g'.toHold = g.toHold := by
  simp only [allocSlow, Prog.bind_eq, Prog.pure_eq, Prog.perform_bind]
  refine Safe.bind ((collect_safe hown hcap).mono fun _ g₁ hg₁ => ?_)
  have hown₁ : g₁.own = true := (congrArg Hold.own hg₁).trans hown
  refine PageSafe.free hown₁ fun v => ?_
  cases v with
  | some b => exact PageSafe.pop hown₁ rfl (Safe.ret hg₁)
  | none =>
    refine PageSafe.extendFree hown₁ (PageSafe.free hown₁ fun v => ?_)
    cases v with
    | none => exact Safe.ret hg₁
    | some b => exact PageSafe.pop hown₁ rfl (Safe.ret hg₁)

theorem alloc_safe (hown : g.own = true) (hcap : g.captured = none) :
    PageSafe strict t alloc g fun _ g' => g'.toHold = g.toHold := by
  simp only [alloc, Prog.bind_eq, Prog.pure_eq, Prog.perform_bind]
  refine PageSafe.free hown fun v => ?_
  cases v with
  | none => exact allocSlow_safe hown hcap
  | some b => exact PageSafe.pop hown rfl (Safe.ret rfl)

theorem isFull_safe (hown : g.own = true) (hcap : g.captured = none) :
    PageSafe strict t isFull g fun _ g' => g'.toHold = g.toHold := by
  simp only [isFull, Prog.bind_eq, Prog.pure_eq, Prog.perform_bind]
  refine PageSafe.free hown fun v => ?_
  cases v with
  | some b => exact Safe.ret rfl
  | none =>
    have hcollect : PageSafe strict t collect { g with free := some none } fun _ g' =>
        g'.toHold = g.toHold := collect_safe hown hcap
    refine Safe.bind (hcollect.mono fun _ g₁ hg₁ => ?_)
    have hown₁ : g₁.own = true := (congrArg Hold.own hg₁).trans hown
    refine PageSafe.free hown₁ fun v => ?_
    cases v with
    | some b => exact Safe.ret hg₁
    | none => exact PageSafe.atCapacity fun _ => Safe.ret hg₁

theorem collectPartly_safe (hown : g.own = true) (hcap : g.captured = none)
    (hb : g.pushed = some b) :
    PageSafe strict t (collectPartly b) g fun _ g' =>
      g'.toHold = { g.toHold with tested := false } := by
  simp only [collectPartly, Prog.bind_eq, Prog.pure_eq, Prog.perform_bind]
  refine PageSafe.collectBehind hown hb (PageSafe.usedIsOne fun r => ?_)
  cases r with
  | false => exact Safe.ret rfl
  | true => exact collect_safe hown hcap

/-! ## Who owns the page -/

theorem setOwner_safe {tid : ℕ} : PageSafe strict t (setOwner tid) g fun _ g' => g' = g := by
  simp only [setOwner, Prog.bind_eq, Prog.perform_bind]
  refine PageSafe.loadId fun old => Safe.loop (fun _ g' => g' = g) ?_ rfl
  rintro old _ rfl
  refine PageSafe.casId fun r => ?_
  cases r with
  | none => exact Safe.ret (Safe.ret rfl)
  | some seen => exact Safe.ret rfl

theorem isAbandonedMapped_safe :
    PageSafe strict t isAbandonedMapped g fun _ g' => g' = g :=
  PageSafe.loadId fun _ => Safe.ret rfl

theorem claimOwnership_safe :
    PageSafe strict t claimOwnership g fun r g' =>
      g'.toHold = if r then g.toHold.claim else g.toHold := by
  refine Safe.loop (fun _ g' => g' = g) ?_ rfl
  rintro - _ rfl
  refine PageSafe.load fun w => ?_
  obtain ⟨wb, _ | _⟩ := w
  · exact PageSafe.claim rfl (Safe.ret rfl) (Safe.ret (Safe.ret rfl))
  · exact Safe.ret (Safe.ret rfl)

theorem tryUnown_safe (hown : g.own = true) (hcap : g.captured = none)
    (htested : strict → g.tested = true) :
    PageSafe strict t tryUnown g fun r g' =>
      g'.toHold = if r then g.toHold.giveUp else { g.toHold with tested := false } :=
  PageSafe.tryUnown hown hcap htested (Safe.ret rfl) (Safe.ret rfl)

theorem setUnowned_safe (hown : g.own = true) (hcap : g.captured = none) :
    PageSafe strict t setUnowned g fun _ g' => g'.toHold = g.toHold.giveUp := by
  refine Safe.loop (fun _ g' => g' = g) ?_ rfl
  rintro - _ rfl
  exact PageSafe.load fun w => PageSafe.unown hown hcap (Safe.ret rfl) (Safe.ret (Safe.ret rfl))

/-! ## Handing a page off and taking it over -/

theorem unabandonIfMapped_safe :
    PageSafe strict t unabandonIfMapped g fun _ g' => g' = g := by
  simp only [unabandonIfMapped, Prog.bind_eq, Prog.pure_eq]
  refine Safe.bind (isAbandonedMapped_safe.mono fun r g₁ hg₁ => ?_)
  cases r with
  | false => exact Safe.ret hg₁
  | true => exact PageSafe.unregister (Safe.ret hg₁)

theorem abandonOwnedPage_safe (hown : g.own = true) (hcap : g.captured = none) :
    PageSafe strict t abandonOwnedPage g fun _ g' =>
      g'.freeing = g.freeing ∧ g'.captured = none := by
  simp only [abandonOwnedPage, Prog.bind_eq, Prog.perform_bind]
  refine Safe.bind ((collect_safe hown hcap).mono fun _ g₁ hg₁ => ?_)
  have hown₁ : g₁.own = true := (congrArg Hold.own hg₁).trans hown
  have hcap₁ : g₁.captured = none := (congrArg Hold.captured hg₁).trans hcap
  have hfreeing₁ : g₁.freeing = g.freeing := congrArg Hold.freeing hg₁
  refine PageSafe.isAllFree hown₁ hcap₁ fun r => ?_
  cases r with
  | true => exact PageSafe.release (Safe.ret ⟨hfreeing₁, hcap₁⟩)
  | false =>
    -- stamp the page with `id` and give it up
    have giveUp : ∀ (g₂ : Ghost) (id : ℕ), g₂.toHold = { g₁.toHold with tested := true } →
        PageSafe strict t ((setOwner id).bind fun _ => setUnowned) g₂ fun _ g' =>
          g'.freeing = g.freeing ∧ g'.captured = none := by
      intro g₂ id hg₂
      have hown₂ : g₂.own = true := (congrArg Hold.own hg₂).trans hown₁
      have hcap₂ : g₂.captured = none := (congrArg Hold.captured hg₂).trans hcap₁
      have hfreeing₂ : g₂.freeing = g.freeing := (congrArg Hold.freeing hg₂).trans hfreeing₁
      refine Safe.bind (setOwner_safe.mono fun _ g₃ hg₃ => ?_)
      rw [hg₃]
      exact (setUnowned_safe hown₂ hcap₂).mono fun _ g₄ hg₄ =>
        ⟨(congrArg Hold.freeing hg₄).trans hfreeing₂, (congrArg Hold.captured hg₄).trans hcap₂⟩
    have hfull : PageSafe strict t isFull { g₁ with tested := true } fun _ g' =>
        g'.toHold = { g₁.toHold with tested := true } := isFull_safe hown₁ hcap₁
    refine Safe.bind (hfull.mono fun full g₂ hg₂ => ?_)
    cases full with
    | true => exact giveUp g₂ _ hg₂
    | false => exact PageSafe.register (giveUp g₂ _ hg₂)

theorem collectRound_safe {partly : Bool} (hown : g.own = true) (hcap : g.captured = none)
    (hb : partly = true → g.pushed = some b) :
    PageSafe strict t (collectRound partly b) g fun _ g' =>
      g'.own = true ∧ g'.captured = none ∧ g'.freeing = g.freeing := by
  have hhold : ∀ (tested : Bool) (g' : Ghost), g'.toHold = { g.toHold with tested := tested } →
      g'.own = true ∧ g'.captured = none ∧ g'.freeing = g.freeing := by
    intro tested g' h
    rw [h]
    exact ⟨hown, hcap, rfl⟩
  cases partly with
  | true => exact (collectPartly_safe hown hcap (hb rfl)).mono fun _ _ h => hhold _ _ h
  | false => exact (collect_safe hown hcap).mono fun _ _ h => hhold g.tested _ h

theorem reabandonMapped_safe (hown : g.own = true) (hcap : g.captured = none) :
    PageSafe strict t reabandonMapped g fun _ g' => g'.toHold = g.toHold := by
  simp only [reabandonMapped, Prog.bind_eq, Prog.pure_eq, Prog.perform_bind]
  refine Safe.bind ((isFull_safe hown hcap).mono fun full g₁ hg₁ => ?_)
  cases full with
  | true => exact Safe.ret hg₁
  | false =>
    refine Safe.bind (isAbandonedMapped_safe.mono fun mapped g₂ hg₂ => ?_)
    rw [hg₂]
    cases mapped with
    | true => exact Safe.ret hg₁
    | false => exact PageSafe.register (setOwner_safe.mono fun _ _ hg₃ => hg₃ ▸ hg₁)

theorem freeTryCollectMt_safe {small : Bool} (hown : g.own = true) (hcap : g.captured = none)
    (hb : g.pushed = some b) :
    PageSafe strict t (freeTryCollectMt small b) g fun _ g' =>
      g'.freeing = g.freeing ∧ g'.captured = none := by
  refine Safe.loop (fun first g' => g'.own = true ∧ g'.captured = none ∧ g'.freeing = g.freeing ∧
    (first = true → g'.pushed = some b)) ?_ ⟨hown, hcap, rfl, fun _ => hb⟩
  rintro first g₀ ⟨hown₀, hcap₀, hfreeing₀, hb₀⟩
  simp only [Prog.bind_eq, Prog.pure_eq, Prog.perform_bind]
  refine Safe.bind ((collectRound_safe hown₀ hcap₀ fun h => hb₀ (Bool.and_elim_left h)).mono ?_)
  rintro - g₁ ⟨hown₁, hcap₁, hfreeing₁⟩
  rw [hfreeing₀] at hfreeing₁
  refine PageSafe.isAllFree hown₁ hcap₁ fun r => ?_
  cases r with
  | true =>
    refine Safe.bind (unabandonIfMapped_safe.mono fun _ g₂ hg₂ => ?_)
    subst hg₂
    exact PageSafe.release (Safe.ret (Safe.ret ⟨hfreeing₁, hcap₁⟩))
  | false =>
    have hreabandon : PageSafe strict t reabandonMapped { g₁ with tested := true } fun _ g' =>
        g'.toHold = { g₁.toHold with tested := true } := reabandonMapped_safe hown₁ hcap₁
    refine Safe.bind (hreabandon.mono fun _ g₂ hg₂ => ?_)
    have hown₂ : g₂.own = true := (congrArg Hold.own hg₂).trans hown₁
    have hcap₂ : g₂.captured = none := (congrArg Hold.captured hg₂).trans hcap₁
    have hfreeing₂ : g₂.freeing = g.freeing := (congrArg Hold.freeing hg₂).trans hfreeing₁
    refine Safe.bind ((tryUnown_safe hown₂ hcap₂ fun _ => congrArg Hold.tested hg₂).mono
      fun r g₃ hg₃ => ?_)
    cases r with
    | true =>
      exact Safe.ret (Safe.ret ⟨(congrArg Hold.freeing hg₃).trans hfreeing₂,
        (congrArg Hold.captured hg₃).trans hcap₂⟩)
    | false =>
      exact Safe.ret ⟨(congrArg Hold.own hg₃).trans hown₂, (congrArg Hold.captured hg₃).trans hcap₂,
        (congrArg Hold.freeing hg₃).trans hfreeing₂, fun h => by cases h⟩

theorem freeMt_safe {small : Bool} (hcap : g.captured = none) (hb : g.freeing = some b) :
    PageSafe strict t (freeMt small b) g fun _ g' => g'.freeing = none ∧ g'.captured = none := by
  simp only [freeMt, Prog.bind_eq, Prog.pure_eq]
  refine Safe.bind ((threadFreePush_safe hb).mono fun claimed g₁ hg₁ => ?_)
  subst hg₁
  cases claimed with
  | true => exact freeTryCollectMt_safe rfl rfl rfl
  | false => exact Safe.ret ⟨rfl, hcap⟩

theorem reclaim_safe {tid : ℕ} :
    PageSafe strict t (reclaim tid) g fun r g' =>
      g'.toHold = if r then g.toHold.claim else g.toHold := by
  simp only [reclaim, Prog.bind_eq, Prog.pure_eq, Prog.perform_bind]
  refine Safe.bind (claimOwnership_safe.mono fun r g₁ hg₁ => ?_)
  cases r with
  | false => exact Safe.ret hg₁
  | true =>
    refine PageSafe.unregister (Safe.bind (setOwner_safe.mono fun _ g₂ hg₂ => ?_))
    rw [hg₂]
    exact PageSafe.clearZero (Safe.bind ((collect_safe (congrArg Hold.own hg₁)
      (congrArg Hold.captured hg₁)).mono fun _ g₃ hg₃ => Safe.ret (hg₃.trans hg₁)))

end Page

end MimallocRs
