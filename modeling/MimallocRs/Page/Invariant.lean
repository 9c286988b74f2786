import MimallocRs.Page.Partition
import MimallocRs.Foundations.Interleave.Outline

/-!
# The invariant of a page

The ghost of a thread says what the thread knows while it runs: whether it holds the page, which
block it frees and what it has written to its link, what it has read from `free`, which captured
chain it is splicing. `PageInv` ties the ghosts to the state. Its last part, that a page nobody
holds has an outstanding block, is claimed only of the runs that meet `keepsOutstanding`, and is
switched on by the parameter `strict` of the outline.

Every event has a rule here, `Safe.load` to `Safe.freeLocal`, in terms of the ghost only; the
programs are verified from these rules in `Page/Outline.lean`.
-/

namespace MimallocRs

open Interleave

variable {Tid : Type}

/-- The part of a thread's ghost that outlives a call. -/
structure Hold where
  /-- The thread holds the page. -/
  own : Bool
  /-- The block it is freeing. -/
  freeing : Option Blk
  /-- The first captured block it has not yet spliced. -/
  captured : Option Blk
  /-- It is giving the page up and has found that not all blocks are free. -/
  tested : Bool
  /-- How often it has made the word owned. -/
  gained : ℕ
  /-- How often it has been told so. -/
  reported : ℕ

/-- What a thread knows of the page. -/
structure Ghost extends Hold where
  /-- The link it has written to the block it is freeing. -/
  link : Option (Option Blk)
  /-- The head of `free` as it has read it. -/
  free : Option (Option Blk)
  /-- A block it knows to be queued. -/
  pushed : Option Blk

/-- The thread that holds the page is the one whose ghost says so, and the ownership bit is set
exactly while there is one. -/
structure Ownership (s : Shared Tid) (γ : Tid → Ghost) : Prop where
  owned : s.page.xthreadFree.owned = s.holder.isSome
  holder : ∀ t, (γ t).own = true ↔ s.holder = some t
  told : ∀ t, s.told t = true → s.holder = some t
  gains : ∀ t, s.gains t = (γ t).gained
  reports : ∀ t, s.reports t = (γ t).reported

/-- The ghost `g` of thread `t` is true of the state. -/
structure View (s : Shared Tid) (t : Tid) (g : Ghost) : Prop where
  freeing : s.freeing t = g.freeing
  link : ∀ b v, g.freeing = some b → g.link = some v → s.page.next b = v
  free : g.own = true → ∀ v, g.free = some v → s.page.free = v
  captured : g.own = true → s.captured.head? = g.captured
  pushed : g.own = true → ∀ b, g.pushed = some b → b ∈ s.queue
  tested : g.own = true → g.tested = true → s.tested t = true

/-- A page that nobody holds has an outstanding block, and one whose holder has found it not all
free has one that is outstanding or queued. -/
structure Kept (s : Shared Tid) : Prop where
  holder : ∀ t, s.tested t = true → s.holder = some t
  unowned : s.holder = none → ∃ b, s.Outstanding b
  tested : ∀ t, s.tested t = true → ∃ b, s.Outstanding b ∨ b ∈ s.queue

/-- The invariant of a page. -/
structure PageInv (strict : Prop) (s : Shared Tid) (γ : Tid → Ghost) : Prop where
  ownership : Ownership s γ
  partition : ∃ fr lo, Partition s fr lo
  view : ∀ t, View s t (γ t)
  idle : s.holder = none → s.captured = []
  kept : strict → Kept s

/-- Two steps by which a page can be given up although nothing outside it will free into it again:
a capture by a thread that has found the page not all free, and the unconditional clearing of the
ownership bit. Both are to happen while some block is outstanding. -/
def keepsOutstanding {β : Type} (t : Tid) (e : PageAct β) (s : Shared Tid) (choice : ℕ) : Prop :=
  match e with
  | .cas weak e n => s.page.xthreadFree = e → (weak = true → choice = 0) →
      (s.tested t = true ∧ e.block ≠ none ∧ n.block = none) ∨
        (weak = true ∧ e.owned = true ∧ n.owned = false) → ∃ b, s.Outstanding b
  | _ => True

/-- What is true of the page when a thread performs an event: a compare-exchange that succeeds
queues the block that the thread is freeing and has linked in front of the queue, or captures the
queue when nothing is captured, or leaves the queue, and only the holder clears the ownership bit;
a link is written by the thread that frees its block; a spliced block is the first captured one, a
popped block the head of `free`, a block put on `local_free` one that the holder frees, and what is
collected in part is queued. -/
def pageAsserts {β : Type} (t : Tid) (e : PageAct β) (s : Shared Tid) : Prop :=
  match e with
  | .cas _ e n => s.page.xthreadFree = e →
      (n.block = e.block ∨
        (∃ b, n.block = some b ∧ s.freeing t = some b ∧ s.page.next b = e.block) ∨
        (n.block = none ∧ s.holder = some t ∧ s.captured = [])) ∧
      (e.owned = true → n.owned = false → s.holder = some t)
  | .setNext b _ => s.freeing t = some b
  | .splice tf => s.holder = some t ∧ s.captured.head? = some tf
  | .pop b => s.holder = some t ∧ s.page.free = some b
  | .freeLocal b => s.holder = some t ∧ s.freeing t = some b
  | .adoptLocal | .extendFree => s.holder = some t
  | .collectBehind head => s.holder = some t ∧ head ∈ s.queue
  | _ => True

/-- The outline of the page programs. -/
def pageOutline (Tid : Type) (strict : Prop) : Outline PageAct Tid (Shared Tid) Ghost where
  inv := PageInv strict
  asserts := pageAsserts
  ok t e s choice := strict → keepsOutstanding t e s choice

variable [DecidableEq Tid] {s s' : Shared Tid} {γ : Tid → Ghost} {t : Tid} {g g' : Ghost}
variable {strict : Prop}

/-! ## What a step leaves to show -/

omit [DecidableEq Tid] in
/-- Nobody has tested a page that nobody holds, so that whoever takes it owes nothing. -/
theorem Kept.of_none (h : Kept s) (hnone : s.holder = none) (htested : s'.tested = s.tested)
    (hholder : s'.holder = some t) : Kept s' := by
  have hun : ∀ u, s'.tested u ≠ true := fun u hu => by
    have := h.holder u (htested ▸ hu)
    rw [hnone] at this
    cases this
  refine ⟨fun u hu => absurd hu (hun u), fun hn => ?_, fun u hu => absurd hu (hun u)⟩
  rw [hholder] at hn
  cases hn

namespace Ownership

/-- Nothing changes in who holds the page. -/
theorem keep (h : Ownership s γ) (hg : γ t = g)
    (howned : s'.page.xthreadFree.owned = s.page.xthreadFree.owned) (hholder : s'.holder = s.holder)
    (htold : s'.told = s.told) (hgains : s'.gains = s.gains) (hreports : s'.reports = s.reports)
    (hown : g'.own = g.own) (hgained : g'.gained = g.gained) (hreported : g'.reported = g.reported) :
    Ownership s' (Function.update γ t g') := by
  have key : ∀ {α : Type} (f : Ghost → α), f g' = f g → ∀ u, f (Function.update γ t g' u) =
      f (γ u) := fun f hf u => by
    by_cases hu : u = t
    · subst hu
      simp [hf, hg]
    · simp [hu]
  exact {
    owned := by rw [howned, hholder, h.owned]
    holder := fun u => by rw [key (·.own) hown, hholder, h.holder]
    told := fun u hu => by
      rw [hholder]
      exact h.told u (htold ▸ hu)
    gains := fun u => by rw [key (·.gained) hgained, hgains, h.gains]
    reports := fun u => by rw [key (·.reported) hreported, hreports, h.reports] }

/-- Thread `t` makes the word owned. -/
theorem gain (h : Ownership s γ) (hg : γ t = g) (hnone : s.holder = none)
    (howned : s'.page.xthreadFree.owned = true) (hholder : s'.holder = some t)
    (htold : s'.told = s.told) (hgains : s'.gains = Function.update s.gains t (s.gains t + 1))
    (hreports : s'.reports = s.reports) (hown : g'.own = true)
    (hgained : g'.gained = g.gained + 1) (hreported : g'.reported = g.reported) :
    Ownership s' (Function.update γ t g') where
  owned := by rw [howned, hholder]; rfl
  holder u := by
    by_cases hu : u = t
    · subst hu
      simp [hown, hholder]
    · have := h.holder u
      rw [hnone] at this
      simp [hu, hholder, Ne.symm hu, this]
  told u hu := by
    have := h.told u (htold ▸ hu)
    rw [hnone] at this
    cases this
  gains u := by
    have := h.gains u
    by_cases hu : u = t
    · subst hu
      simp [hgains, hgained, this, hg]
    · simp [hgains, hu, this]
  reports u := by
    have := h.reports u
    by_cases hu : u = t
    · subst hu
      simp [hreports, hreported, this, hg]
    · simp [hreports, hu, this]

/-- Thread `t` makes the word unowned. -/
theorem lose (h : Ownership s γ) (hg : γ t = g) (hown : g.own = true)
    (howned : s'.page.xthreadFree.owned = false) (hholder : s'.holder = none)
    (htold : s'.told = Function.update s.told t false) (hgains : s'.gains = s.gains)
    (hreports : s'.reports = s.reports) (hown' : g'.own = false)
    (hgained : g'.gained = g.gained) (hreported : g'.reported = g.reported) :
    Ownership s' (Function.update γ t g') := by
  have hsome : s.holder = some t := (h.holder t).mp (hg ▸ hown)
  exact {
    owned := by rw [howned, hholder]; rfl
    holder := fun u => by
      by_cases hu : u = t
      · subst hu
        simp [hown', hholder]
      · have hne : (γ u).own ≠ true := fun hu' => by
          have := (h.holder u).mp hu'
          rw [hsome] at this
          exact hu (Option.some.inj this).symm
        simp [hu, hholder, hne]
    told := fun u hu => by
      by_cases hut : u = t
      · subst hut
        rw [htold] at hu
        simp at hu
      · rw [htold, Function.update_of_ne hut] at hu
        have := h.told u hu
        rw [hsome] at this
        exact absurd (Option.some.inj this).symm hut
    gains := fun u => by
      have := h.gains u
      by_cases hu : u = t
      · subst hu
        simp [hgains, hgained, this, hg]
      · simp [hgains, hu, this]
    reports := fun u => by
      have := h.reports u
      by_cases hu : u = t
      · subst hu
        simp [hreports, hreported, this, hg]
      · simp [hreports, hu, this] }

omit [DecidableEq Tid] in
/-- At most one thread holds the page. -/
theorem own_unique (h : Ownership s γ) {u : Tid} (ht : (γ t).own = true) (hu : (γ u).own = true) :
    t = u := by
  have ht := (h.holder t).mp ht
  have hu := (h.holder u).mp hu
  exact Option.some.inj (ht.symm.trans hu)

end Ownership

/-- Views of all threads, from the view of the thread that moves and those of the others. -/
theorem View.of_update (ht : View s' t g') (hu : ∀ u, u ≠ t → View s' u (γ u)) (u : Tid) :
    View s' u (Function.update γ t g' u) := by
  by_cases h : u = t
  · subst h
    simpa using ht
  · simpa [h] using hu u h

omit [DecidableEq Tid] in
/-- A thread that does not hold the page knows only of the block it is freeing. -/
theorem View.of_not_own (hv : View s t g) (hown : g.own ≠ true)
    (hfreeing : s'.freeing t = s.freeing t)
    (hnext : ∀ b, s.freeing t = some b → s'.page.next b = s.page.next b) : View s' t g where
  freeing := hfreeing.trans hv.freeing
  link b v hb hl := (hnext b (hv.freeing.trans hb)).trans (hv.link b v hb hl)
  free h := absurd h hown
  captured h := absurd h hown
  pushed h := absurd h hown
  tested h := absurd h hown

/-- What an event leaves as it is: the ownership bit and who holds the page. -/
structure SameHolder (s s' : Shared Tid) : Prop where
  owned : s'.page.xthreadFree.owned = s.page.xthreadFree.owned
  holder : s'.holder = s.holder
  told : s'.told = s.told
  gains : s'.gains = s.gains
  reports : s'.reports = s.reports

omit [DecidableEq Tid] in
/-- The bit is set while somebody holds the page. -/
theorem PageInv.owned_of_own (h : PageInv strict s γ) (hg : γ t = g) (hown : g.own = true) :
    s.page.xthreadFree.owned = true := by
  rw [h.ownership.owned, (h.ownership.holder t).mp (hg ▸ hown)]
  rfl

omit [DecidableEq Tid] in
theorem PageInv.captured_eq_nil (h : PageInv strict s γ) (hg : γ t = g) (hown : g.own = true)
    (hcap : g.captured = none) : s.captured = [] := by
  have hv := h.view t
  rw [hg] at hv
  rw [← List.head?_eq_none_iff, hv.captured hown, hcap]

omit [DecidableEq Tid] in
theorem PageInv.holder_eq_none (h : PageInv strict s γ)
    (howned : s.page.xthreadFree.owned = false) : s.holder = none :=
  Option.isNone_iff_eq_none.mp (by simpa [h.ownership.owned] using howned)

/-- An event of the thread that holds the page, or of one that frees a block, which leaves who
holds the page as it is. -/
theorem PageInv.of_sameHolder (h : PageInv strict s γ) (hg : γ t = g) (hs : SameHolder s s')
    (hown : g'.own = g.own) (hgained : g'.gained = g.gained) (hreported : g'.reported = g.reported)
    (hpart : ∃ fr lo, Partition s' fr lo) (hview : View s' t g')
    (hothers : ∀ u, u ≠ t → View s' u (γ u)) (hidle : s'.holder = none → s'.captured = [])
    (hkept : strict → Kept s → Kept s') : PageInv strict s' (Function.update γ t g') where
  ownership := h.ownership.keep hg hs.owned hs.holder hs.told hs.gains hs.reports hown hgained
    hreported
  partition := hpart
  view := View.of_update hview hothers
  idle := hidle
  kept hst := hkept hst (h.kept hst)

omit [DecidableEq Tid] in
/-- The views of the other threads after an event of the thread that holds the page. -/
theorem PageInv.others_of_own (h : PageInv strict s γ) (hg : γ t = g) (hown : g.own = true)
    (hfreeing : ∀ u, u ≠ t → s'.freeing u = s.freeing u)
    (hnext : ∀ u b, u ≠ t → s.freeing u = some b → s'.page.next b = s.page.next b) (u : Tid)
    (hu : u ≠ t) : View s' u (γ u) :=
  (h.view u).of_not_own (fun hou => hu (h.ownership.own_unique hou (hg ▸ hown)))
    (hfreeing u hu) fun b hb => hnext u b hu hb

/-- An event of the thread that holds the page, which leaves ownership, the queue and the
outstanding blocks as they are. -/
theorem PageInv.of_own (h : PageInv strict s γ) (hg : γ t = g) (hown : g.own = true)
    (hs : SameHolder s s') (hown' : g'.own = true) (hgained : g'.gained = g.gained)
    (hreported : g'.reported = g.reported) (hpart : ∃ fr lo, Partition s' fr lo)
    (hview : View s' t g') (hlive : s'.live = s.live) (hfreeing : s'.freeing = s.freeing)
    (hqueue : s'.queue = s.queue) (htested : s'.tested = s.tested)
    (hnext : ∀ u b, s.freeing u = some b → s'.page.next b = s.page.next b) :
    PageInv strict s' (Function.update γ t g') := by
  have hholder : s'.holder = some t := hs.holder.trans ((h.ownership.holder t).mp (hg ▸ hown))
  refine h.of_sameHolder hg hs (hown'.trans hown.symm) hgained hreported hpart hview
    (h.others_of_own hg hown (fun u _ => by rw [hfreeing]) fun u b _ hb => hnext u b hb)
    (fun hn => by rw [hholder] at hn; cases hn) fun _ hk => ?_
  have hout : ∀ b, s'.Outstanding b ↔ s.Outstanding b := fun b => by
    simp only [Shared.Outstanding, hlive, hfreeing]
  exact {
    holder := fun u hu => hs.holder.trans (hk.holder u (htested ▸ hu))
    unowned := fun hn => by rw [hholder] at hn; cases hn
    tested := fun u hu => by
      simp only [hout, hqueue]
      exact hk.tested u (htested ▸ hu) }

end MimallocRs
