import MimallocRs.PageMap.Shared
import MimallocRs.Foundations.Interleave.Outline

/-!
# The invariant of the page map

What a thread knows while it runs a call on the page map is its ghost: how far it is with the
table or submap that it allocates under the lock (`Phase`), the top table and the entry that it has
read, and which page is currently found for each slice of the range it was called on.

Tables and submaps are only ever added: `Later` says what stays true of the published ones, so that
what a thread has read remains true whatever the others do. Everything else that a thread relies on
is about its own range, which no other call meets, or holds because it has the lock.
-/

namespace MimallocRs

open Interleave

variable {Tid : Type}

/-- What the holder of the lock is doing. -/
inductive Phase
  /-- The thread does not hold the lock. -/
  | free
  | locked
  /-- There is no top table. -/
  | noTop
  /-- The first `k` entries of the new top table `b` have been written. -/
  | draft (b k : ℕ)
  /-- Entry `i` of the top table points at the shared submap. -/
  | vacant (i : ℕ)
  /-- The new submap `p` is to become entry `i`. -/
  | fresh (i p : ℕ)
  deriving DecidableEq

/-- What a thread knows of the page map. -/
structure MapGhost where
  phase : Phase
  /-- The top table, if it has been read. -/
  top : Option ℕ
  /-- An entry of it that has been read, and the submap it points at. -/
  entry : Option (ℕ × ℕ)
  /-- The range of the call. -/
  range : Option (ℕ × ℕ)
  /-- The page that a lookup of a slice of the range finds. -/
  pages : ℕ → ℕ
  /-- The slice that is looked up. -/
  looking : Option ℕ
  /-- Its page, if it has been read. -/
  seen : Option ℕ

/-- What is true in a phase. -/
def Phase.Holds (topCount : ℕ) (s : PageMem Tid) : Phase → Prop
  | .free => True
  | .locked => True
  | .noTop => s.top = none
  | .draft b k => s.top = none ∧ b < s.tables ∧ ∀ i < k, s.entry b i = some 0
  | .vacant i => i < topCount ∧ ∃ b, s.top = some b ∧ s.entry b i = some 0
  | .fresh i p => i < topCount ∧ (∃ b, s.top = some b ∧ s.entry b i = some 0 ∧
      ∀ j < topCount, s.entry b j ≠ some p) ∧ p ≠ 0 ∧ p < s.submaps ∧ ∀ j, s.sub p j = 0

/-- The tables are well formed: the shared submap is empty, every entry of the published table
points at a submap, and no two at the same one but the shared. -/
structure Tables (topCount : ℕ) (s : PageMem Tid) : Prop where
  pos : 0 < s.submaps
  shared : ∀ i, s.sub 0 i = 0
  entries : ∀ b i, s.top = some b → i < topCount → ∃ p < s.submaps, s.entry b i = some p
  inj : ∀ b i j p, s.top = some b → i < topCount → j < topCount → s.entry b i = some p →
    s.entry b j = some p → p ≠ 0 → i = j

/-- One thread holds the lock at most. -/
structure Locking (s : PageMem Tid) (γ : Tid → MapGhost) : Prop where
  exclusive : ∀ t u, (γ t).phase ≠ .free → (γ u).phase ≠ .free → t = u
  locked : ∀ t, (γ t).phase ≠ .free → s.locked = true

/-- The running calls have disjoint ranges, and outside of them the tables are as the calls that
have returned left them. -/
structure Calls (topCount : ℕ) (s : PageMem Tid) (γ : Tid → MapGhost) : Prop where
  busy : ∀ t r, (t, r) ∈ s.busy ↔ (γ t).range = some r
  disjoint : ∀ t u r r', t ≠ u → (γ t).range = some r → (γ u).range = some r' →
    ∀ w, Covers r w → ¬ Covers r' w
  settled : ∀ w, (∀ x ∈ s.busy, ¬ Covers x.2 w) → s.value topCount w = (s.mapped w).getD 0
  quiet : ∀ t w, s.looking t = some w → s.quiet t = true → ∀ x ∈ s.busy, ¬ Covers x.2 w

/-- The ghost `g` of thread `t` is true of the state. -/
structure MapView (topCount : ℕ) (s : PageMem Tid) (t : Tid) (g : MapGhost) : Prop where
  phase : g.phase.Holds topCount s
  top : ∀ b, g.top = some b → s.top = some b
  entry : ∀ i p, g.entry = some (i, p) → i < topCount ∧ p ≠ 0 ∧
    ∃ b, s.top = some b ∧ s.entry b i = some p
  pages : ∀ r, g.range = some r → ∀ w, Covers r w → s.value topCount w = g.pages w
  looking : s.looking t = g.looking
  seen : ∀ w v, g.looking = some w → g.seen = some v → s.quiet t = true →
    (s.mapped w).getD 0 = v

/-- The invariant of the page map. -/
structure MapInv (topCount : ℕ) (s : PageMem Tid) (γ : Tid → MapGhost) : Prop where
  tables : Tables topCount s
  locking : Locking s γ
  calls : Calls topCount s γ
  view : ∀ t, MapView topCount s t (γ t)
  fault : s.fault = false

/-- What is true when a thread performs an event: the shared submap is not written, there is one top
table, and no entry of it that points at another submap is replaced. -/
def mapAsserts {β : Type} (_ : Tid) (e : MapAct β) (s : PageMem Tid) : Prop :=
  match e with
  | .allocTop => s.top = none
  | .storeTop _ => s.top = none
  | .storeEntry b i _ => s.top = some b → s.entry b i = some 0
  | .storeSub p _ _ => p ≠ some 0
  | _ => True

/-- The outline of the page map. -/
def mapOutline (Tid : Type) (topCount : ℕ) : Outline MapAct Tid (PageMem Tid) MapGhost where
  inv := MapInv topCount
  asserts := mapAsserts

/-! ## What a step leaves to show -/

/-- The published top table, and the entries of it that do not point at the shared submap, are
still there. -/
structure Later (s s' : PageMem Tid) : Prop where
  top : ∀ b, s.top = some b → s'.top = some b
  entry : ∀ b i p, s.top = some b → s.entry b i = some p → p ≠ 0 → s'.entry b i = some p

/-- Nothing has happened to the calls. -/
structure SameCalls (s s' : PageMem Tid) : Prop where
  mapped : s'.mapped = s.mapped
  busy : s'.busy = s.busy
  looking : s'.looking = s.looking
  quiet : s'.quiet = s.quiet
  fault : s'.fault = s.fault

theorem Later.refl (s : PageMem Tid) : Later s s := ⟨fun _ h => h, fun _ _ _ _ h _ => h⟩

theorem SameCalls.refl (s : PageMem Tid) : SameCalls s s := ⟨rfl, rfl, rfl, rfl, rfl⟩

variable {topCount : ℕ} {s s' : PageMem Tid} {γ : Tid → MapGhost} {t : Tid} {g g' : MapGhost}

theorem Phase.Holds.of_eq {x : Phase} (h : x.Holds topCount s) (htop : s'.top = s.top)
    (htables : s'.tables = s.tables) (hentry : s'.entry = s.entry)
    (hsubmaps : s'.submaps = s.submaps) (hsub : s'.sub = s.sub) : x.Holds topCount s' := by
  unfold Phase.Holds at h ⊢
  rw [htop, htables, hentry, hsubmaps, hsub]
  exact h

theorem Later.of_noTop (h : s.top = none) : Later s s' := by
  refine ⟨fun b hb => ?_, fun b _ _ hb => ?_⟩ <;>
  · rw [h] at hb
    cases hb

theorem Tables.of_noTop (h : Tables topCount s) (htop : s'.top = none) (hsub : s'.sub = s.sub)
    (hsubmaps : s'.submaps = s.submaps) : Tables topCount s' := by
  refine ⟨hsubmaps ▸ h.pos, hsub ▸ h.shared, fun b _ hb => ?_, fun b _ _ _ hb => ?_⟩ <;>
  · rw [htop] at hb
    cases hb

theorem PageMem.value_eq_of_noTop (h : s.top = none) (h' : s'.top = none) (w : ℕ) :
    s'.value topCount w = s.value topCount w := by
  rw [value_of_noTop h, value_of_noTop h']

/-- What a thread has read stays true. -/
theorem MapView.later (h : MapView topCount s t g) (hlater : Later s s') (hcalls : SameCalls s s')
    (hphase : g.phase.Holds topCount s')
    (hpages : ∀ r, g.range = some r → ∀ w, Covers r w → s'.value topCount w = g.pages w) :
    MapView topCount s' t g := by
  refine ⟨hphase, fun b hb => hlater.top b (h.top b hb), ?_, hpages, ?_, ?_⟩
  · intro i p hip
    obtain ⟨hi, hp, b, hb, he⟩ := h.entry i p hip
    exact ⟨hi, hp, b, hlater.top b hb, hlater.entry b i p hb he hp⟩
  · rw [hcalls.looking, h.looking]
  · intro w v hw hv hq
    rw [hcalls.mapped]
    exact h.seen w v hw hv (hcalls.quiet ▸ hq)

/-- The other threads do not hold the lock while `t` does. -/
theorem Locking.others (h : Locking s γ) (hg : γ t = g) (hphase : g.phase ≠ .free) {u : Tid}
    (hu : u ≠ t) : (γ u).phase = .free := by
  by_contra hne
  exact hu (h.exclusive u t hne (hg ▸ hphase))

variable [DecidableEq Tid]

theorem Locking.keep (h : Locking s γ) (hg : γ t = g) (hlocked : s'.locked = s.locked)
    (hphase : g'.phase ≠ .free → g.phase ≠ .free) : Locking s' (Function.update γ t g') := by
  have key : ∀ u, (Function.update γ t g' u).phase ≠ .free → (γ u).phase ≠ .free := by
    intro u hu
    by_cases hut : u = t
    · subst hut
      rw [hg]
      exact hphase (by simpa using hu)
    · simpa [hut] using hu
  exact ⟨fun u v hu hv => h.exclusive u v (key u hu) (key v hv),
    fun u hu => hlocked.trans (h.locked u (key u hu))⟩

theorem Calls.keep (h : Calls topCount s γ) (hg : γ t = g) (hcalls : SameCalls s s')
    (hrange : g'.range = g.range)
    (hvalue : ∀ w, (∀ r, g.range = some r → ¬ Covers r w) →
      s'.value topCount w = s.value topCount w) :
    Calls topCount s' (Function.update γ t g') := by
  have key : ∀ u, (Function.update γ t g' u).range = (γ u).range := by
    intro u
    by_cases hut : u = t
    · subst hut
      simp [hrange, hg]
    · simp [hut]
  refine ⟨fun u r => ?_, fun u v r r' huv hu hv => ?_, fun w hw => ?_, fun u w hu hq => ?_⟩
  · rw [hcalls.busy, key, h.busy]
  · rw [key] at hu hv
    exact h.disjoint u v r r' huv hu hv
  · rw [hcalls.busy] at hw
    rw [hvalue w fun r hr => hw (t, r) ((h.busy t r).mpr (hg ▸ hr)), h.settled w hw, hcalls.mapped]
  · rw [hcalls.looking] at hu
    rw [hcalls.quiet] at hq
    rw [hcalls.busy]
    exact h.quiet u w hu hq

/-- A step that starts or ends no call leaves the threads other than `t` what they know, if it
keeps what they have published and changes what is found for slices of its own range only. -/
theorem MapInv.of_step (hi : MapInv topCount s γ) (hg : γ t = g) (hlater : Later s s')
    (hcalls : SameCalls s s') (hrange : g'.range = g.range)
    (hvalue : ∀ w, (∀ r, g.range = some r → ¬ Covers r w) →
      s'.value topCount w = s.value topCount w)
    (hothers : ∀ u, u ≠ t → (γ u).phase.Holds topCount s → (γ u).phase.Holds topCount s')
    (htables : Tables topCount s') (hlocking : Locking s' (Function.update γ t g'))
    (hview : MapView topCount s' t g') : MapInv topCount s' (Function.update γ t g') where
  tables := htables
  locking := hlocking
  calls := hi.calls.keep hg hcalls hrange hvalue
  fault := hcalls.fault.trans hi.fault
  view u := by
    by_cases hut : u = t
    · subst hut
      simpa using hview
    · rw [Function.update_of_ne hut]
      apply (hi.view u).later hlater hcalls (hothers u hut (hi.view u).phase)
      intro r hr w hw
      rw [hvalue w fun r' hr' => hi.calls.disjoint u t r r' hut hr (hg ▸ hr') w hw]
      exact (hi.view u).pages r hr w hw

/-- A step of the holder of the lock. -/
theorem MapInv.of_holder (hi : MapInv topCount s γ) (hg : γ t = g) (hphase : g.phase ≠ .free)
    (hlater : Later s s') (hcalls : SameCalls s s') (hlocked : s'.locked = s.locked)
    (hrange : g'.range = g.range) (hvalue : ∀ w, s'.value topCount w = s.value topCount w)
    (htables : Tables topCount s') (hview : MapView topCount s' t g') :
    MapInv topCount s' (Function.update γ t g') := by
  refine hi.of_step hg hlater hcalls hrange (fun w _ => hvalue w) ?_ htables
    (hi.locking.keep hg hlocked fun _ => hphase) hview
  intro u hu _
  rw [hi.locking.others hg hphase hu]
  trivial

/-- A thread learns something. -/
theorem MapInv.of_view (hi : MapInv topCount s γ) (hg : γ t = g)
    (hphase : g'.phase ≠ .free → g.phase ≠ .free) (hrange : g'.range = g.range)
    (hview : MapView topCount s t g') : MapInv topCount s (Function.update γ t g') :=
  hi.of_step hg (.refl s) (.refl s) hrange (fun _ _ => rfl) (fun _ _ h => h) hi.tables
    (hi.locking.keep hg rfl hphase) hview

end MimallocRs
