import MimallocRs.Arena.Exclusive
import MimallocRs.Foundations.Interleave.Focus
import MimallocRs.Subproc.Shared

/-!
# The invariant of the sub-process

A thread knows where it is in `add_arena`, the region that its call has and has not registered, an
arena that it may use, how many arenas it has seen, and what it has taken from each arena. The
invariant has three parts: the lock and what its holder does (`AddInv`), the registry and the
regions (`RegionInv`), and the slices of every arena (`SlicesInv`), for which it asks what
`claimOutline` asks. Each part says of which fields it speaks (`congr`).
-/

namespace MimallocRs

open Interleave Prog

/-- Where a thread is in `add_arena`. -/
inductive AddPhase
  | outside
  /-- It holds the lock. -/
  | holding
  /-- It has loaded `arena_count`. -/
  | counted (idx : ℕ)
  /-- It has stored its arena at that place. -/
  | stored (idx : ℕ)
  deriving DecidableEq

/-- What a thread knows. -/
structure SubprocGhost where
  phase : AddPhase
  /-- The region that its call has and has not registered. -/
  hand : Option ℕ
  /-- The address and the number of slices of that region. -/
  room : ℕ × ℕ
  /-- An arena that it may use. -/
  known : Option (ℕ × Arena)
  /-- So many arenas it has seen. -/
  count : ℕ
  /-- What its running call has taken from each arena. -/
  taken : ℕ → Set ℕ

/-- What a thread has taken from the arena at `j`. -/
def SubprocGhost.lens (j : ℕ) : Lens SubprocGhost (Set ℕ) where
  read g := g.taken j
  write x g := { g with taken := Function.update g.taken j x }
  read_write _ _ := Function.update_self ..
  write_write _ _ _ := by simp
  write_read _ := by simp

/-- A thread runs no call. -/
structure SubprocGhost.Idle (g : SubprocGhost) : Prop where
  phase : g.phase = .outside
  hand : g.hand = none
  taken : g.taken = fun _ => ∅

variable {Tid : Type}

namespace SubprocMem

/-- The arena at `j` is registered. -/
def Registered (s : SubprocMem Tid) (j : ℕ) : Prop := ∃ i < s.arenaCount, s.arenas i = some j

/-- The region that each thread has in its hand. -/
def inHand (γ : Tid → SubprocGhost) (t : Tid) : Set ℕ := {j | (γ t).hand = some j}

/-- The lock, and what its holder does. -/
structure AddInv (s : SubprocMem Tid) (γ : Tid → SubprocGhost) : Prop where
  locked : ∀ t, (γ t).phase ≠ .outside → s.locked = true
  alone : ∀ t u, (γ t).phase ≠ .outside → (γ u).phase ≠ .outside → t = u
  counted : ∀ t idx, (γ t).phase = .counted idx → s.arenaCount = idx ∧ idx < Subproc.maxArenas
  stored : ∀ t idx, (γ t).phase = .stored idx → s.arenaCount = idx ∧ idx < Subproc.maxArenas ∧
    s.arenas idx = (γ t).hand

/-- The registry, and the regions that are given out. -/
structure RegionInv (s : SubprocMem Tid) (γ : Tid → SubprocGhost) : Prop where
  count_le : s.arenaCount ≤ Subproc.maxArenas
  arenas : ∀ i < s.arenaCount, ∃ j a, s.arenas i = some j ∧ s.arena j = some a
  injective : ∀ i < s.arenaCount, ∀ i' < s.arenaCount, s.arenas i = s.arenas i' → i = i'
  custody : Ledger {j | (s.region j).isSome} {j | s.Registered j} (inHand γ)
  room : ∀ t j, (γ t).hand = some j → s.region j = some (γ t).room
  region : ∀ j a, s.arena j = some a → s.region j = some (a.start, a.sliceCount)
  disjoint : ∀ j j' r r', j ≠ j' → s.region j = some r → s.region j' = some r' →
    r.1 + r.2 * miArenaSliceSize ≤ r'.1 ∨ r'.1 + r'.2 * miArenaSliceSize ≤ r.1
  fresh : ∀ j, (s.region j).isSome → j < s.nextRegion
  known : ∀ t j a, (γ t).known = some (j, a) →
    s.arena j = some a ∧ (s.Registered j ∨ (γ t).hand = some j)
  count : ∀ t, (γ t).count ≤ s.arenaCount

variable [DecidableEq Tid]

/-- The slices of the arenas. -/
structure SlicesInv (s : SubprocMem Tid) (γ : Tid → SubprocGhost) : Prop where
  books : ∀ j a, s.arena j = some a →
    (claimOutline Tid a.chunkCount {i | i < a.sliceCount}).inv ((s.mem j).bits .free)
      fun t => (γ t).taken j
  taken : ∀ t j, (γ t).taken j ≠ ∅ → s.Registered j ∨ (γ t).hand = some j
  held : ∀ t j, ((s.mem j).bits .free).held t ≠ [] → s.Registered j

/-- **The invariant.** -/
structure Inv (s : SubprocMem Tid) (γ : Tid → SubprocGhost) : Prop where
  add : s.AddInv γ
  regions : s.RegionInv γ
  slices : s.SlicesInv γ

/-- What is asserted of the events: an arena is there while it is used, what the operating system is
asked to commit, decommit or reset has been taken, and no event undoes what has been registered. -/
def Asserts {β : Type} (t : Tid) (e : SubprocAct β) (s : SubprocMem Tid) : Prop :=
  match e with
  | .loadArena i _ => i < Subproc.maxArenas
  | .storeArena i _ _ => s.arenaCount ≤ i ∧ i < Subproc.maxArenas
  | .storeCount n _ => s.arenaCount ≤ n
  | .osFree j _ => (s.region j).isSome ∧ ¬ s.Registered j
  | .write j a _ => s.region j = some (a.start, a.sliceCount) ∧ ¬ s.Registered j
  | .deref j _ => (s.arena j).isSome
  | .arena j e => (s.arena j).isSome ∧ ∀ r ∈ e.osRange, bitRange r.1 r.2 ⊆ (s.view j).taken t
  | _ => True

end SubprocMem

open SubprocMem

/-- The invariant, and what is asserted of the events. -/
def subprocOutline (Tid : Type) [DecidableEq Tid] :
    Outline SubprocAct Tid (SubprocMem Tid) SubprocGhost where
  inv := SubprocMem.Inv
  asserts := SubprocMem.Asserts

variable [DecidableEq Tid] {s s' : SubprocMem Tid} {γ γ' : Tid → SubprocGhost} {t : Tid} {j : ℕ}
  {a : Arena} {g : SubprocGhost}

/-- What one thread's ghost does not change. -/
theorem same_of_update {δ : Type} {f : SubprocGhost → δ} (h : f g = f (γ t)) (u : Tid) :
    f (Function.update γ t g u) = f (γ u) := by
  by_cases hu : u = t
  · subst hu
    rw [Function.update_self, h]
  · rw [Function.update_of_ne hu]

theorem count_le_update {n : ℕ} (h : ∀ u, (γ u).count ≤ n) (hg : g.count ≤ n) (u : Tid) :
    (Function.update γ t g u).count ≤ n :=
  (Function.forall_update_iff γ (p := fun _ g => g.count ≤ n)).mpr ⟨hg, fun u _ => h u⟩ u

namespace SubprocMem

omit [DecidableEq Tid] in
theorem arena_eq_some : s.arena j = some a ↔ s.made j = true ∧ s.descriptor j = a := by
  simp [arena]

omit [DecidableEq Tid] in
theorem registered_congr (hcount : s'.arenaCount = s.arenaCount)
    (harenas : ∀ i < s.arenaCount, s'.arenas i = s.arenas i) :
    s'.Registered j ↔ s.Registered j := by
  constructor
  · rintro ⟨i, hi, hj⟩
    rw [hcount] at hi
    exact ⟨i, hi, (harenas i hi).symm.trans hj⟩
  · rintro ⟨i, hi, hj⟩
    exact ⟨i, hcount ▸ hi, (harenas i hi).trans hj⟩

omit [DecidableEq Tid] in
/-- A region is given out while it is registered or in a hand. -/
theorem RegionInv.owned (h : s.RegionInv γ) (j : ℕ) :
    (s.region j).isSome ↔ s.Registered j ∨ ∃ t, (γ t).hand = some j :=
  h.custody.covers j

omit [DecidableEq Tid] in
theorem RegionInv.apart (h : s.RegionInv γ) (t : Tid) (j : ℕ) (hj : (γ t).hand = some j) :
    ¬ s.Registered j :=
  fun hreg => Set.disjoint_left.mp (h.custody.pool_share t) hreg hj

omit [DecidableEq Tid] in
theorem RegionInv.hands (h : s.RegionInv γ) (t u : Tid) (j : ℕ) (ht : (γ t).hand = some j)
    (hu : (γ u).hand = some j) : t = u := by
  by_contra hne
  exact Set.disjoint_left.mp (h.custody.share_share t u hne) ht hu

omit [DecidableEq Tid] in
theorem AddInv.congr (h : s.AddInv γ) (hlocked : s'.locked = s.locked)
    (hcount : s'.arenaCount = s.arenaCount) (harenas : s'.arenas = s.arenas)
    (hphase : ∀ u, (γ' u).phase = (γ u).phase)
    (hhand : ∀ u idx, (γ u).phase = .stored idx → (γ' u).hand = (γ u).hand) : s'.AddInv γ' where
  locked u hu := by
    rw [hphase] at hu
    rw [hlocked]
    exact h.locked u hu
  alone u v hu hv := by
    rw [hphase] at hu hv
    exact h.alone u v hu hv
  counted u idx hu := by
    rw [hphase] at hu
    rw [hcount]
    exact h.counted u idx hu
  stored u idx hu := by
    rw [hphase] at hu
    rw [hcount, harenas, hhand u idx hu]
    exact h.stored u idx hu

omit [DecidableEq Tid] in
theorem RegionInv.congr (h : s.RegionInv γ) (hcount : s'.arenaCount = s.arenaCount)
    (harenas : ∀ i < s.arenaCount, s'.arenas i = s.arenas i) (hregion : s'.region = s.region)
    (hnext : s'.nextRegion = s.nextRegion) (harena : s'.arena = s.arena)
    (hhand : ∀ u, (γ' u).hand = (γ u).hand) (hroom : ∀ u, (γ' u).room = (γ u).room)
    (hknown : ∀ u j a, (γ' u).known = some (j, a) →
      s.arena j = some a ∧ (s.Registered j ∨ (γ u).hand = some j))
    (hseen : ∀ u, (γ' u).count ≤ s.arenaCount) : s'.RegionInv γ' where
  count_le := hcount ▸ h.count_le
  arenas i hi := by
    rw [hcount] at hi
    rw [harenas i hi, harena]
    exact h.arenas i hi
  injective i hi i' hi' := by
    rw [hcount] at hi hi'
    rw [harenas i hi, harenas i' hi']
    exact h.injective i hi i' hi'
  custody := by
    have hhands : inHand γ' = inHand γ := funext fun u => by rw [inHand, inHand, hhand]
    simpa only [hregion, hhands, registered_congr hcount harenas] using h.custody
  room u j hu := by
    rw [hhand] at hu
    rw [hregion, hroom]
    exact h.room u j hu
  region j a ha := by
    rw [harena] at ha
    rw [hregion]
    exact h.region j a ha
  disjoint := by
    rw [hregion]
    exact h.disjoint
  fresh := by
    rw [hregion, hnext]
    exact h.fresh
  known u j a hu := by
    rw [harena, registered_congr hcount harenas, hhand]
    exact hknown u j a hu
  count u := by
    rw [hcount]
    exact hseen u

omit [DecidableEq Tid] in
/-- The slices do not change with what is registered, as long as arenas that are in use stay so. -/
theorem SlicesInv.mono (h : s.SlicesInv γ)
    (harena : ∀ j a, s'.arena j = some a → s.arena j = some a)
    (hbits : ∀ j, (s'.mem j).bits .free = (s.mem j).bits .free)
    (htaken : ∀ u, (γ' u).taken = (γ u).taken) (hreg : ∀ j, s.Registered j → s'.Registered j)
    (huse : ∀ u j, (γ u).taken j ≠ ∅ → s.Registered j ∨ (γ u).hand = some j →
      s'.Registered j ∨ (γ' u).hand = some j) : s'.SlicesInv γ' where
  books j a ha := by
    rw [hbits]
    simp only [htaken]
    exact h.books j a (harena j a ha)
  taken u j hu := by
    rw [htaken] at hu
    exact huse u j hu (h.taken u j hu)
  held u j hu := by
    rw [hbits] at hu
    exact hreg j (h.held u j hu)

omit [DecidableEq Tid] in
theorem SlicesInv.congr (h : s.SlicesInv γ) (hcount : s'.arenaCount = s.arenaCount)
    (harenas : ∀ i < s.arenaCount, s'.arenas i = s.arenas i) (harena : s'.arena = s.arena)
    (hbits : ∀ j, (s'.mem j).bits .free = (s.mem j).bits .free)
    (hhand : ∀ u, (γ' u).hand = (γ u).hand) (htaken : ∀ u, (γ' u).taken = (γ u).taken) :
    s'.SlicesInv γ' := by
  refine h.mono (fun j a ha => by rwa [harena] at ha) hbits htaken
    (fun j => (registered_congr hcount harenas).mpr) fun u j _ hor => ?_
  rwa [registered_congr hcount harenas, hhand]

/-- One arena has been changed, by a thread that may use it. -/
theorem SlicesInv.of_arena (h : s.SlicesInv γ)
    (harena : ∀ j' a', j' ≠ j → s'.arena j' = some a' → s.arena j' = some a')
    (hbits : ∀ j', j' ≠ j → (s'.mem j').bits .free = (s.mem j').bits .free)
    (hreg : ∀ j', s'.Registered j' ↔ s.Registered j') (hhand : g.hand = (γ t).hand)
    (htaken : ∀ j', j' ≠ j → g.taken j' = (γ t).taken j')
    (hbooks : ∀ a, s'.arena j = some a → (claimOutline Tid a.chunkCount {i | i < a.sliceCount}).inv
      ((s'.mem j).bits .free) (Function.update (fun u => (γ u).taken j) t (g.taken j)))
    (huse : s.Registered j ∨ (γ t).hand = some j)
    (hheld : ∀ u, ((s'.mem j).bits .free).held u ≠ [] → s.Registered j) :
    s'.SlicesInv (Function.update γ t g) where
  books j' a' ha' := by
    by_cases hj : j' = j
    · subst hj
      have hsame : (fun u => (Function.update γ t g u).taken j') =
          Function.update (fun u => (γ u).taken j') t (g.taken j') := by
        funext u
        by_cases hut : u = t
        · rw [hut, Function.update_self, Function.update_self]
        · rw [Function.update_of_ne hut, Function.update_of_ne hut]
      rw [hsame]
      exact hbooks a' ha'
    · have hsame : (fun u => (Function.update γ t g u).taken j') = fun u => (γ u).taken j' :=
        funext (same_of_update (f := fun g => g.taken j') (htaken j' hj))
      rw [hbits j' hj, hsame]
      exact h.books j' a' (harena j' a' hj ha')
  taken u j' hu := by
    rw [hreg, same_of_update (f := SubprocGhost.hand) hhand u]
    by_cases hut : u = t
    · subst hut
      rw [Function.update_self] at hu
      by_cases hj : j' = j
      · subst hj
        exact huse
      · rw [htaken j' hj] at hu
        exact h.taken u j' hu
    · rw [Function.update_of_ne hut] at hu
      exact h.taken u j' hu
  held u j' hu := by
    rw [hreg]
    by_cases hj : j' = j
    · subst hj
      exact hheld u hu
    · rw [hbits j' hj] at hu
      exact h.held u j' hu

/-! ## The steps -/

/-- A step that changes neither an arena nor what is registered, after which a thread may know other
things. -/
theorem Inv.of_add (h : s.Inv γ) (hadd : s'.AddInv (Function.update γ t g))
    (hcount : s'.arenaCount = s.arenaCount) (harenas : ∀ i < s.arenaCount, s'.arenas i = s.arenas i)
    (hregion : s'.region = s.region) (hnext : s'.nextRegion = s.nextRegion)
    (harena : s'.arena = s.arena) (hbits : ∀ j, (s'.mem j).bits .free = (s.mem j).bits .free)
    (hhand : g.hand = (γ t).hand) (hroom : g.room = (γ t).room)
    (htaken : g.taken = (γ t).taken)
    (hknown : ∀ j a, g.known = some (j, a) →
      s.arena j = some a ∧ (s.Registered j ∨ (γ t).hand = some j))
    (hseen : g.count ≤ s.arenaCount) : s'.Inv (Function.update γ t g) := by
  have hhands := same_of_update (f := SubprocGhost.hand) hhand
  refine ⟨hadd, h.regions.congr hcount harenas hregion hnext harena hhands
    (same_of_update (f := SubprocGhost.room) hroom) ?_ ?_,
    h.slices.congr hcount harenas harena hbits hhands
      (same_of_update (f := SubprocGhost.taken) htaken)⟩
  · exact (Function.forall_update_iff γ (p := fun u g => ∀ j a, g.known = some (j, a) →
      s.arena j = some a ∧ (s.Registered j ∨ (γ u).hand = some j))).mpr
        ⟨hknown, fun u _ => h.regions.known u⟩
  · exact count_le_update h.regions.count hseen

/-- Such a step, if it does not concern the lock either. -/
theorem Inv.aside (h : s.Inv γ) (hlocked : s'.locked = s.locked)
    (hcount : s'.arenaCount = s.arenaCount) (harenas : s'.arenas = s.arenas)
    (hregion : s'.region = s.region) (hnext : s'.nextRegion = s.nextRegion)
    (harena : s'.arena = s.arena) (hbits : ∀ j, (s'.mem j).bits .free = (s.mem j).bits .free)
    (hphase : g.phase = (γ t).phase) (hhand : g.hand = (γ t).hand)
    (hroom : g.room = (γ t).room) (htaken : g.taken = (γ t).taken)
    (hknown : ∀ j a, g.known = some (j, a) →
      s.arena j = some a ∧ (s.Registered j ∨ (γ t).hand = some j))
    (hseen : g.count ≤ s.arenaCount) : s'.Inv (Function.update γ t g) := by
  refine h.of_add (h.add.congr hlocked hcount harenas ?_ ?_) hcount
    (fun i _ => congrFun harenas i) hregion hnext harena hbits hhand hroom htaken hknown hseen
  · exact same_of_update (f := SubprocGhost.phase) hphase
  · exact fun u _ _ => same_of_update (f := SubprocGhost.hand) hhand u

/-- What the thread does that alone may hold the lock. -/
theorem AddInv.of_alone (hout : ∀ u, u ≠ t → (γ u).phase = .outside)
    (hlocked : g.phase ≠ .outside → s'.locked = true)
    (hcounted : ∀ idx, g.phase = .counted idx → s'.arenaCount = idx ∧ idx < Subproc.maxArenas)
    (hstored : ∀ idx, g.phase = .stored idx →
      s'.arenaCount = idx ∧ idx < Subproc.maxArenas ∧ s'.arenas idx = g.hand) :
    s'.AddInv (Function.update γ t g) := by
  have honly : ∀ u, (Function.update γ t g u).phase ≠ .outside → u = t := by
    intro u hu
    by_contra hne
    rw [Function.update_of_ne hne] at hu
    exact hu (hout u hne)
  refine ⟨fun u hu => ?_, fun u v hu hv => ?_, fun u idx hu => ?_, fun u idx hu => ?_⟩
  · obtain rfl := honly u hu
    rw [Function.update_self] at hu
    exact hlocked hu
  · rw [honly u hu, honly v hv]
  · obtain rfl := honly u (by rw [hu]; exact fun hc => by cases hc)
    rw [Function.update_self] at hu
    exact hcounted idx hu
  · obtain rfl := honly u (by rw [hu]; exact fun hc => by cases hc)
    rw [Function.update_self] at hu ⊢
    exact hstored idx hu

omit [DecidableEq Tid] in
/-- No other thread is between lock and unlock. -/
theorem Inv.others (h : s.Inv γ) (hphase : (γ t).phase ≠ .outside) :
    ∀ u, u ≠ t → (γ u).phase = .outside := by
  intro u hu
  by_contra hne
  exact hu (h.add.alone u t hne hphase)

/-- The lock is taken. -/
theorem Inv.lock (h : s.Inv γ) (hs : s.locked = false) :
    Inv { s with locked := true } (Function.update γ t { γ t with phase := .holding }) := by
  refine h.of_add (AddInv.of_alone ?_ (fun _ => rfl) ?_ ?_) rfl (fun _ _ => rfl) rfl rfl rfl
    (fun _ => rfl) rfl rfl rfl (h.regions.known t) (h.regions.count t)
  · intro u _
    by_contra hne
    rw [h.add.locked u hne] at hs
    cases hs
  · exact fun _ hc => by cases hc
  · exact fun _ hc => by cases hc

/-- The lock is released. -/
theorem Inv.unlock (h : s.Inv γ) (hphase : (γ t).phase ≠ .outside) :
    Inv { s with locked := false } (Function.update γ t { γ t with phase := .outside }) := by
  refine h.of_add (AddInv.of_alone (h.others hphase) (fun hc => (hc rfl).elim) ?_ ?_) rfl
    (fun _ _ => rfl) rfl rfl rfl (fun _ => rfl) rfl rfl rfl (h.regions.known t) (h.regions.count t)
  · exact fun _ hc => by cases hc
  · exact fun _ hc => by cases hc

/-- `add_arena` has loaded the count. -/
theorem Inv.loadCount (h : s.Inv γ) (hphase : (γ t).phase = .holding)
    (hlt : s.arenaCount < Subproc.maxArenas) :
    s.Inv (Function.update γ t { γ t with phase := .counted s.arenaCount }) := by
  have hne : (γ t).phase ≠ .outside := by
    rw [hphase]
    exact fun hc => by cases hc
  refine h.of_add (AddInv.of_alone (h.others hne) (fun _ => h.add.locked t hne) ?_ ?_) rfl
    (fun _ _ => rfl) rfl rfl rfl (fun _ => rfl) rfl rfl rfl (h.regions.known t) (h.regions.count t)
  · intro idx hidx
    cases hidx
    exact ⟨rfl, hlt⟩
  · exact fun _ hc => by cases hc

/-- `add_arena` has stored its arena. -/
theorem Inv.storeArena {idx : ℕ} (h : s.Inv γ) (hphase : (γ t).phase = .counted idx)
    (hhand : (γ t).hand = some j) :
    idx < Subproc.maxArenas ∧ Inv { s with arenas := Function.update s.arenas idx (some j) }
      (Function.update γ t { γ t with phase := .stored idx }) := by
  have hne : (γ t).phase ≠ .outside := by
    rw [hphase]
    exact fun hc => by cases hc
  obtain ⟨hcount, hlt⟩ := h.add.counted t idx hphase
  refine ⟨hlt, ?_⟩
  refine h.of_add (AddInv.of_alone (h.others hne) (fun _ => h.add.locked t hne) ?_ ?_) rfl
    ?_ rfl rfl rfl (fun _ => rfl) rfl rfl rfl (h.regions.known t) (h.regions.count t)
  · exact fun _ hc => by cases hc
  · intro i hi
    cases hi
    refine ⟨hcount, hlt, ?_⟩
    rw [hhand]
    exact Function.update_self ..
  · intro i hi
    exact Function.update_of_ne (by omega) ..

end SubprocMem

end MimallocRs
