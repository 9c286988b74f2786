import MimallocRs.Subproc.Invariant

/-!
# The custody of regions

A region that the operating system has given out is in the hand of the call that has asked for it
until the call registers it or gives it back. Here are the steps in which a region changes hands
(`storeCount`, `giveRegion`, `free`), and those that change an arena (`make`, `withMem`).
-/

namespace MimallocRs

open Interleave SubprocMem

variable {Tid : Type} [DecidableEq Tid] {s s' : SubprocMem Tid} {γ : Tid → SubprocGhost} {t : Tid}
  {j : ℕ} {a : Arena} {g : SubprocGhost}

namespace SubprocMem

/-! ## Regions change hands -/

section Custody

variable {total : Set ℕ} {pool : Set ℕ}

theorem inHand_update {A : Set ℕ} (hA : {j | g.hand = some j} = A) :
    inHand (Function.update γ t g) = Function.update (inHand γ) t A := by
  funext u
  by_cases hu : u = t
  · rw [hu, Function.update_self, inHand, Function.update_self, hA]
  · rw [Function.update_of_ne hu, inHand, Function.update_of_ne hu, inHand]

theorem inHand_drop (hhand : (γ t).hand = some j) (hg : g.hand = none) :
    inHand (Function.update γ t g) = Function.update (inHand γ) t (inHand γ t \ {j}) := by
  apply inHand_update
  ext i
  simp [inHand, hhand, hg]

theorem inHand_take (hhand : (γ t).hand = none) (hg : g.hand = some j) :
    inHand (Function.update γ t g) = Function.update (inHand γ) t (inHand γ t ∪ {j}) := by
  apply inHand_update
  ext i
  simp [inHand, hhand, hg, eq_comm]

/-- The region in the hand of a thread is registered. -/
theorem custody_register (h : Ledger total pool (inHand γ)) (hhand : (γ t).hand = some j)
    (hg : g.hand = none) : Ledger total (pool ∪ {j}) (inHand (Function.update γ t g)) := by
  rw [inHand_drop hhand hg]
  exact h.give (Set.singleton_subset_iff.mpr hhand)

/-- A new region is in the hand of a thread. -/
theorem custody_obtain (h : Ledger total pool (inHand γ)) (hj : j ∉ total)
    (hhand : (γ t).hand = none) (hg : g.hand = some j) :
    Ledger (total ∪ {j}) pool (inHand (Function.update γ t g)) := by
  rw [inHand_take hhand hg]
  exact h.grow (Set.disjoint_singleton_right.mpr hj)

/-- The region in the hand of a thread is no more. -/
theorem custody_release (h : Ledger total pool (inHand γ)) (hhand : (γ t).hand = some j)
    (hg : g.hand = none) : Ledger (total \ {j}) pool (inHand (Function.update γ t g)) := by
  rw [inHand_drop hhand hg]
  exact h.shrink (Set.singleton_subset_iff.mpr hhand)

end Custody

omit [DecidableEq Tid] in
/-- What the other threads have to do with an arena that is in the hand of one. -/
theorem Inv.unknown (h : s.Inv γ) (hhand : (γ t).hand = some j) {u : Tid} (hu : u ≠ t) :
    (γ u).hand ≠ some j ∧ (γ u).taken j = ∅ ∧ ∀ a, (γ u).known ≠ some (j, a) := by
  have hne : (γ u).hand ≠ some j := fun hc => hu (h.regions.hands u t j hc hhand)
  have hreg := h.regions.apart t j hhand
  refine ⟨hne, ?_, fun a ha => ?_⟩
  · by_contra hc
    exact (h.slices.taken u j hc).elim hreg hne
  · exact (h.regions.known u j a ha).2.elim hreg hne

/-! ### An arena is registered -/

omit [DecidableEq Tid] in
theorem registered_storeCount {idx j' : ℕ} (hcount : s.arenaCount = idx)
    (hstored : s.arenas idx = some j) :
    Registered { s with arenaCount := idx + 1 } j' ↔ s.Registered j' ∨ j' = j := by
  constructor
  · rintro ⟨i, hi, hij⟩
    rcases Nat.lt_succ_iff_lt_or_eq.mp hi with hi | rfl
    · exact Or.inl ⟨i, hcount ▸ hi, hij⟩
    · rw [hstored] at hij
      exact Or.inr (Option.some.inj hij).symm
  · rintro (⟨i, hi, hij⟩ | rfl)
    · rw [hcount] at hi
      exact ⟨i, Nat.lt_succ_of_lt hi, hij⟩
    · exact ⟨idx, Nat.lt_succ_self idx, hstored⟩

theorem RegionInv.storeCount {idx : ℕ} (h : s.RegionInv γ) (hcount : s.arenaCount = idx)
    (hlt : idx < Subproc.maxArenas) (hstored : s.arenas idx = some j)
    (hhand : (γ t).hand = some j) (hknown : (γ t).known = some (j, a)) :
    RegionInv { s with arenaCount := idx + 1 } (Function.update γ t { γ t with
      phase := .holding, hand := none, count := idx + 1 }) := by
  have ha := (h.known t j a hknown).1
  -- the place of the new arena is not among the others
  have hfresh : ∀ i < s.arenaCount, s.arenas i ≠ some j :=
    fun i hi hij => h.apart t j hhand ⟨i, hi, hij⟩
  refine ⟨hlt, fun i hi => ?_, fun i hi i' hi' heq => ?_, ?_, fun u j' hu => ?_, h.region,
    h.disjoint, h.fresh, fun u j' a' hu => ?_, fun u => ?_⟩
  · rcases Nat.lt_succ_iff_lt_or_eq.mp hi with hi | rfl
    · exact h.arenas i (hcount ▸ hi)
    · exact ⟨j, a, hstored, ha⟩
  · rcases Nat.lt_succ_iff_lt_or_eq.mp hi with hi | rfl
    · rcases Nat.lt_succ_iff_lt_or_eq.mp hi' with hi' | rfl
      · exact h.injective i (hcount ▸ hi) i' (hcount ▸ hi') heq
      · exact (hfresh i (hcount ▸ hi) (heq.trans hstored)).elim
    · rcases Nat.lt_succ_iff_lt_or_eq.mp hi' with hi' | rfl
      · exact (hfresh i' (hcount ▸ hi') (heq.symm.trans hstored)).elim
      · rfl
  · have hpool : {j' | Registered { s with arenaCount := idx + 1 } j'} =
        {j' | s.Registered j'} ∪ {j} :=
      Set.ext fun _ => registered_storeCount hcount hstored
    rw [hpool]
    exact custody_register h.custody hhand rfl
  · by_cases hut : u = t
    · subst hut
      rw [Function.update_self] at hu
      cases hu
    · rw [Function.update_of_ne hut] at hu ⊢
      exact h.room u j' hu
  · rw [registered_storeCount hcount hstored]
    by_cases hut : u = t
    · subst hut
      rw [Function.update_self] at hu ⊢
      have hk : (γ u).known = some (j', a') := hu
      rw [hknown] at hk
      cases hk
      exact ⟨ha, Or.inl (Or.inr rfl)⟩
    · rw [Function.update_of_ne hut] at hu ⊢
      obtain ⟨ha', hreg⟩ := h.known u j' a' hu
      exact ⟨ha', hreg.imp_left Or.inl⟩
  · apply count_le_update (n := idx + 1) _ le_rfl u
    intro u
    have hle := h.count u
    omega

/-- `add_arena` has stored the new count: its arena is registered. -/
theorem Inv.storeCount {idx : ℕ} (h : s.Inv γ) (hphase : (γ t).phase = .stored idx)
    (hhand : (γ t).hand = some j) (hknown : (γ t).known = some (j, a)) :
    Inv { s with arenaCount := idx + 1 } (Function.update γ t { γ t with
      phase := .holding, hand := none, count := idx + 1 }) := by
  have hne : (γ t).phase ≠ .outside := by
    rw [hphase]
    exact fun hc => by cases hc
  obtain ⟨hcount, hlt, hstored⟩ := h.add.stored t idx hphase
  rw [hhand] at hstored
  refine ⟨AddInv.of_alone (h.others hne) (fun _ => h.add.locked t hne) ?_ ?_,
    h.regions.storeCount hcount hlt hstored hhand hknown,
    h.slices.mono (fun _ _ ha => ha) (fun _ => rfl)
      (same_of_update (f := SubprocGhost.taken) rfl) ?_ ?_⟩
  · exact fun _ hc => by cases hc
  · exact fun _ hc => by cases hc
  · exact fun j' hj' => (registered_storeCount hcount hstored).mpr (Or.inl hj')
  · intro u j' _ hor
    rw [registered_storeCount hcount hstored]
    by_cases hut : u = t
    · subst hut
      rw [hhand] at hor
      exact Or.inl (hor.imp_right fun hj => (Option.some.inj hj).symm)
    · rw [Function.update_of_ne hut]
      exact hor.imp_left Or.inl

/-! ### A region is given out -/

omit [DecidableEq Tid] in
/-- What `giveRegion` does. -/
theorem giveRegion_eq {start slices : ℕ} (hs : s.giveRegion start slices = some s') :
    s.Vacant start slices ∧ s' = { s with
      region := Function.update s.region s.nextRegion (some (start, slices))
      nextRegion := s.nextRegion + 1 } := by
  unfold SubprocMem.giveRegion at hs
  split at hs
  · next hvacant =>
    cases hs
    exact ⟨hvacant, rfl⟩
  · cases hs

theorem RegionInv.giveRegion {start slices : ℕ} (h : s.RegionInv γ) (hhand : (γ t).hand = none)
    (hs : s.giveRegion start slices = some s') :
    s'.RegionInv (Function.update γ t { γ t with
      hand := some s.nextRegion, room := (start, slices) }) := by
  obtain ⟨hvacant, rfl⟩ := giveRegion_eq hs
  have hnone : s.region s.nextRegion = none := by
    by_contra hne
    exact absurd (h.fresh _ (Option.isSome_iff_ne_none.mpr hne)) (Nat.lt_irrefl _)
  have hold : ∀ {i r}, s.region i = some r → i ≠ s.nextRegion := by
    rintro i r hr rfl
    rw [hnone] at hr
    cases hr
  refine ⟨h.count_le, h.arenas, h.injective, ?_, fun u j' hu => ?_, fun j' a' ha' => ?_,
    fun i i' r r' hne hr hr' => ?_, fun j' hj' => ?_, fun u j' a' hu => ?_, fun u => ?_⟩
  · have htotal : {j' | (Function.update s.region s.nextRegion (some (start, slices)) j').isSome} =
        {j' | (s.region j').isSome} ∪ {s.nextRegion} := by
      ext j'
      by_cases hj : j' = s.nextRegion
      · simp [hj]
      · simp [hj]
    show Ledger {j' | (Function.update s.region s.nextRegion (some (start, slices)) j').isSome} _ _
    rw [htotal]
    exact custody_obtain h.custody (by simp [hnone]) hhand rfl
  · by_cases hut : u = t
    · subst hut
      rw [Function.update_self] at hu ⊢
      cases hu
      exact Function.update_self ..
    · rw [Function.update_of_ne hut] at hu ⊢
      have hroom := h.room u j' hu
      exact (Function.update_of_ne (hold hroom) ..).trans hroom
  · have hregion := h.region j' a' ha'
    exact (Function.update_of_ne (hold hregion) ..).trans hregion
  · have hr : Function.update s.region s.nextRegion (some (start, slices)) i = some r := hr
    have hr' : Function.update s.region s.nextRegion (some (start, slices)) i' = some r' := hr'
    by_cases hi : i = s.nextRegion
    · subst hi
      rw [Function.update_self] at hr
      rw [Function.update_of_ne (Ne.symm hne)] at hr'
      cases hr
      exact hvacant i' (h.fresh i' (by rw [hr']; rfl)) r' hr'
    · rw [Function.update_of_ne hi] at hr
      by_cases hi' : i' = s.nextRegion
      · subst hi'
        rw [Function.update_self] at hr'
        cases hr'
        exact (hvacant i (h.fresh i (by rw [hr]; rfl)) r hr).symm
      · rw [Function.update_of_ne hi'] at hr'
        exact h.disjoint i i' r r' hne hr hr'
  · show j' < s.nextRegion + 1
    by_cases hj : j' = s.nextRegion
    · omega
    · have hj' : (Function.update s.region s.nextRegion (some (start, slices)) j').isSome := hj'
      rw [Function.update_of_ne hj] at hj'
      exact Nat.lt_succ_of_lt (h.fresh j' hj')
  · by_cases hut : u = t
    · subst hut
      rw [Function.update_self] at hu ⊢
      obtain ⟨ha', hor⟩ := h.known u j' a' hu
      refine ⟨ha', Or.inl (hor.resolve_right ?_)⟩
      rw [hhand]
      exact fun hc => by cases hc
    · rw [Function.update_of_ne hut] at hu ⊢
      exact h.known u j' a' hu
  · exact count_le_update h.count (by exact h.count t) u

/-- A region is given out. -/
theorem Inv.giveRegion {start slices : ℕ} (h : s.Inv γ) (hphase : (γ t).phase = .outside)
    (hhand : (γ t).hand = none) (hs : s.giveRegion start slices = some s') :
    s'.Inv (Function.update γ t { γ t with
      hand := some s.nextRegion, room := (start, slices) }) := by
  have hregions := h.regions.giveRegion hhand hs
  obtain ⟨-, rfl⟩ := giveRegion_eq hs
  refine ⟨h.add.congr rfl rfl rfl (same_of_update (f := SubprocGhost.phase) rfl) ?_, hregions,
    h.slices.mono (fun _ _ ha => ha) (fun _ => rfl)
      (same_of_update (f := SubprocGhost.taken) rfl) (fun _ hj => hj) ?_⟩
  · intro u idx hu
    rw [Function.update_of_ne]
    rintro rfl
    rw [hphase] at hu
    cases hu
  · intro u j' _ hor
    by_cases hut : u = t
    · subst hut
      rw [hhand] at hor
      exact Or.inl (hor.resolve_right fun hc => by cases hc)
    · rwa [Function.update_of_ne hut]

/-! ### A region is given back -/

omit [DecidableEq Tid] in
theorem arena_free {j' : ℕ} : (s.free j).arena j' = some a ↔ j' ≠ j ∧ s.arena j' = some a := by
  rw [arena_eq_some, arena_eq_some]
  show Function.update s.made j false j' = true ∧ _ ↔ _
  by_cases hj : j' = j
  · simp [hj]
  · rw [Function.update_of_ne hj]
    exact (and_iff_right hj).symm

omit [DecidableEq Tid] in
theorem region_free {j' : ℕ} {r : ℕ × ℕ} :
    (s.free j).region j' = some r ↔ j' ≠ j ∧ s.region j' = some r := by
  show Function.update s.region j none j' = some r ↔ _
  by_cases hj : j' = j
  · simp [hj]
  · rw [Function.update_of_ne hj]
    exact (and_iff_right hj).symm

theorem Inv.regions_free (h : s.Inv γ) (hhand : (γ t).hand = some j) :
    (s.free j).RegionInv (Function.update γ t { γ t with hand := none, known := none }) := by
  have hreg := h.regions.apart t j hhand
  refine ⟨h.regions.count_le, fun i hi => ?_, h.regions.injective, ?_, fun u j' hu => ?_,
    fun j' a' ha' => ?_, fun i i' r r' hne hr hr' => ?_, fun j' hj' => ?_,
    fun u j' a' hu => ?_, fun u => ?_⟩
  · obtain ⟨j', a', hj', ha'⟩ := h.regions.arenas i hi
    refine ⟨j', a', hj', arena_free.mpr ⟨?_, ha'⟩⟩
    rintro rfl
    exact hreg ⟨i, hi, hj'⟩
  · have htotal : {j' | ((s.free j).region j').isSome} = {j' | (s.region j').isSome} \ {j} := by
      ext j'
      simp only [Option.isSome_iff_exists, region_free, exists_and_left]
      exact and_comm
    rw [htotal]
    exact custody_release h.regions.custody hhand rfl
  · by_cases hut : u = t
    · subst hut
      rw [Function.update_self] at hu
      cases hu
    · rw [Function.update_of_ne hut] at hu ⊢
      refine region_free.mpr ⟨?_, h.regions.room u j' hu⟩
      rintro rfl
      exact (h.unknown hhand hut).1 hu
  · obtain ⟨hj, ha'⟩ := arena_free.mp ha'
    exact region_free.mpr ⟨hj, h.regions.region j' a' ha'⟩
  · exact h.regions.disjoint i i' r r' hne (region_free.mp hr).2 (region_free.mp hr').2
  · obtain ⟨r, hr⟩ := Option.isSome_iff_exists.mp hj'
    exact h.regions.fresh j' (Option.isSome_iff_exists.mpr ⟨r, (region_free.mp hr).2⟩)
  · by_cases hut : u = t
    · subst hut
      rw [Function.update_self] at hu
      cases hu
    · rw [Function.update_of_ne hut] at hu ⊢
      obtain ⟨ha', hor⟩ := h.regions.known u j' a' hu
      refine ⟨arena_free.mpr ⟨?_, ha'⟩, hor⟩
      rintro rfl
      exact (h.unknown hhand hut).2.2 a' hu
  · exact count_le_update h.regions.count (by exact h.regions.count t) u

/-- A region that has not been registered is given back. -/
theorem Inv.free (h : s.Inv γ) (hphase : (γ t).phase = .outside) (hhand : (γ t).hand = some j)
    (htaken : (γ t).taken j = ∅) :
    (s.free j).Inv (Function.update γ t { γ t with hand := none, known := none }) := by
  refine ⟨h.add.congr rfl rfl rfl (same_of_update (f := SubprocGhost.phase) rfl) ?_,
    h.regions_free hhand, h.slices.mono (fun _ _ ha => (arena_free.mp ha).2) (fun _ => rfl)
      (same_of_update (f := SubprocGhost.taken) rfl) (fun _ hj => hj) ?_⟩
  · intro u idx hu
    rw [Function.update_of_ne]
    rintro rfl
    rw [hphase] at hu
    cases hu
  · intro u j' hu hor
    by_cases hut : u = t
    · subst hut
      refine Or.inl (hor.resolve_right fun hc => hu ?_)
      rw [hhand] at hc
      cases hc
      exact htaken
    · rwa [Function.update_of_ne hut]

/-! ### An arena is made -/

/-- The slices of a new arena are in the hands of the call that makes it. -/
theorem books_make (s : SubprocMem Tid) (t : Tid) (j : ℕ) (a : Arena) :
    (((s.make t j a).mem j).bits .free).Books a.chunkCount {i | i < a.sliceCount} ∧
      (((s.make t j a).mem j).bits .free).taken =
        Function.update (fun _ => ∅) t {i | i < a.sliceCount} ∧
      ∀ u, (((s.make t j a).mem j).bits .free).held u = [] := by
  have hbits : ((s.make t j a).mem j).bits .free = { BitShared.init (fun _ => 0#64) with
      taken := Function.update (fun _ => ∅) t {i | i < a.sliceCount} } := by
    simp [make]
  rw [hbits]
  refine ⟨⟨?_, fun u => ?_, fun _ => List.Pairwise.nil⟩, rfl, fun _ => rfl⟩
  · have hshare : BitShared.share { (BitShared.init (fun _ => 0#64) : BitShared Tid) with
        taken := Function.update (fun _ => ∅) t {i | i < a.sliceCount} } =
        Function.update (fun _ => ∅) t {i | i < a.sliceCount} := by
      funext u
      simp [BitShared.share, BitShared.heldBits, BitShared.init]
    have hpool : BitShared.setBits a.chunkCount { (BitShared.init (fun _ => 0#64) : BitShared Tid)
        with taken := Function.update (fun _ => ∅) t {i | i < a.sliceCount} } =
        {i | i < a.sliceCount} \ {i | i < a.sliceCount} := by
      rw [Set.sdiff_self]
      ext i
      simp [BitShared.setBits, bitsOf, BitShared.init]
    have hinit : Ledger {i | i < a.sliceCount} {i | i < a.sliceCount} fun _ : Tid => ∅ :=
      Ledger.init
    have htake := hinit.take (i := t) Set.Subset.rfl
    rw [Set.empty_union] at htake
    rw [hshare, hpool]
    exact htake
  · simp [BitShared.heldBits, BitShared.init]

theorem arena_make_self : (s.make t j a).arena j = some a := by
  rw [arena_eq_some]
  exact ⟨Function.update_self .., Function.update_self ..⟩

theorem arena_make_of_ne {j' : ℕ} (hj : j' ≠ j) : (s.make t j a).arena j' = s.arena j' := by
  show (if Function.update s.made j true j' then some (Function.update s.descriptor j a j')
    else none) = _
  rw [Function.update_of_ne hj, Function.update_of_ne hj]
  rfl

theorem Inv.regions_make (h : s.Inv γ) (hhand : (γ t).hand = some j)
    (hregion : s.region j = some (a.start, a.sliceCount)) (hg : g.hand = (γ t).hand)
    (hroom : g.room = (γ t).room) (hknown : g.known = some (j, a))
    (hcount : g.count = (γ t).count) :
    (s.make t j a).RegionInv (Function.update γ t g) := by
  have hhands : ∀ u, (Function.update γ t g u).hand = (γ u).hand :=
    same_of_update (f := SubprocGhost.hand) hg
  refine ⟨h.regions.count_le, fun i hi => ?_, h.regions.injective, ?_, fun u j' hu => ?_,
    fun j' a' ha' => ?_, h.regions.disjoint, h.regions.fresh, fun u j' a' hu => ?_, fun u => ?_⟩
  · obtain ⟨j', a', hj', ha'⟩ := h.regions.arenas i hi
    refine ⟨j', a', hj', (arena_make_of_ne ?_).trans ha'⟩
    rintro rfl
    exact h.regions.apart t j' hhand ⟨i, hi, hj'⟩
  · have hsame : inHand (Function.update γ t g) = inHand γ :=
      funext fun u => by rw [inHand, inHand, hhands]
    rw [hsame]
    exact h.regions.custody
  · rw [hhands] at hu
    refine (h.regions.room u j' hu).trans (congrArg some ?_)
    exact (same_of_update (f := SubprocGhost.room) hroom u).symm
  · by_cases hj : j' = j
    · subst hj
      rw [arena_make_self] at ha'
      cases ha'
      exact hregion
    · rw [arena_make_of_ne hj] at ha'
      exact h.regions.region j' a' ha'
  · rw [hhands]
    by_cases hut : u = t
    · subst hut
      rw [Function.update_self, hknown] at hu
      cases hu
      exact ⟨arena_make_self, Or.inr hhand⟩
    · rw [Function.update_of_ne hut] at hu
      obtain ⟨ha', hor⟩ := h.regions.known u j' a' hu
      refine ⟨(arena_make_of_ne ?_).trans ha', hor⟩
      rintro rfl
      exact (h.unknown hhand hut).2.2 a' hu
  · exact count_le_update h.regions.count (hcount.trans_le (h.regions.count t)) u

theorem Inv.slices_make (h : s.Inv γ) (hhand : (γ t).hand = some j) (hg : g.hand = (γ t).hand)
    (htaken : g.taken = Function.update (γ t).taken j {i | i < a.sliceCount}) :
    (s.make t j a).SlicesInv (Function.update γ t g) := by
  obtain ⟨hbooks, hnew, hheld⟩ := books_make s t j a
  refine h.slices.of_arena (j := j) (fun j' a' hj ha' => ?_) (fun j' hj => ?_) (fun _ => Iff.rfl) hg
    (fun j' hj => ?_) (fun a' ha' => ?_) (Or.inr hhand) fun u hu => (hu (hheld u)).elim
  · rwa [arena_make_of_ne hj] at ha'
  · exact congrArg (fun w : ArenaShared Tid => w.bits .free) (Function.update_of_ne hj ..)
  · rw [htaken, Function.update_of_ne hj]
  · rw [arena_make_self] at ha'
    cases ha'
    refine ⟨hbooks, hnew.trans ?_⟩
    funext u
    by_cases hut : u = t
    · rw [hut, Function.update_self, Function.update_self, htaken, Function.update_self]
    · rw [Function.update_of_ne hut, Function.update_of_ne hut]
      exact (h.unknown hhand hut).2.1.symm

/-- An arena is made in a region that is in the hand of the thread. -/
theorem Inv.make (h : s.Inv γ) (hhand : (γ t).hand = some j)
    (hregion : s.region j = some (a.start, a.sliceCount)) :
    (s.make t j a).Inv (Function.update γ t { γ t with
      known := some (j, a)
      taken := Function.update (γ t).taken j {i | i < a.sliceCount} }) := by
  refine ⟨h.add.congr rfl rfl rfl (same_of_update (f := SubprocGhost.phase) rfl) ?_,
    h.regions_make hhand hregion rfl rfl rfl rfl, h.slices_make hhand rfl rfl⟩
  exact fun u _ _ => same_of_update (f := SubprocGhost.hand) (by rfl) u

/-! ## An arena in use -/

/-- An arena has been changed by a thread that may use it. -/
theorem Inv.withMem {w : ArenaShared Tid} {x : Set ℕ} (h : s.Inv γ)
    (hknown : (γ t).known = some (j, a))
    (hinv : (claimOutline Tid a.chunkCount {i | i < a.sliceCount}).inv (w.bits .free)
      (Function.update (fun u => (γ u).taken j) t x))
    (hheld : ∀ u, (w.bits .free).held u ≠ [] → s.Registered j) :
    (s.withMem j w).Inv
      (Function.update γ t { γ t with taken := Function.update (γ t).taken j x }) := by
  obtain ⟨ha, hor⟩ := h.regions.known t j a hknown
  have hhands : ∀ u, (Function.update γ t { γ t with
      taken := Function.update (γ t).taken j x } u).hand = (γ u).hand :=
    same_of_update (f := SubprocGhost.hand) rfl
  have hknowns : ∀ u, (Function.update γ t { γ t with
      taken := Function.update (γ t).taken j x } u).known = (γ u).known :=
    same_of_update (f := SubprocGhost.known) rfl
  refine ⟨h.add.congr rfl rfl rfl (same_of_update (f := SubprocGhost.phase) rfl)
    fun u _ _ => hhands u, h.regions.congr rfl (fun _ _ => rfl) rfl rfl rfl hhands
      (same_of_update (f := SubprocGhost.room) rfl) ?_
      (count_le_update h.regions.count (h.regions.count t)), ?_⟩
  · intro u j' a' hu
    rw [hknowns] at hu
    exact h.regions.known u j' a' hu
  · refine h.slices.of_arena (j := j) (fun _ _ _ ha' => ha') (fun j' hj => ?_) (fun _ => Iff.rfl)
      rfl (fun j' hj => Function.update_of_ne hj ..) (fun a' ha' => ?_) hor fun u hu => hheld u ?_
    · exact congrArg (fun w : ArenaShared Tid => w.bits .free) (Function.update_of_ne hj ..)
    · have heq : a' = a := Option.some.inj (ha'.symm.trans ha)
      rw [heq]
      show (claimOutline Tid a.chunkCount _).inv ((Function.update s.mem j w j).bits .free)
        (Function.update _ t (Function.update (γ t).taken j x j))
      rw [Function.update_self, Function.update_self]
      exact hinv
    · have hu : ((Function.update s.mem j w j).bits .free).held u ≠ [] := hu
      rwa [Function.update_self] at hu

end SubprocMem

end MimallocRs
