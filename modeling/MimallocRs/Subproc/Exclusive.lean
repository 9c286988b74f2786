import MimallocRs.Subproc.Outline

/-!
# The threads of the sub-process share no memory

The registry of arenas is read without the lock, and any call may find that it has to add to it.
`arenas_exclusive` says that for any number of threads and any interleaving no entry is lost or
stored twice and no region is lost; that an arena is there whenever it is used; that in each arena a
slice is free, held by one thread or taken by one running call; and that the slices that threads
hold, from whichever arenas, are disjoint ranges of addresses, which change by the hand of their
holders alone.
-/

namespace MimallocRs

open Interleave Prog SubprocMem

variable {Tid : Type} [DecidableEq Tid] {strips : Bool} {t u : Tid} {s s' : SubprocMem Tid}
  {γ : Tid → SubprocGhost} {o : SubprocOp} {j i : ℕ} {a : Arena}
  {c c' : Config SubprocAct Tid SubprocOp SubprocOp.Res (SubprocMem Tid)}

/-! ## Runs -/

/-- A call that answers that an address is owned knows the arena in which it lies. -/
def SubprocOp.Sound : (o : SubprocOp) → o.Res → SubprocGhost → Prop
  | .ownsAddress ptr, r, g =>
    r = true → ∃ j a, g.known = some (j, a) ∧ (a.sliceIndexOf ptr).isSome
  | .allocSlices .., _, _ | .freeSlices .., _, _ | .tryPurge _, _, _ | .write .., _, _
  | .setOption .., _, _ | .tick _, _, _ => True

/-- What a call that is about to return has: the run of slices that it has claimed, or nothing. -/
def subprocPost (_ : Tid) (o : SubprocOp) (r : o.Res) (g : SubprocGhost) : Prop :=
  (match o.claimed r with
    | some (j, idx, n) => g.Claims j idx n
    | none => g.Idle) ∧ o.Sound r g

omit [DecidableEq Tid] in
theorem SubprocMem.mem_of_registered (h : s.RegionInv γ) (hj : s.Registered j) :
    ∃ a, s.arena j = some a := by
  obtain ⟨i, hi, hij⟩ := hj
  obtain ⟨j', a, hj', ha⟩ := h.arenas i hi
  rw [hij] at hj'
  cases hj'
  exact ⟨a, ha⟩

omit [DecidableEq Tid] in
theorem SubprocMem.Init.inv (h : s.Init) : ∃ γ, s.Inv γ ∧ ∀ t, (γ t).Idle := by
  obtain ⟨opts, now, descriptor, contents, rfl⟩ := h
  refine ⟨fun _ => ⟨.outside, none, (0, 0), none, 0, fun _ => ∅⟩, ⟨?_, ?_, ?_⟩,
    fun _ => ⟨rfl, rfl, rfl⟩⟩
  · exact ⟨fun _ h => (h rfl).elim, fun _ _ h => (h rfl).elim, fun _ _ h => (by cases h),
      fun _ _ h => (by cases h)⟩
  · have hpool : {j | (init opts now descriptor contents : SubprocMem Tid).Registered j} = ∅ := by
      ext j
      simp [Registered, SubprocMem.init]
    refine ⟨Nat.zero_le _, fun i hi => absurd hi (Nat.not_lt_zero i),
      fun i hi => absurd hi (Nat.not_lt_zero i), ?_, fun _ _ h => (by cases h),
      fun _ _ h => (by cases h), fun _ _ _ _ _ h => (by cases h), fun _ h => (by cases h),
      fun _ _ _ h => (by cases h), fun _ => le_rfl⟩
    rw [hpool]
    show Ledger {j | (none : Option (ℕ × ℕ)).isSome} ∅ fun _ => {j | (none : Option ℕ) = some j}
    simpa using (Ledger.init : Ledger (∅ : Set ℕ) ∅ fun _ : Tid => ∅)
  · exact ⟨fun _ _ h => (by cases h), fun _ _ h => (h rfl).elim, fun _ _ h => (h rfl).elim⟩

theorem BitShared.held_of_giveBack {s s' : BitShared Tid} {idx n : ℕ}
    (h : s.giveBack t idx n = some s') : s.held t ≠ [] := by
  unfold BitShared.giveBack at h
  split at h
  · next hmem => exact List.ne_nil_of_mem hmem
  · cases h

/-- The bitmap of free slices of an arena has been changed between calls. -/
theorem SubprocMem.Inv.withFree {w : BitShared Tid} {x : Set ℕ} (h : s.Inv γ)
    (hj : s.Registered j) (ha : s.arena j = some a)
    (hbooks : w.Books a.chunkCount {i | i < a.sliceCount})
    (htaken : w.taken = Function.update ((s.mem j).bits .free).taken t x) :
    (s.withMem j ((s.mem j).withBits .free w)).Inv (Function.update γ t { γ t with
      known := some (j, a)
      taken := Function.update (γ t).taken j x }) := by
  have hknown : s.Inv (Function.update γ t { γ t with known := some (j, a) }) := by
    refine h.aside rfl rfl rfl rfl rfl rfl (fun _ => rfl) rfl rfl rfl rfl ?_ (h.regions.count t)
    intro j' a' hja
    cases hja
    exact ⟨ha, Or.inl hj⟩
  have hnew : (s.withMem j ((s.mem j).withBits .free w)).Inv (Function.update
      (Function.update γ t { γ t with known := some (j, a) }) t
      { Function.update γ t { γ t with known := some (j, a) } t with
        taken := Function.update (Function.update γ t { γ t with known := some (j, a) } t).taken
          j x }) := by
    refine hknown.withMem (a := a) (by rw [Function.update_self]) ?_ fun _ _ => hj
    rw [ArenaShared.withBits_bits]
    refine ⟨hbooks, ?_⟩
    rw [htaken, (h.slices.books j a ha).2]
    funext u
    by_cases hu : u = t
    · rw [hu, Function.update_self, Function.update_self]
    · rw [Function.update_of_ne hu, Function.update_of_ne hu, Function.update_of_ne hu]
  rwa [Function.update_idem, Function.update_self] at hnew

theorem subprocSystem_start (hi : s.Inv γ) (hidle : (γ t).Idle)
    (hs : (subprocSystem Tid strips).start t o s = some s') :
    ∃ g, s'.Inv (Function.update γ t g) ∧
      SubprocSafe strips t ((subprocSystem Tid strips).prog t o) g (subprocPost t o) := by
  have keep : s.Inv (Function.update γ t (γ t)) := by
    rw [Function.update_eq_self]
    exact hi
  cases o with
  | allocSlices n commit tseq =>
    cases hs
    refine ⟨γ t, keep, (SubprocSafe.allocSlices hidle).mono fun r g hg => ?_⟩
    cases r with
    | none => exact ⟨hg, trivial⟩
    | some p => exact ⟨hg, trivial⟩
  | freeSlices j idx n =>
    obtain ⟨w, hw, rfl⟩ := Option.map_eq_some_iff.mp hs
    have hreg := hi.slices.held t j (BitShared.held_of_giveBack hw)
    obtain ⟨a, ha⟩ := mem_of_registered hi.regions hreg
    obtain ⟨hbooks, htaken⟩ := hi.slices.books j a ha
    obtain ⟨hbooks', htaken'⟩ := hbooks.giveBack hw
    have hnone : ((s.mem j).bits .free).taken t = ∅ := by
      rw [htaken]
      exact congrFun hidle.taken j
    refine ⟨_, hi.withFree hreg ha hbooks' htaken', (SubprocSafe.freeSlices ?_).mono ?_⟩
    · refine ⟨hidle.phase, hidle.hand, ⟨a, rfl⟩, ?_⟩
      rw [hnone, Set.empty_union, hidle.taken]
    · exact fun _ _ hg => ⟨hg, trivial⟩
  | tryPurge force =>
    cases hs
    exact ⟨γ t, keep, (SubprocSafe.tryPurge hidle).mono fun _ _ hg => ⟨hg, trivial⟩⟩
  | ownsAddress ptr =>
    cases hs
    exact ⟨γ t, keep, SubprocSafe.ownsAddress hidle⟩
  | write j idx off v =>
    simp only [subprocSystem] at hs
    split at hs <;> cases hs
    refine ⟨γ t, ?_, Safe.ret ⟨hidle, trivial⟩⟩
    refine hi.aside rfl rfl rfl rfl rfl rfl (fun j' => ?_) rfl rfl rfl rfl (hi.regions.known t)
      (hi.regions.count t)
    by_cases hj : j' = j
    · simp [SubprocMem.withMem, hj]
    · simp [SubprocMem.withMem, hj]
  | setOption | tick =>
    cases hs
    refine ⟨γ t, ?_, Safe.ret ⟨hidle, trivial⟩⟩
    exact hi.aside rfl rfl rfl rfl rfl rfl (fun _ => rfl) rfl rfl rfl rfl (hi.regions.known t)
      (hi.regions.count t)

theorem subprocSystem_finish {r : o.Res} (hi : s.Inv γ) (hpost : subprocPost t o r (γ t)) :
    ∃ g, ((subprocSystem Tid strips).finish t o r s).Inv (Function.update γ t g) ∧ g.Idle := by
  obtain ⟨hpost, -⟩ := hpost
  cases hr : o.claimed r with
  | none =>
    simp only [hr] at hpost
    simp only [subprocSystem, hr]
    refine ⟨γ t, ?_, hpost⟩
    rw [Function.update_eq_self]
    exact hi
  | some p =>
    obtain ⟨j, idx, n⟩ := p
    simp only [hr] at hpost
    simp only [subprocSystem, hr]
    obtain ⟨a, hknown⟩ := hpost.known
    obtain ⟨ha, hor⟩ := hi.regions.known t j a hknown
    have hreg : s.Registered j := by
      refine hor.resolve_right ?_
      rw [hpost.hand]
      exact fun hc => by cases hc
    obtain ⟨hbooks, htaken⟩ := hi.slices.books j a ha
    have hrun : ((s.mem j).bits .free).taken t = bitRange idx n := by
      rw [htaken]
      show (γ t).taken j = _
      rw [hpost.taken, Function.update_self]
    obtain ⟨hbooks', htaken'⟩ := hbooks.keep hrun
    refine ⟨_, hi.withFree hreg ha hbooks' htaken', hpost.phase, hpost.hand, ?_⟩
    rw [hpost.taken]
    simp

/-- The invariant holds in every reachable configuration. -/
theorem subprocSystem_reachable
    (h : (subprocSystem Tid strips).Reachable SubprocMem.Init System.anyMove c) :
    ∃ γ, c.mem.Inv γ ∧ ∀ t, (subprocOutline Tid).Thread (subprocSystem Tid strips).toMachine
      (fun _ g => g.Idle) subprocPost t (γ t) (c.thread t) := by
  apply Outline.reachable (O := subprocOutline Tid) _ _ _ _ h
  · exact fun s hs => hs.inv
  · exact fun t o s s' γ hi hidle hs => subprocSystem_start hi hidle hs
  · exact fun t o r s γ hi hpost => subprocSystem_finish hi hpost
  · exact fun _ _ _ _ _ _ _ _ _ _ _ => trivial

/-! ## Addresses -/

/-- The slice `i` of the arena at `j` as a range of addresses lies before another. -/
def SubprocMem.Before (s : SubprocMem Tid) (j i j' i' : ℕ) : Prop :=
  (s.descriptor j).slicePtr i + miArenaSliceSize ≤ (s.descriptor j').slicePtr i'

theorem slicePtr_lt {i i' : ℕ} (h : i < i') :
    a.slicePtr i + miArenaSliceSize ≤ a.slicePtr i' := by
  have hle : (i + 1) * miArenaSliceSize ≤ i' * miArenaSliceSize := Nat.mul_le_mul_right _ h
  rw [Nat.succ_mul] at hle
  unfold Arena.slicePtr
  omega

omit [DecidableEq Tid] in
/-- Slices of two arenas do not overlap. -/
theorem SubprocMem.RegionInv.before {j' i' : ℕ} {a' : Arena} (h : s.RegionInv γ) (hj : j ≠ j')
    (ha : s.arena j = some a) (ha' : s.arena j' = some a') (hi : i < a.sliceCount)
    (hi' : i' < a'.sliceCount) : s.Before j i j' i' ∨ s.Before j' i' j i := by
  have hdis := h.disjoint j j' _ _ hj (h.region j a ha) (h.region j' a' ha')
  have hlast := slicePtr_lt (a := a) hi
  have hlast' := slicePtr_lt (a := a') hi'
  unfold SubprocMem.Before
  rw [(arena_eq_some.mp ha).2, (arena_eq_some.mp ha').2]
  simp only [Arena.slicePtr] at hdis hlast hlast' ⊢
  omega

/-! ## What happens to a slice that a thread holds -/

omit [DecidableEq Tid] in
theorem SubprocMem.withMem_self (w : ArenaShared Tid) : (s.withMem j w).mem j = w :=
  Function.update_self ..

omit [DecidableEq Tid] in
theorem SubprocMem.withMem_of_ne {j' : ℕ} (w : ArenaShared Tid) (hj : j' ≠ j) :
    (s.withMem j w).mem j' = s.mem j' :=
  Function.update_of_ne hj ..

/-- An event leaves a slice alone that is not in the range with which it calls the operating
system. -/
theorem Region.SameAt.of_event {β : Type} {e : SubprocAct β} {choice : ℕ} {b : β}
    (hex : s.exec strips t e choice = some (b, s'))
    (hi : ∀ e', e = .arena j e' → ∀ r ∈ e'.osRange, i ∉ bitRange r.1 r.2) :
    (s.mem j).region.SameAt (s'.mem j).region i := by
  cases e with
  | tryLock | zalloc =>
    simp only [SubprocMem.exec] at hex
    split at hex <;> cases hex <;> exact ⟨rfl, rfl⟩
  | osAlloc slices =>
    simp only [SubprocMem.exec] at hex
    split at hex
    · cases hex
      exact ⟨rfl, rfl⟩
    · obtain ⟨w, hw, heq⟩ := Option.map_eq_some_iff.mp hex
      cases heq
      unfold giveRegion at hw
      split at hw <;> cases hw
      exact ⟨rfl, rfl⟩
  | write j' a =>
    cases hex
    have hregion : ((s.make t j' a).mem j).region = (s.mem j).region := by
      by_cases hj : j = j'
      · simp [make, hj]
      · simp [make, hj]
    rw [hregion]
    exact ⟨rfl, rfl⟩
  | arena j' e =>
    obtain ⟨⟨b, w⟩, hw, heq⟩ := Option.map_eq_some_iff.mp hex
    cases heq
    by_cases hj : j = j'
    · subst hj
      rw [SubprocMem.withMem_self]
      exact Region.SameAt.of_os (s := s.view j) hw (hi e rfl)
    · rw [SubprocMem.withMem_of_ne _ hj]
      exact ⟨rfl, rfl⟩
  | _ =>
    cases hex
    exact ⟨rfl, rfl⟩

/-- The start of a call leaves a slice alone, unless the call writes to it. -/
theorem Region.SameAt.of_call (hs : (subprocSystem Tid strips).start t o s = some s')
    (ho : ∀ off v, o ≠ .write j i off v) : (s.mem j).region.SameAt (s'.mem j).region i := by
  cases o with
  | freeSlices j' idx n =>
    obtain ⟨w, -, rfl⟩ := Option.map_eq_some_iff.mp hs
    by_cases hj : j = j'
    · subst hj
      rw [SubprocMem.withMem_self]
      exact ⟨rfl, rfl⟩
    · rw [SubprocMem.withMem_of_ne _ hj]
      exact ⟨rfl, rfl⟩
  | write j' idx off v =>
    simp only [subprocSystem] at hs
    split at hs <;> cases hs
    by_cases hj : j = j'
    · subst hj
      rw [SubprocMem.withMem_self]
      have hne : i ≠ idx := by
        rintro rfl
        exact ho off v rfl
      exact ⟨funext fun off' => if_neg fun h => hne h.1, rfl⟩
    · rw [SubprocMem.withMem_of_ne _ hj]
      exact ⟨rfl, rfl⟩
  | allocSlices | tryPurge | ownsAddress | setOption | tick =>
    cases hs
    exact ⟨rfl, rfl⟩

/-! ## The threads together -/

/-- What an event is about to do is as it is asserted. -/
theorem subproc_asserts
    (h : (subprocSystem Tid strips).Reachable SubprocMem.Init System.anyMove c) {β : Type}
    {e : SubprocAct β} {k : β → Prog SubprocAct o.Res} (ht : c.thread t = some ⟨o, .act e k⟩)
    {choice : ℕ} {r : β × SubprocMem Tid} (hex : c.mem.exec strips t e choice = some r) :
    c.mem.Asserts t e := by
  obtain ⟨γ, hinv, hth⟩ := subprocSystem_reachable h
  exact Outline.asserts_of_thread hinv (hth t) ht trivial hex

omit [DecidableEq Tid] in
theorem SubprocMem.Inv.divided (h : s.Inv γ) (ha : s.arena j = some a) : (s.mem j).Divided a :=
  .of_books (h.slices.books j a ha).1

omit [DecidableEq Tid] in
/-- A slice is held of an arena that is registered. -/
theorem SubprocMem.Inv.registered (h : s.Inv γ) (hi : i ∈ s.held t j) : s.Registered j := by
  obtain ⟨r, hr, -⟩ := hi
  exact h.slices.held t j (List.ne_nil_of_mem hr)

omit [DecidableEq Tid] in
/-- The slices that threads hold are disjoint ranges of addresses. -/
theorem SubprocMem.Inv.before {j' i' : ℕ} (h : s.Inv γ) (hi : i ∈ s.held t j)
    (hi' : i' ∈ s.held u j') (hne : (t, j, i) ≠ (u, j', i')) :
    s.Before j i j' i' ∨ s.Before j' i' j i := by
  obtain ⟨a, ha⟩ := mem_of_registered h.regions (h.registered hi)
  obtain ⟨a', ha'⟩ := mem_of_registered h.regions (h.registered hi')
  have hdiv := h.divided ha
  by_cases hj : j = j'
  · subst hj
    rcases Nat.lt_trichotomy i i' with hlt | rfl | hgt
    · exact Or.inl (slicePtr_lt hlt)
    · have htu : t ≠ u := by
        rintro rfl
        exact hne rfl
      exact (Set.disjoint_left.mp (hdiv.apart t u htu).1 hi hi').elim
    · exact Or.inr (slicePtr_lt hgt)
  · have hlt := (hdiv.covers i).mpr (Or.inr (Or.inl ⟨t, hi⟩))
    have hlt' := ((h.divided ha').covers i').mpr (Or.inr (Or.inl ⟨u, hi'⟩))
    exact h.regions.before hj ha ha' hlt hlt'

/-- A slice that a thread holds keeps its bytes and its access over a move, unless the thread writes
to it. -/
theorem held_sameAt
    (h : (subprocSystem Tid strips).Reachable SubprocMem.Init System.anyMove c)
    {m : Move Tid SubprocOp} (hm : (subprocSystem Tid strips).next m c = some c')
    (hi : i ∈ c.mem.held t j) (hwrite : ∀ off v, m ≠ .start t (.write j i off v)) :
    (c.mem.mem j).region.SameAt (c'.mem.mem j).region i := by
  obtain ⟨γ, hinv, -⟩ := subprocSystem_reachable h
  obtain ⟨a, ha⟩ := mem_of_registered hinv.regions (hinv.registered hi)
  have hdiv := hinv.divided ha
  cases m with
  | start u o =>
    obtain ⟨-, s, hs, rfl⟩ := System.next_start hm
    refine Region.SameAt.of_call hs fun off v ho => ?_
    subst ho
    have hmem : i ∈ c.mem.held u j := by
      simp only [subprocSystem] at hs
      split at hs
      · next hr => exact hr
      · cases hs
    have htu : u = t := by
      by_contra hne
      exact Set.disjoint_left.mp (hdiv.apart u t hne).1 hmem hi
    exact hwrite off v (by rw [htu])
  | step u choice =>
    obtain ⟨o, p, s, p', hp, hs, rfl⟩ := System.next_step hm
    cases p with
    | ret r => cases hs
    | act e k =>
      obtain ⟨⟨b, s'⟩, hex, heq⟩ := Option.map_eq_some_iff.mp hs
      cases heq
      refine Region.SameAt.of_event hex fun e' he' r hr hmem => ?_
      subst he'
      have htaken := (subproc_asserts h hp hex).2 r hr
      exact Set.disjoint_left.mp (hdiv.taken u t) (htaken hmem) hi
    | loop body d k =>
      cases hs
      exact ⟨rfl, rfl⟩
  | finish u =>
    obtain ⟨o, r, -, rfl⟩ := System.next_finish hm
    simp only [subprocSystem]
    split
    · next j' idx n _ =>
      by_cases hj : j = j'
      · subst hj
        rw [SubprocMem.withMem_self]
        exact ⟨rfl, rfl⟩
      · rw [SubprocMem.withMem_of_ne _ hj]
        exact ⟨rfl, rfl⟩
    · exact ⟨rfl, rfl⟩

/-- **The threads of the sub-process share no memory.** In every reachable configuration the entries
of the registry are different live arenas; when no call runs, the regions that are given out are
those of registered arenas; the slices of every arena are divided, and a thread that runs no call
has taken none; a slice is held of a registered arena, and the slices that threads hold are disjoint
ranges of addresses; what is asserted of the next event of a thread is so; and a slice that a thread
holds keeps its bytes and its access over every move but a write of that thread. -/
theorem arenas_exclusive
    (h : (subprocSystem Tid strips).Reachable SubprocMem.Init System.anyMove c) :
    (c.mem.arenaCount ≤ Subproc.maxArenas ∧
      (∀ i < c.mem.arenaCount, ∃ j a, c.mem.arenas i = some j ∧ c.mem.arena j = some a ∧
        c.mem.region j = some (a.start, a.sliceCount)) ∧
      ∀ i < c.mem.arenaCount, ∀ i' < c.mem.arenaCount,
        c.mem.arenas i = c.mem.arenas i' → i = i') ∧
    ((∀ t, c.thread t = none) → ∀ j, (c.mem.region j).isSome ↔ c.mem.Registered j) ∧
    (∀ j a, c.mem.arena j = some a → (c.mem.mem j).Divided a ∧
      ∀ t, c.thread t = none → (c.mem.mem j).taken t = ∅) ∧
    (∀ t j, ∀ i ∈ c.mem.held t j, c.mem.Registered j) ∧
    (∀ t u j j' i i', i ∈ c.mem.held t j → i' ∈ c.mem.held u j' → (t, j, i) ≠ (u, j', i') →
      c.mem.Before j i j' i' ∨ c.mem.Before j' i' j i) ∧
    (∀ t o {β : Type} (e : SubprocAct β) k choice r, c.thread t = some ⟨o, .act e k⟩ →
      c.mem.exec strips t e choice = some r → c.mem.Asserts t e) ∧
    ∀ m c', (subprocSystem Tid strips).next m c = some c' → ∀ t j, ∀ i ∈ c.mem.held t j,
      (∀ off v, m ≠ .start t (.write j i off v)) →
        (c.mem.mem j).region.SameAt (c'.mem.mem j).region i := by
  obtain ⟨γ, hinv, hth⟩ := subprocSystem_reachable h
  have hidle : ∀ t, c.thread t = none → (γ t).Idle := by
    intro t ht
    have hidle := hth t
    rwa [ht] at hidle
  refine ⟨⟨hinv.regions.count_le, fun i hi => ?_, hinv.regions.injective⟩, fun hnone j => ?_,
    fun j a ha => ⟨hinv.divided ha, fun t ht => ?_⟩, fun t j i hi => hinv.registered hi,
    fun t u j j' i i' hi hi' hne => hinv.before hi hi' hne,
    fun t o β e k choice r ht hex => subproc_asserts h ht hex,
    fun m c' hm t j i hi hwrite => held_sameAt h hm hi hwrite⟩
  · obtain ⟨j, a, hj, ha⟩ := hinv.regions.arenas i hi
    exact ⟨j, a, hj, ha, hinv.regions.region j a ha⟩
  · refine (hinv.regions.owned j).trans (or_iff_left ?_)
    rintro ⟨t, ht⟩
    rw [(hidle t (hnone t)).hand] at ht
    cases ht
  · exact (congrFun (hinv.slices.books j a ha).2 t).trans (congrFun (hidle t ht).taken j)

/-- Each of two threads holds the first slice of an arena. -/
def holdOneEach (c : Config SubprocAct Bool SubprocOp SubprocOp.Res (SubprocMem Bool)) : Bool :=
  ((c.mem.mem 0).bits .free).held true = [(0, 1)] ∧
    ((c.mem.mem 1).bits .free).held false = [(0, 1)]

/-- Two threads find no arena, and make one each. -/
theorem arenas_exclusive_two :
    ∃ c, (subprocSystem Bool false).Reachable SubprocMem.Init System.anyMove c ∧
      c.mem.Registered 0 ∧ c.mem.Registered 1 ∧ 0 ∈ c.mem.held true 0 ∧ 0 ∈ c.mem.held false 1 ∧
      (c.mem.Before 0 0 1 0 ∨ c.mem.Before 1 0 0 0) := by
  have hrun : ((subprocSystem Bool false).run
      ([.start true (.allocSlices 1 true 0), .start false (.allocSlices 1 true 0)] ++
        List.replicate 4 (.step true 6) ++ List.replicate 4 (.step false 16390) ++
        List.replicate 626 (.step true 0) ++ List.replicate 626 (.step false 0) ++
        [.finish true, .finish false])
      ⟨.init Opt.defaultValue 0 (fun _ => .ofTwoSlices)
        fun _ => ⟨fun _ _ => 0#8, fun _ => false⟩, fun _ => none⟩).any holdOneEach = true := by
    decide +kernel
  obtain ⟨c, hc, htest⟩ := System.exists_run hrun
  have hreach : (subprocSystem Bool false).Reachable SubprocMem.Init System.anyMove c :=
    System.reachable_of_run ⟨_, _, _, _, rfl⟩ hc
  obtain ⟨htrue, hfalse⟩ := of_decide_eq_true htest
  have hmem : (0 : ℕ) ∈ c.mem.held true 0 := by
    refine ⟨(0, 1), ?_, le_rfl, by decide⟩
    rw [htrue]
    exact List.mem_singleton.mpr rfl
  have hmem' : (0 : ℕ) ∈ c.mem.held false 1 := by
    refine ⟨(0, 1), ?_, le_rfl, by decide⟩
    rw [hfalse]
    exact List.mem_singleton.mpr rfl
  obtain ⟨-, -, -, hreg, hbefore, -, -⟩ := arenas_exclusive hreach
  exact ⟨c, hreach, hreg true 0 0 hmem, hreg false 1 0 hmem', hmem, hmem',
    hbefore true false 0 1 0 0 hmem hmem' (fun hc => by cases hc)⟩

end MimallocRs
