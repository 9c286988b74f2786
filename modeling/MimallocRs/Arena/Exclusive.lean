import MimallocRs.Arena.Runs
import MimallocRs.Arena.Shared
import MimallocRs.Bitmap.Exclusive
import MimallocRs.Foundations.Interleave.Extend
import MimallocRs.Foundations.Interleave.Serial

/-!
# Purging never races with an allocation

`run_purge` claims a range from the bitmap of free slices before it asks the operating system to
take its pages back, "so an allocation can never race the `madvise`". `slices_exclusive` is what this
gives over any number of threads and any interleaving: the slices of an arena are at every moment
divided between the free ones, the runs that threads hold and those that running calls have taken;
every range that is committed, decommitted or reset is among those that the call which does so has
taken; and so the bytes and the access of a slice that a thread holds are changed by its holder
alone.

The outline of the arena asks of its bitmap of free slices what `claimOutline` asks, and asserts of
the calls of the operating system that their range has been taken.
-/

namespace MimallocRs

open Interleave Prog ArenaShared

variable {Tid : Type} [DecidableEq Tid] {a : Arena} {strips : Bool} {free₀ : Set ℕ} {t : Tid}
  {α β : Type} {g g₀ : Set ℕ} {idx n : ℕ}

/-- The range of slices that an event asks the operating system to commit, decommit or reset. -/
def ArenaAct.osRange : ArenaAct β → Option (ℕ × ℕ)
  | .osCommit idx n | .osDecommit idx n | .osReset idx n => some (idx, n)
  | _ => none

/-- The event neither reaches the bitmap of free slices nor asks the operating system for
anything. -/
def ArenaAct.Aside : ArenaAct β → Prop
  | .load b _ | .cas b _ _ _ => b ≠ .free
  | .osCommit .. | .osDecommit .. | .osReset .. => False
  | _ => True

/-- The books of the bitmap of free slices balance, and the ghost of a thread is what its running
call has taken. -/
def arenaOutline (Tid : Type) [DecidableEq Tid] (cc : ℕ) (free₀ : Set ℕ) :
    Outline ArenaAct Tid (ArenaShared Tid) (Set ℕ) where
  inv s γ := (claimOutline Tid cc free₀).inv (s.bits .free) γ
  asserts t e s := ∀ r ∈ e.osRange, bitRange r.1 r.2 ⊆ s.taken t

/-- `Safe` for the programs of an arena. -/
abbrev ArenaSafe (a : Arena) (strips : Bool) (free₀ : Set ℕ) (t : Tid) (p : Prog ArenaAct α)
    (g : Set ℕ) (Q : α → Set ℕ → Prop) : Prop :=
  Safe (arenaSystem Tid a strips).toMachine (arenaOutline Tid a.chunkCount free₀) t p g Q

namespace ArenaSafe

variable {Q : α → Set ℕ → Prop}

/-- A function of the bitmap of free slices. -/
theorem onFree {p : Prog BitAct α} (hp : ClaimSafe a.chunkCount free₀ t p g Q) :
    ArenaSafe a strips free₀ t (onBits .free p) g Q := by
  apply Safe.onPart (fun s : ArenaShared Tid => s.bits .free) (BitAct.of .free) _ hp
  intro β e s γ choice b s' hinv hok hex
  have hex' : ((s.bits .free).exec a.chunkCount t e choice).map
      (fun r => (r.1, s.withBits .free r.2)) = some (b, s') := by
    cases e <;> exact hex
  obtain ⟨⟨b, w⟩, hw, heq⟩ := Option.map_eq_some_iff.mp hex'
  cases heq
  refine ⟨hinv, trivial, ?_, fun _ => ⟨?_, fun γ' hγ' => ?_⟩⟩
  · rw [withBits_bits]
    exact hw
  · cases e <;> exact fun r hr => (by cases hr)
  · exact hγ'

/-- What leaves the bitmap of free slices and the memory alone. -/
theorem aside {p : Prog ArenaAct α} (hp : p.Every ArenaAct.Aside) :
    ArenaSafe a strips free₀ t p g fun _ g' => g' = g := by
  apply Safe.of_every (J := (· = g)) _ hp rfl
  rintro β e he s γ choice b s' hinv rfl - hex
  have hkeep : s'.bits .free = s.bits .free ∧ e.osRange = none := by
    cases e with
    | load d l | cas d l old new =>
      obtain ⟨r, -, heq⟩ := Option.map_eq_some_iff.mp hex
      cases heq
      exact ⟨s.withBits_of_ne _ he.symm, rfl⟩
    | osCommit | osDecommit | osReset => exact he.elim
    | casExpire e m =>
      simp only [arenaSystem, ArenaShared.exec] at hex
      split at hex <;> cases hex <;> exact ⟨rfl, rfl⟩
    | option | clock | loadExpire | storeExpire => cases hex; exact ⟨rfl, rfl⟩
  refine ⟨?_, γ t, ?_, rfl⟩
  · intro r hr
    rw [hkeep.2] at hr
    cases hr
  · rw [Function.update_eq_self]
    show (claimOutline Tid a.chunkCount free₀).inv (s'.bits .free) γ
    rw [hkeep.1]
    exact hinv

/-- A function of one of the other bitmaps. -/
theorem onOther {b : BitmapId} (hb : b ≠ .free) (p : Prog BitAct α) :
    ArenaSafe a strips free₀ t (onBits b p) g fun _ g' => g' = g := by
  apply aside
  apply Every.hoist
  intro β e
  cases e <;> exact hb

/-- The operating system is asked to do something with slices that have been taken. -/
theorem os {e : ArenaAct β} {k : β → Prog ArenaAct α} (he : e.osRange = some (idx, n))
    (hsub : bitRange idx n ⊆ g) (hk : ∀ b, ArenaSafe a strips free₀ t (k b) g Q) :
    ArenaSafe a strips free₀ t (.act e k) g Q := by
  apply Safe.act
  rintro s γ choice b s' hinv rfl - hex
  have hkeep : s'.bits = s.bits := by
    cases e with
    | osCommit i m =>
      simp only [arenaSystem, ArenaShared.exec] at hex
      split at hex <;> cases hex <;> rfl
    | osDecommit | osReset => cases hex; rfl
    | _ => cases he
  refine ⟨?_, γ t, ?_, hk b⟩
  · intro r hr
    rw [he] at hr
    cases hr
    have htaken : s.taken t = γ t := congrFun hinv.2 t
    rw [htaken]
    exact hsub
  · rw [Function.update_eq_self]
    show (claimOutline Tid a.chunkCount free₀).inv (s'.bits .free) γ
    rw [hkeep]
    exact hinv

/-- One event that leaves the bitmap of free slices and the memory alone. -/
theorem asideAct {e : ArenaAct β} {k : β → Prog ArenaAct α} (he : e.Aside)
    (hk : ∀ b, ArenaSafe a strips free₀ t (k b) g Q) :
    ArenaSafe a strips free₀ t (.act e k) g Q := by
  apply Safe.bind (p := .act e .ret) (f := k)
  apply (aside (p := .act e .ret) ⟨he, fun _ => trivial⟩).mono
  rintro b _ rfl
  exact hk b

/-! ## The functions of an arena -/

/-- `purge_ex` of slices that have been taken. -/
theorem purgeEx {allowReset : Bool} (hsub : bitRange idx n ⊆ g) :
    ArenaSafe a strips free₀ t (purgeEx idx n allowReset) g fun _ g' => g' = g := by
  unfold MimallocRs.purgeEx
  simp only [Prog.bind_eq, Prog.pure_eq, Prog.perform_bind]
  apply asideAct (by trivial)
  intro delay
  split
  · exact Safe.ret rfl
  apply asideAct (by trivial)
  intro decommits
  split
  · exact os rfl hsub fun _ => Safe.ret rfl
  split
  · exact os rfl hsub fun _ => Safe.ret rfl
  · exact Safe.ret rfl

/-- **A run is taken before it is purged**, and given back. -/
theorem purgeRun : ArenaSafe a strips free₀ t (Arena.purgeRun idx n) g fun _ g' => g' = g := by
  unfold Arena.purgeRun
  simp only [Prog.bind_eq, Prog.pure_eq]
  apply Safe.bind
  apply (onFree Bitmap.clearN_safe).mono
  intro r g₁ hg₁
  cases r with
  | false => exact Safe.ret hg₁
  | true =>
    have htook : Took g (bitRange idx n) g₁ := hg₁
    have giveBack : ArenaSafe a strips free₀ t
        ((onBits .free (Bitmap.setN idx n)).bind fun _ => .ret true) g₁ fun _ g' => g' = g := by
      apply Safe.bind
      apply (onFree (Bitmap.setN_safe htook)).mono
      intro _ g₂ hg₂
      exact Safe.ret hg₂
    apply Safe.bind
    apply (onOther (by decide) _).mono
    rintro allCommitted _ rfl
    apply Safe.bind
    apply (purgeEx htook.subset).mono
    rintro recommit _ rfl
    cases recommit with
    | false => exact giveBack
    | true =>
      apply Safe.bind
      apply (onOther (by decide) _).mono
      rintro _ _ rfl
      apply Safe.bind
      apply (onOther (by decide) _).mono
      rintro _ _ rfl
      exact giveBack

theorem purgeEnd {fieldEnd e : ℕ} :
    ArenaSafe a strips free₀ t (a.purgeEnd fieldEnd e) g fun _ g' => g' = g := by
  apply aside
  apply Every.iterate
  intro e
  split
  · apply Every.bind (Every.hoist (fun e => ?_) _)
    · intro r
      cases r <;> trivial
    · cases e <;> exact fun h => by cases h
  · trivial

theorem runPurge : ArenaSafe a strips free₀ t a.runPurge g fun _ g' => g' = g := by
  refine Safe.loop (fun _ g' => g' = g) ?_ rfl
  rintro ⟨purged, idx⟩ _ rfl
  simp only [Prog.bind_eq, Prog.pure_eq]
  split
  · apply Safe.bind
    apply (onOther (by decide) _).mono
    rintro scheduled _ rfl
    cases scheduled with
    | false => exact Safe.ret rfl
    | true =>
      apply Safe.bind
      apply purgeEnd.mono
      rintro e _ rfl
      apply Safe.bind
      apply purgeRun.mono
      rintro did _ rfl
      apply Safe.bind
      apply (onOther (by decide) _).mono
      rintro _ _ rfl
      exact Safe.ret rfl
  · exact Safe.ret (Safe.ret rfl)

theorem schedulePurge : ArenaSafe a strips free₀ t (a.schedulePurge idx n) g fun _ g' => g' = g := by
  unfold Arena.schedulePurge arenaPurgeDelay
  simp only [Prog.bind_eq, Prog.pure_eq, Prog.perform_bind, Prog.act_bind, Prog.ret_bind]
  refine asideAct trivial fun delay => asideAct trivial fun mult => ?_
  split
  · exact Safe.ret rfl
  apply Safe.bind
  apply (onOther (by decide) _).mono
  rintro _ _ rfl
  split
  · apply Safe.bind
    apply runPurge.mono
    rintro _ _ rfl
    exact Safe.ret rfl
  · exact asideAct trivial fun now => asideAct trivial fun r => Safe.ret rfl

theorem maybePurge {force : Bool} :
    ArenaSafe a strips free₀ t (a.maybePurge force) g fun _ g' => g' = g := by
  unfold Arena.maybePurge
  simp only [Prog.bind_eq, Prog.pure_eq, Prog.perform_bind]
  split
  · exact Safe.ret rfl
  split
  · exact asideAct trivial fun _ => runPurge
  apply asideAct (by trivial)
  intro expire
  split
  · exact Safe.ret rfl
  apply asideAct (by trivial)
  intro now
  split
  · exact Safe.ret rfl
  apply asideAct (by trivial)
  intro won
  cases won with
  | false => exact Safe.ret rfl
  | true => exact runPurge

/-- `free_slices` gives back the run that its caller gives it. -/
theorem freeSlices (h : Took g₀ (bitRange idx n) g) :
    ArenaSafe a strips free₀ t (a.freeSlices idx n) g fun _ g' => g' = g₀ := by
  unfold Arena.freeSlices
  simp only [Prog.bind_eq]
  apply Safe.bind
  apply (onFree (Bitmap.setN_safe h)).mono
  rintro _ _ rfl
  exact schedulePurge

theorem ensureCommitted (hsub : bitRange idx n ⊆ g) :
    ArenaSafe a strips free₀ t (Arena.ensureCommitted idx n) g fun _ g' => g' = g := by
  unfold Arena.ensureCommitted
  simp only [Prog.bind_eq, Prog.pure_eq, Prog.perform_bind]
  apply Safe.bind
  apply (onOther (by decide) _).mono
  rintro committed _ rfl
  cases committed with
  | true => exact Safe.ret rfl
  | false =>
    apply os rfl hsub
    intro done
    cases done with
    | false => exact Safe.ret rfl
    | true =>
      apply Safe.bind
      apply (onOther (by decide) _).mono
      rintro _ _ rfl
      exact Safe.ret rfl

/-- `alloc_slices` has taken the run that it returns, or nothing. -/
theorem allocSlices {tseq : ℕ} :
    ArenaSafe a strips free₀ t (a.allocSlices n tseq) g fun r g' =>
      match r with
      | some (idx, _, _) => Took g (bitRange idx n) g'
      | none => g' = g := by
  unfold Arena.allocSlices
  simp only [Prog.bind_eq, Prog.pure_eq]
  apply Safe.bind
  apply (onFree Bitmap.tryFindAndClearN_safe).mono
  intro r g₁ hg₁
  cases r with
  | none => exact Safe.ret hg₁
  | some idx =>
    have htook : Took g (bitRange idx n) g₁ := hg₁
    apply Safe.bind
    apply (ensureCommitted htook.subset).mono
    rintro done _ rfl
    cases done with
    | false =>
      apply Safe.bind
      apply (freeSlices htook).mono
      rintro _ _ rfl
      exact Safe.ret rfl
    | true =>
      rw [if_pos rfl]
      split
      · apply Safe.bind
        apply (onOther (by decide) _).mono
        rintro wasClean _ rfl
        apply Safe.bind
        apply (onOther (by decide) _).mono
        rintro _ _ rfl
        exact Safe.ret htook
      · apply Safe.bind
        apply (onOther (by decide) _).mono
        rintro _ _ rfl
        exact Safe.ret htook

end ArenaSafe

/-! ## Runs -/

section Runs

variable {s s' : ArenaShared Tid} {γ : Tid → Set ℕ} {o : ArenaOp} {t u : Tid} {i : ℕ}
  {c c' : Config ArenaAct Tid ArenaOp ArenaOp.Res (ArenaShared Tid)}

/-- What a call that is about to return has taken: the run it has claimed, if any. -/
def arenaPost (_ : Tid) (o : ArenaOp) (r : o.Res) (g : Set ℕ) : Prop :=
  g = match o.claimed r with
    | some (idx, n) => bitRange idx n
    | none => ∅

theorem arenaSystem_start (hi : (arenaOutline Tid a.chunkCount free₀).inv s γ) (hidle : γ t = ∅)
    (hs : (arenaSystem Tid a strips).start t o s = some s') :
    ∃ g, (arenaOutline Tid a.chunkCount free₀).inv s' (Function.update γ t g) ∧
      ArenaSafe a strips free₀ t ((arenaSystem Tid a strips).prog t o) g (arenaPost t o) := by
  have keep : s'.bits .free = s.bits .free →
      (arenaOutline Tid a.chunkCount free₀).inv s' (Function.update γ t ∅) := by
    intro heq
    rw [← hidle, Function.update_eq_self]
    show (claimOutline Tid a.chunkCount free₀).inv (s'.bits .free) γ
    rw [heq]
    exact hi
  cases o with
  | allocSlices n tseq =>
    cases hs
    refine ⟨∅, keep rfl, ArenaSafe.allocSlices.mono fun r g hg => ?_⟩
    cases r with
    | none => exact hg
    | some p => exact hg.1.trans (Set.empty_union _)
  | freeSlices idx n =>
    obtain ⟨w, hw, rfl⟩ := Option.map_eq_some_iff.mp hs
    obtain ⟨hbooks, rfl⟩ := hi
    obtain ⟨hbooks', htaken⟩ := hbooks.giveBack hw
    refine ⟨(s.bits .free).taken t ∪ bitRange idx n, ?_, ?_⟩
    · show (claimOutline Tid a.chunkCount free₀).inv ((s.withBits .free w).bits .free) _
      rw [withBits_bits]
      exact ⟨hbooks', htaken⟩
    · rw [hidle]
      exact ArenaSafe.freeSlices ⟨rfl, Set.empty_disjoint _⟩
  | maybePurge force =>
    cases hs
    exact ⟨∅, keep rfl, ArenaSafe.maybePurge.mono fun r g hg => hg⟩
  | write idx off v =>
    simp only [arenaSystem] at hs
    split at hs <;> cases hs
    exact ⟨∅, keep rfl, Safe.ret rfl⟩
  | setOption | tick =>
    cases hs
    exact ⟨∅, keep rfl, Safe.ret rfl⟩

theorem arenaSystem_finish {r : o.Res} (hi : (arenaOutline Tid a.chunkCount free₀).inv s γ)
    (hpost : arenaPost t o r (γ t)) :
    ∃ g, (arenaOutline Tid a.chunkCount free₀).inv ((arenaSystem Tid a strips).finish t o r s)
      (Function.update γ t g) ∧ g = ∅ := by
  cases hr : o.claimed r with
  | none =>
    simp only [arenaPost, hr] at hpost
    simp only [arenaSystem, hr]
    refine ⟨∅, ?_, rfl⟩
    rw [← hpost, Function.update_eq_self]
    exact hi
  | some p =>
    simp only [arenaPost, hr] at hpost
    simp only [arenaSystem, hr]
    obtain ⟨hbooks, rfl⟩ := hi
    refine ⟨∅, ?_, rfl⟩
    show (claimOutline Tid a.chunkCount free₀).inv ((s.withBits .free _).bits .free) _
    rw [withBits_bits]
    exact hbooks.keep hpost

/-- The books of the free slices balance in every reachable configuration. -/
theorem arenaSystem_reachable
    (h : (arenaSystem Tid a strips).Reachable (ArenaShared.Init a) System.anyMove c) :
    ∃ γ, (arenaOutline Tid a.chunkCount {i | i < a.sliceCount}).inv c.mem γ ∧
      ∀ t, (arenaOutline Tid a.chunkCount {i | i < a.sliceCount}).Thread
        (arenaSystem Tid a strips).toMachine (fun _ g => g = ∅) arenaPost t (γ t)
        (c.thread t) := by
  apply Outline.reachable (O := arenaOutline Tid a.chunkCount _) _ _ _ _ h
  · rintro _ ⟨word, opts, now, region, rfl, hword⟩
    refine ⟨fun _ => ∅, ?_, fun _ => rfl⟩
    rw [← hword]
    exact ⟨.init, rfl⟩
  · exact fun t o s s' γ hi hidle hs => arenaSystem_start hi hidle hs
  · exact fun t o r s γ hi hpost => arenaSystem_finish hi hpost
  · exact fun _ _ _ _ _ _ _ _ _ _ _ => trivial

/-! ## The slices of an arena -/

/-- The slices of an arena are divided between the free ones, those that threads hold and those that
running calls have taken. -/
structure ArenaShared.Divided (s : ArenaShared Tid) (a : Arena) : Prop where
  covers : ∀ i, i < a.sliceCount ↔
    i ∈ s.free a.chunkCount ∨ (∃ t, i ∈ s.held t) ∨ ∃ t, i ∈ s.taken t
  free : ∀ t, Disjoint (s.free a.chunkCount) (s.held t ∪ s.taken t)
  taken : ∀ t u, Disjoint (s.taken t) (s.held u)
  apart : ∀ t u, t ≠ u → Disjoint (s.held t) (s.held u) ∧ Disjoint (s.taken t) (s.taken u)

omit [DecidableEq Tid] in
theorem ArenaShared.Divided.of_books
    (h : (s.bits .free).Books a.chunkCount {i | i < a.sliceCount}) : s.Divided a := by
  have hfree := h.ledger.pool_share
  have hshare := h.ledger.share_share
  simp only [BitShared.share, Set.disjoint_union_left, Set.disjoint_union_right] at hfree hshare
  refine ⟨fun i => ?_, fun t => ?_, fun t u => ?_,
    fun t u htu => ⟨(hshare t u htu).2.2, (hshare t u htu).1.1⟩⟩
  · have hcovers := h.ledger.covers i
    simp only [BitShared.share, Set.mem_union, exists_or] at hcovers
    exact hcovers.trans (or_congr_right or_comm)
  · rw [Set.disjoint_union_right]
    exact ⟨(hfree t).2, (hfree t).1⟩
  · by_cases htu : t = u
    · rw [← htu]
      exact h.taken_held t
    · exact (hshare t u htu).2.1

/-! ## What happens to a slice that a thread holds -/

/-- The bytes and the access of the slice are the same. -/
def Region.SameAt (m m' : Region) (i : ℕ) : Prop := m'.data i = m.data i ∧ m'.access i = m.access i

/-- What the operating system does to a range leaves the other slices alone. -/
theorem Region.SameAt.of_os {e : ArenaAct β} {choice : ℕ} {b : β}
    (hex : s.exec a.chunkCount strips t e choice = some (b, s'))
    (hi : ∀ r ∈ e.osRange, i ∉ bitRange r.1 r.2) : s.region.SameAt s'.region i := by
  have zero : ∀ {m : Region} {idx n}, i ∉ bitRange idx n → m.SameAt (m.zero idx n) i := by
    intro m idx n hi
    exact ⟨funext fun off => if_neg hi, rfl⟩
  have protect : ∀ {m : Region} {idx n b}, i ∉ bitRange idx n → m.SameAt (m.protect idx n b) i := by
    intro m idx n b hi
    exact ⟨rfl, if_neg hi⟩
  cases e with
  | load d l | cas d l old new =>
    obtain ⟨r, -, heq⟩ := Option.map_eq_some_iff.mp hex
    cases heq
    exact ⟨rfl, rfl⟩
  | osCommit idx n =>
    have hi := hi _ rfl
    simp only [ArenaShared.exec] at hex
    split at hex <;> cases hex
    · exact protect hi
    · exact ⟨rfl, rfl⟩
  | osDecommit idx n =>
    have hi := hi _ rfl
    cases hex
    simp only [Region.decommit]
    split
    · split
      · obtain ⟨hdata, haccess⟩ := zero (m := s.region) hi
        obtain ⟨hdata', haccess'⟩ := protect (m := s.region.zero idx n) (b := false) hi
        exact ⟨hdata'.trans hdata, haccess'.trans haccess⟩
      · exact zero hi
    · exact zero hi
    · exact ⟨rfl, rfl⟩
  | osReset idx n =>
    have hi := hi _ rfl
    cases hex
    exact ⟨funext fun off => if_neg fun h => hi ⟨h.1, h.2.1⟩, rfl⟩
  | casExpire e m =>
    simp only [ArenaShared.exec] at hex
    split at hex <;> cases hex <;> exact ⟨rfl, rfl⟩
  | option | clock | loadExpire | storeExpire =>
    cases hex
    exact ⟨rfl, rfl⟩

theorem Region.SameAt.of_start (hs : (arenaSystem Tid a strips).start t o s = some s')
    (ho : ∀ off v, o ≠ .write i off v) : s.region.SameAt s'.region i := by
  cases o with
  | freeSlices idx n =>
    obtain ⟨w, -, rfl⟩ := Option.map_eq_some_iff.mp hs
    exact ⟨rfl, rfl⟩
  | write idx off v =>
    simp only [arenaSystem] at hs
    split at hs <;> cases hs
    have hne : i ≠ idx := by
      rintro rfl
      exact ho off v rfl
    exact ⟨funext fun off' => if_neg fun h => hne h.1, rfl⟩
  | allocSlices | maybePurge | setOption | tick =>
    cases hs
    exact ⟨rfl, rfl⟩

/-- What a call is about to ask the operating system for concerns slices that it has taken. -/
theorem osRange_subset
    (h : (arenaSystem Tid a strips).Reachable (ArenaShared.Init a) System.anyMove c)
    {e : ArenaAct β} {k : β → Prog ArenaAct o.Res} (ht : c.thread t = some ⟨o, .act e k⟩)
    (choice : ℕ) {r : β × ArenaShared Tid}
    (hex : c.mem.exec a.chunkCount strips t e choice = some r) :
    ∀ r ∈ e.osRange, bitRange r.1 r.2 ⊆ c.mem.taken t := by
  obtain ⟨γ, hinv, hth⟩ := arenaSystem_reachable h
  exact Outline.asserts_of_thread hinv (hth t) ht trivial hex

/-- **The slices of an arena are not shared.** In every reachable configuration each slice is free,
held by a thread or taken by its running call, and nothing else; what the operating system is asked
to commit, decommit or reset has been taken by the call that asks; and a slice that a thread holds
keeps its bytes and its access over every move but a write of that thread. -/
theorem slices_exclusive
    (h : (arenaSystem Tid a strips).Reachable (ArenaShared.Init a) System.anyMove c) :
    (∀ i, i < a.sliceCount ↔ i ∈ c.mem.free a.chunkCount ∨ (∃ t, i ∈ c.mem.held t) ∨
      ∃ t, i ∈ c.mem.taken t) ∧
    (∀ t, Disjoint (c.mem.free a.chunkCount) (c.mem.held t ∪ c.mem.taken t)) ∧
    (∀ t u, Disjoint (c.mem.taken t) (c.mem.held u)) ∧
    (∀ t u, t ≠ u → Disjoint (c.mem.held t) (c.mem.held u) ∧
      Disjoint (c.mem.taken t) (c.mem.taken u)) ∧
    (∀ t, c.thread t = none → c.mem.taken t = ∅) ∧
    (∀ t o {β : Type} (e : ArenaAct β) k, c.thread t = some ⟨o, .act e k⟩ →
      ∀ r ∈ e.osRange, bitRange r.1 r.2 ⊆ c.mem.taken t) ∧
    ∀ m c', (arenaSystem Tid a strips).next m c = some c' → ∀ t, ∀ i ∈ c.mem.held t,
      (∀ off v, m ≠ .start t (.write i off v)) → c.mem.region.SameAt c'.mem.region i := by
  obtain ⟨γ, ⟨hbooks, rfl⟩, hth⟩ := arenaSystem_reachable h
  have hdiv := ArenaShared.Divided.of_books hbooks
  refine ⟨hdiv.covers, hdiv.free, hdiv.taken, hdiv.apart,
    fun t ht => ?_, fun t o β e k ht r hr => ?_, fun m c' hm t i hi hwrite => ?_⟩
  · have hidle := hth t
    rwa [ht] at hidle
  · cases e with
    | osCommit idx n => exact osRange_subset h ht 1 rfl r hr
    | osDecommit idx n | osReset idx n => exact osRange_subset h ht 0 rfl r hr
    | _ => cases hr
  · cases m with
    | start u o =>
      obtain ⟨-, s, hs, rfl⟩ := System.next_start hm
      refine Region.SameAt.of_start hs fun off v ho => ?_
      subst ho
      have hmem : i ∈ c.mem.held u := by
        simp only [arenaSystem] at hs
        split at hs
        · next hr => exact hr
        · cases hs
      have htu : u = t := by
        by_contra hne
        exact Set.disjoint_left.mp (hdiv.apart u t hne).1 hmem hi
      exact hwrite off v (by rw [htu])
    | step u choice =>
      obtain ⟨o, p, s, p', hp, hs, rfl⟩ := System.next_step hm
      cases p with
      | ret r => cases hs
      | act e k =>
        obtain ⟨⟨b, s'⟩, hex, heq⟩ := Option.map_eq_some_iff.mp hs
        cases heq
        refine Region.SameAt.of_os hex fun r hr hmem => ?_
        exact Set.disjoint_left.mp (hdiv.taken u t) (osRange_subset h hp choice hex r hr hmem) hi
      | loop body d k =>
        cases hs
        exact ⟨rfl, rfl⟩
    | finish u =>
      obtain ⟨o, r, -, rfl⟩ := System.next_finish hm
      simp only [arenaSystem]
      split <;> exact ⟨rfl, rfl⟩

/-- The words of the bitmaps of an arena of two free slices. -/
def twoSlices : BitmapId → Words
  | .free, .map 0 => 1#64
  | .free, .chunk 0 0 => 3#64
  | _, _ => 0#64

theorem bitsOf_twoSlices : bitsOf 1 (twoSlices .free) = {i | i < 2} := by
  ext j
  constructor
  · rintro ⟨hj, hbit⟩
    have hc : j / 512 = 0 := by omega
    rw [hc] at hbit
    cases hf : j % 512 / 64 with
    | zero =>
      rw [hf] at hbit
      have hbit : (3#64).getLsbD (j % 64) = true := hbit
      rw [BitVec.getLsbD_ofNat] at hbit
      show j < 2
      by_contra hge
      have hlt : 3 < 2 ^ (j % 64) :=
        Nat.lt_of_lt_of_le (by decide : 3 < 2 ^ 2) (Nat.pow_le_pow_right (by decide) (by omega))
      rw [Nat.testBit_lt_two_pow hlt] at hbit
      simp at hbit
    | succ f =>
      rw [hf] at hbit
      have hbit : (0#64).getLsbD (j % 64) = true := hbit
      simp at hbit
  · intro hj
    have hj : j < 2 := hj
    obtain rfl | rfl : j = 0 ∨ j = 1 := by omega
    · exact ⟨by decide, by decide⟩
    · exact ⟨by decide, by decide⟩

/-- One thread holds the first slice, and the other is about to decommit the second. -/
def decommitsBeside (c : Config ArenaAct Bool ArenaOp ArenaOp.Res (ArenaShared Bool)) : Bool :=
  match c.thread false with
  | some ⟨_, .act (.osDecommit 1 1) _⟩ => (c.mem.bits .free).held true = [(0, 1)]
  | _ => false

/-- A thread purges a slice while another holds the one next to it. -/
theorem slices_exclusive_purge :
    ∃ c, (arenaSystem Bool .ofTwoSlices false).Reachable (ArenaShared.Init .ofTwoSlices)
        System.anyMove c ∧
      0 ∈ c.mem.held true ∧ 1 ∈ c.mem.taken false ∧
      Disjoint (c.mem.taken false) (c.mem.held true) := by
  have hrun : ((arenaSystem Bool .ofTwoSlices false).run
      (.start true (.allocSlices 1 0) :: List.replicate 33 (.step true 0) ++
        [.finish true, .start false (.allocSlices 1 0)] ++ List.replicate 49 (.step false 0) ++
        [.finish false, .start false (.freeSlices 1 1)] ++ List.replicate 26 (.step false 0) ++
        [.finish false, .start false (.maybePurge true)] ++ List.replicate 33 (.step false 0))
      ⟨.init twoSlices Opt.defaultValue 0 ⟨fun _ _ => 0#8, fun _ => false⟩, fun _ => none⟩).any
      decommitsBeside = true := by
    decide +kernel
  obtain ⟨c, hc, htest⟩ := System.exists_run hrun
  have hreach : (arenaSystem Bool .ofTwoSlices false).Reachable (ArenaShared.Init .ofTwoSlices)
      System.anyMove c :=
    System.reachable_of_run ⟨_, _, _, _, rfl, bitsOf_twoSlices⟩ hc
  obtain ⟨-, -, hdis, -, -, hos, -⟩ := slices_exclusive hreach
  unfold decommitsBeside at htest
  split at htest
  · next o k ht =>
    have hheld : (c.mem.bits .free).held true = [(0, 1)] := of_decide_eq_true htest
    have hmem : (1 : ℕ) ∈ bitRange 1 1 := ⟨le_rfl, by decide⟩
    refine ⟨c, hreach, ⟨(0, 1), ?_, le_rfl, by decide⟩, hos false _ _ _ ht (1, 1) rfl hmem,
      hdis false true⟩
    rw [hheld]
    exact List.mem_singleton.mpr rfl
  · cases htest

end Runs

end MimallocRs
