import MimallocRs.Subproc.Custody

/-!
# Proof rules for the sub-process

What each event does to what its thread knows, and the functions of an arena (`onArena`), which are
as safe here as they are on an arena alone.
-/

namespace MimallocRs

open Interleave Prog SubprocMem

variable {Tid : Type} [DecidableEq Tid] {strips : Bool} {t : Tid} {α β : Type} {g : SubprocGhost}
  {j : ℕ} {a : Arena}

/-- `Safe` for the programs of the sub-process. -/
abbrev SubprocSafe (strips : Bool) (t : Tid) (p : Prog SubprocAct α) (g : SubprocGhost)
    (Q : α → SubprocGhost → Prop) : Prop :=
  Safe (subprocSystem Tid strips).toMachine (subprocOutline Tid) t p g Q

/-- What has been taken from the arena at `j`. -/
def SubprocGhost.withTaken (g : SubprocGhost) (j : ℕ) (x : Set ℕ) : SubprocGhost :=
  { g with taken := Function.update g.taken j x }

/-- The events of an arena change neither the options nor what threads hold. -/
theorem ArenaShared.exec_keeps {cc choice : ℕ} {e : ArenaAct β} {s : ArenaShared Tid}
    {r : β × ArenaShared Tid} (h : s.exec cc strips t e choice = some r) :
    r.2.opts = s.opts ∧ r.2.now = s.now ∧
      ∀ u, (r.2.bits .free).held u = (s.bits .free).held u := by
  have hword : ∀ (b : BitmapId) (w : BitShared Tid), w.held = (s.bits b).held →
      ∀ u, ((s.withBits b w).bits .free).held u = (s.bits .free).held u := by
    intro b w hw u
    by_cases hb : b = .free
    · subst hb
      rw [withBits_bits, hw]
    · rw [withBits_of_ne _ _ (Ne.symm hb)]
  cases e with
  | load b l =>
    obtain ⟨⟨v, w⟩, hw, rfl⟩ := Option.map_eq_some_iff.mp h
    simp only [BitShared.exec] at hw
    split at hw <;> cases hw
    exact ⟨rfl, rfl, hword b _ rfl⟩
  | cas b l old new =>
    obtain ⟨⟨v, w⟩, hw, rfl⟩ := Option.map_eq_some_iff.mp h
    simp only [BitShared.exec] at hw
    split at hw
    · cases hw
    · split at hw <;> cases hw <;> exact ⟨rfl, rfl, hword b _ rfl⟩
  | osCommit idx n =>
    simp only [ArenaShared.exec] at h
    split at h <;> cases h <;> exact ⟨rfl, rfl, fun _ => rfl⟩
  | casExpire e n =>
    simp only [ArenaShared.exec] at h
    split at h <;> cases h <;> exact ⟨rfl, rfl, fun _ => rfl⟩
  | osDecommit | osReset | option | clock | loadExpire | storeExpire =>
    cases h
    exact ⟨rfl, rfl, fun _ => rfl⟩

namespace SubprocSafe

variable {Q : α → SubprocGhost → Prop}

/-- **A function of an arena** that the thread may use. -/
theorem onArena {p : Prog ArenaAct α} {Q : α → Set ℕ → Prop} (hg : g.known = some (j, a))
    (hp : ArenaSafe a strips {i | i < a.sliceCount} t p (g.taken j) Q) :
    SubprocSafe strips t (p.hoist (.arena j)) g fun r g' => ∃ x, Q r x ∧ g' = g.withTaken j x := by
  refine Safe.focus (fun s : SubprocMem Tid => s.view j) (SubprocGhost.lens j)
    (SubprocAct.arena j) ?_ hp
  intro β e x s γ choice b s' hi hx hok hex
  have hknown : (γ t).known = some (j, a) := by
    rw [hx]
    exact hg
  obtain ⟨ha, -⟩ := hi.regions.known t j a hknown
  obtain ⟨⟨b, w⟩, hw, heq⟩ := Option.map_eq_some_iff.mp hex
  cases heq
  rw [(arena_eq_some.mp ha).2] at hw
  obtain ⟨hopts, hnow, hheld⟩ := ArenaShared.exec_keeps hw
  have hview : (s.withMem j w).view j = w := by
    have hopts : w.opts = s.opts := hopts
    have hnow : w.now = s.now := hnow
    show { Function.update s.mem j w j with opts := s.opts, now := s.now } = w
    rw [Function.update_self, ← hopts, ← hnow]
  refine ⟨hi.slices.books j a ha, trivial, ?_, fun hasserts => ⟨?_, fun y hy => ?_⟩⟩
  · show (s.view j).exec a.chunkCount strips t e choice = some (b, (s.withMem j w).view j)
    rw [hview]
    exact hw
  · exact ⟨by rw [ha]; rfl, hasserts⟩
  · have hy : (claimOutline Tid a.chunkCount {i | i < a.sliceCount}).inv
        (((s.withMem j w).view j).bits .free) (Function.update (fun u => (γ u).taken j) t y) := hy
    rw [hview] at hy
    have hnew := hi.withMem hknown hy fun u hu => by
      rw [hheld] at hu
      exact hi.slices.held u j hu
    rw [← hx]
    exact hnew

/-- The event concerns neither the registry nor the lock nor a region. -/
def Quiet : SubprocAct β → Prop
  | .loadLocked _ | .loadCursor _ | .storeCursor _ _ | .zalloc _ | .metaFree _ => True
  | _ => False

theorem quiet {e : SubprocAct β} {k : β → Prog SubprocAct α} (he : Quiet e)
    (hk : ∀ b, SubprocSafe strips t (k b) g Q) : SubprocSafe strips t (.act e k) g Q := by
  apply Safe.act
  rintro s γ choice b s' hi rfl - hex
  have hsame : s' = s ∨ ∃ i, s' = { s with allocCursor := i } := by
    cases e with
    | loadLocked | loadCursor | metaFree => cases hex; exact Or.inl rfl
    | storeCursor i => cases hex; exact Or.inr ⟨i, rfl⟩
    | zalloc =>
      simp only [subprocSystem, SubprocMem.exec] at hex
      split at hex <;> cases hex <;> exact Or.inl rfl
    | _ => exact he.elim
  refine ⟨?_, γ t, ?_, hk b⟩
  · cases e <;> first | exact trivial | exact he.elim
  · rcases hsame with rfl | ⟨i, rfl⟩
    · rw [Function.update_eq_self]
      exact hi
    · exact hi.aside rfl rfl rfl rfl rfl rfl (fun _ => rfl) rfl rfl rfl rfl (hi.regions.known t)
        (hi.regions.count t)

/-- The count is loaded. -/
theorem loadCount {f : ℕ → β} {k : β → Prog SubprocAct α}
    (hk : ∀ n, SubprocSafe strips t (k (f n)) { g with count := n } Q) :
    SubprocSafe strips t (.act (.loadCount f) k) g Q := by
  apply Safe.act
  rintro s γ choice b s' hi rfl - hex
  cases hex
  refine ⟨trivial, _, ?_, hk s.arenaCount⟩
  exact hi.aside rfl rfl rfl rfl rfl rfl (fun _ => rfl) rfl rfl rfl rfl (hi.regions.known t) le_rfl

/-- An entry that the thread has seen counted is an arena that it may use. -/
theorem loadArena {i : ℕ} {f : Option ℕ → β} {k : β → Prog SubprocAct α} (hi : i < g.count)
    (hk : ∀ j a, SubprocSafe strips t (k (f (some j))) { g with known := some (j, a) } Q) :
    SubprocSafe strips t (.act (.loadArena i f) k) g Q := by
  apply Safe.act
  rintro s γ choice b s' hinv rfl - hex
  cases hex
  have hlt : i < s.arenaCount := Nat.lt_of_lt_of_le hi (hinv.regions.count t)
  obtain ⟨j, a, hj, ha⟩ := hinv.regions.arenas i hlt
  rw [hj]
  refine ⟨Nat.lt_of_lt_of_le hlt hinv.regions.count_le, _, ?_, hk j a⟩
  refine hinv.aside rfl rfl rfl rfl rfl rfl (fun _ => rfl) rfl rfl rfl rfl ?_ (hinv.regions.count t)
  intro j' a' hja
  cases hja
  exact ⟨ha, Or.inl ⟨i, hlt, hj⟩⟩

theorem deref {f : Arena → β} {k : β → Prog SubprocAct α} (hg : g.known = some (j, a))
    (hk : SubprocSafe strips t (k (f a)) g Q) :
    SubprocSafe strips t (.act (.deref j f) k) g Q := by
  apply Safe.act
  rintro s γ choice b s' hi rfl - hex
  cases hex
  obtain ⟨ha, -⟩ := hi.regions.known t j a hg
  rw [(arena_eq_some.mp ha).2]
  refine ⟨?_, γ t, ?_, hk⟩
  · show (s.arena j).isSome
    rw [ha]
    rfl
  · rw [Function.update_eq_self]
    exact hi

/-! ## The lock and the registry -/

theorem tryLock {f : Bool → β} {k : β → Prog SubprocAct α}
    (htrue : SubprocSafe strips t (k (f true)) { g with phase := .holding } Q)
    (hfalse : SubprocSafe strips t (k (f false)) g Q) :
    SubprocSafe strips t (.act (.tryLock f) k) g Q := by
  apply Safe.act
  rintro s γ choice b s' hi rfl - hex
  simp only [subprocSystem, SubprocMem.exec] at hex
  split at hex
  · next hlock =>
    cases hex
    exact ⟨trivial, _, hi.lock hlock.1, htrue⟩
  · cases hex
    refine ⟨trivial, γ t, ?_, hfalse⟩
    rw [Function.update_eq_self]
    exact hi

theorem unlock {f : Unit → β} {k : β → Prog SubprocAct α} (hg : g.phase ≠ .outside)
    (hk : SubprocSafe strips t (k (f ())) { g with phase := .outside } Q) :
    SubprocSafe strips t (.act (.unlock f) k) g Q := by
  apply Safe.act
  rintro s γ choice b s' hi rfl - hex
  cases hex
  exact ⟨trivial, _, hi.unlock hg, hk⟩

/-- `lock`. -/
theorem lock : SubprocSafe strips t SharedSubproc.lock g fun _ g' =>
    g' = { g with phase := .holding } := by
  apply Safe.loop fun _ g' => g' = g
  · intro _ g' hg'
    rw [hg']
    simp only [Prog.bind_eq, Prog.pure_eq, Prog.perform_bind]
    apply tryLock
    · exact Safe.ret (Safe.ret rfl)
    · simp only [id, Bool.false_eq_true, if_false, Prog.iterate_bind]
      apply Safe.loop fun _ g' => g' = g
      · intro _ g' hg'
        rw [hg']
        apply quiet (by trivial)
        intro locked
        cases locked with
        | true => exact Safe.ret rfl
        | false => exact Safe.ret (Safe.ret rfl)
      · rfl
  · rfl

/-- `add_arena` loads the count under the lock. -/
theorem countLocked {f : ℕ → β} {k : β → Prog SubprocAct α} (hg : g.phase = .holding)
    (hlt : ∀ n, n < Subproc.maxArenas →
      SubprocSafe strips t (k (f n)) { g with phase := .counted n } Q)
    (hge : ∀ n, Subproc.maxArenas ≤ n → SubprocSafe strips t (k (f n)) g Q) :
    SubprocSafe strips t (.act (.loadCount f) k) g Q := by
  apply Safe.act
  rintro s γ choice b s' hi rfl - hex
  cases hex
  rcases Nat.lt_or_ge s.arenaCount Subproc.maxArenas with hcount | hcount
  · exact ⟨trivial, _, hi.loadCount hg hcount, hlt _ hcount⟩
  · refine ⟨trivial, γ t, ?_, hge _ hcount⟩
    rw [Function.update_eq_self]
    exact hi

theorem storeArena {idx : ℕ} {f : Unit → β} {k : β → Prog SubprocAct α}
    (hg : g.phase = .counted idx) (hhand : g.hand = some j)
    (hk : SubprocSafe strips t (k (f ())) { g with phase := .stored idx } Q) :
    SubprocSafe strips t (.act (.storeArena idx j f) k) g Q := by
  apply Safe.act
  rintro s γ choice b s' hi rfl - hex
  cases hex
  obtain ⟨hlt, hnew⟩ := hi.storeArena hg hhand
  exact ⟨⟨(hi.add.counted t idx hg).1.le, hlt⟩, _, hnew, hk⟩

theorem storeCount {idx : ℕ} {f : Unit → β} {k : β → Prog SubprocAct α}
    (hg : g.phase = .stored idx) (hhand : g.hand = some j) (hknown : g.known = some (j, a))
    (hk : SubprocSafe strips t (k (f ()))
      { g with phase := .holding, hand := none, count := idx + 1 } Q) :
    SubprocSafe strips t (.act (.storeCount (idx + 1) f) k) g Q := by
  apply Safe.act
  rintro s γ choice b s' hi rfl - hex
  cases hex
  have hle : s.arenaCount ≤ idx + 1 := (hi.add.stored t idx hg).1.trans_le (Nat.le_succ idx)
  exact ⟨hle, _, hi.storeCount hg hhand hknown, hk⟩

/-! ## Regions -/

/-- A region is asked for by a thread that has none in its hand. -/
theorem osAlloc {slices : ℕ} {f : Option (ℕ × ℕ × Bool × Bool) → β} {k : β → Prog SubprocAct α}
    (hphase : g.phase = .outside) (hhand : g.hand = none)
    (hnone : SubprocSafe strips t (k (f none)) g Q)
    (hsome : ∀ j start isPinned isZero, SubprocSafe strips t
      (k (f (some (j, start, isPinned, isZero))))
      { g with hand := some j, room := (start, slices) } Q) :
    SubprocSafe strips t (.act (.osAlloc slices f) k) g Q := by
  apply Safe.act
  rintro s γ choice b s' hi rfl - hex
  simp only [subprocSystem, SubprocMem.exec] at hex
  split at hex
  · cases hex
    refine ⟨trivial, γ t, ?_, hnone⟩
    rw [Function.update_eq_self]
    exact hi
  · obtain ⟨w, hw, heq⟩ := Option.map_eq_some_iff.mp hex
    cases heq
    exact ⟨trivial, _, hi.giveRegion hphase hhand hw, hsome ..⟩

theorem osFree {f : Unit → β} {k : β → Prog SubprocAct α} (hphase : g.phase = .outside)
    (hhand : g.hand = some j) (htaken : g.taken j = ∅)
    (hk : SubprocSafe strips t (k (f ())) { g with hand := none, known := none } Q) :
    SubprocSafe strips t (.act (.osFree j f) k) g Q := by
  apply Safe.act
  rintro s γ choice b s' hi rfl - hex
  cases hex
  exact ⟨⟨(hi.regions.owned j).mpr (Or.inr ⟨t, hhand⟩), hi.regions.apart t j hhand⟩, _,
    hi.free hphase hhand htaken, hk⟩

theorem write {f : Unit → β} {k : β → Prog SubprocAct α} (hphase : g.phase = .outside)
    (hhand : g.hand = some j) (hroom : g.room = (a.start, a.sliceCount))
    (hk : SubprocSafe strips t (k (f ()))
      (SubprocGhost.withTaken { g with known := some (j, a) } j {i | i < a.sliceCount}) Q) :
    SubprocSafe strips t (.act (.write j a f) k) g Q := by
  apply Safe.act
  rintro s γ choice b s' hi rfl - hex
  cases hex
  have hregion := hi.regions.room t j hhand
  rw [hroom] at hregion
  exact ⟨⟨hregion, hi.regions.apart t j hhand⟩, _, hi.make hhand hregion, hk⟩

end SubprocSafe

end MimallocRs
