import MimallocRs.Foundations.Interleave.Extend
import MimallocRs.Subproc.Exclusive

/-!
# Whether an address is ours

`owns_address` reads the registry without the lock while other threads add to it. It is right all
the same, since arenas are never unmapped once they are registered: no event of any thread undoes an
entry (`Entry.of_event`), so that a search that starts after the entry was made cannot miss it
(`ownsAddress_finds`). `owns_address_exact` says so of every run.
-/

namespace MimallocRs

open Interleave Prog SubprocMem

variable {Tid : Type} [DecidableEq Tid] {strips : Bool} {t : Tid} {s s' : SubprocMem Tid}
  {γ : Tid → SubprocGhost} {o : SubprocOp} {i j ptr : ℕ} {a : Arena} {g : SubprocGhost}
  {α β : Type} {c c' : Config SubprocAct Tid SubprocOp SubprocOp.Res (SubprocMem Tid)}

/-- The slice of an address in it. -/
theorem sliceIndexOf_slicePtr {off : ℕ} (hi : i < a.sliceCount) (hoff : off < miArenaSliceSize) :
    a.sliceIndexOf (a.slicePtr i + off) = some i := by
  have hlast := slicePtr_lt (a := a) hi
  have hpos : 0 < miArenaSliceSize := Nat.lt_of_le_of_lt (Nat.zero_le off) hoff
  have hsub : a.slicePtr i + off - a.start = off + i * miArenaSliceSize := by
    unfold Arena.slicePtr
    omega
  unfold Arena.sliceIndexOf
  rw [if_neg, hsub, Nat.add_mul_div_right _ _ hpos, Nat.div_eq_of_lt hoff, Nat.zero_add]
  unfold Arena.slicePtr at hlast ⊢
  omega

/-! ## Entries last -/

namespace SubprocMem

/-- The entry `i` of the registry is the arena `a` in the region `j`. -/
def Entry (s : SubprocMem Tid) (i j : ℕ) (a : Arena) : Prop :=
  i < s.arenaCount ∧ s.arenas i = some j ∧ s.arena j = some a

/-- The address lies in an arena that is registered. -/
def Owns (s : SubprocMem Tid) (ptr : ℕ) : Prop :=
  ∃ i j a, s.Entry i j a ∧ (a.sliceIndexOf ptr).isSome

/-- No event undoes an entry. -/
theorem Entry.of_event {e : SubprocAct β} {choice : ℕ} {b : β} (h : s.Entry i j a)
    (ha : s.Asserts t e) (hex : s.exec strips t e choice = some (b, s')) : s'.Entry i j a := by
  obtain ⟨hi, hj, harena⟩ := h
  have hreg : s.Registered j := ⟨i, hi, hj⟩
  cases e with
  | tryLock | zalloc =>
    simp only [SubprocMem.exec] at hex
    split at hex <;> cases hex <;> exact ⟨hi, hj, harena⟩
  | osAlloc slices =>
    simp only [SubprocMem.exec] at hex
    split at hex
    · cases hex
      exact ⟨hi, hj, harena⟩
    · obtain ⟨w, hw, heq⟩ := Option.map_eq_some_iff.mp hex
      cases heq
      obtain ⟨-, rfl⟩ := giveRegion_eq hw
      exact ⟨hi, hj, harena⟩
  | storeCount n =>
    cases hex
    exact ⟨Nat.lt_of_lt_of_le hi ha, hj, harena⟩
  | storeArena i' j' =>
    cases hex
    have hne : i ≠ i' := Nat.ne_of_lt (Nat.lt_of_lt_of_le hi ha.1)
    exact ⟨hi, (Function.update_of_ne hne ..).trans hj, harena⟩
  | osFree j' =>
    cases hex
    refine ⟨hi, hj, arena_free.mpr ⟨?_, harena⟩⟩
    rintro rfl
    exact ha.2 hreg
  | write j' a' =>
    cases hex
    refine ⟨hi, hj, (arena_make_of_ne ?_).trans harena⟩
    rintro rfl
    exact ha.2 hreg
  | arena j' e =>
    obtain ⟨r, -, heq⟩ := Option.map_eq_some_iff.mp hex
    cases heq
    exact ⟨hi, hj, harena⟩
  | _ =>
    cases hex
    exact ⟨hi, hj, harena⟩

theorem Entry.of_start (h : s.Entry i j a) (hs : (subprocSystem Tid strips).start t o s = some s') :
    s'.Entry i j a := by
  cases o with
  | freeSlices j' idx n =>
    obtain ⟨w, -, rfl⟩ := Option.map_eq_some_iff.mp hs
    exact h
  | write j' idx off v =>
    simp only [subprocSystem] at hs
    split at hs <;> cases hs
    exact h
  | allocSlices | tryPurge | ownsAddress | setOption | tick =>
    cases hs
    exact h

theorem Entry.of_finish {r : o.Res} (h : s.Entry i j a) :
    ((subprocSystem Tid strips).finish t o r s).Entry i j a := by
  simp only [subprocSystem]
  split <;> exact h

end SubprocMem

/-! ## The search -/

/-- The outline of the sub-process while an entry stands. -/
def entryOutline (Tid : Type) [DecidableEq Tid] (i j : ℕ) (a : Arena) :
    Outline SubprocAct Tid (SubprocMem Tid) SubprocGhost :=
  (subprocOutline Tid).keep fun s => s.Entry i j a

/-- `Safe` while an entry stands. -/
abbrev EntrySafe (strips : Bool) (i j : ℕ) (a : Arena) (t : Tid) (p : Prog SubprocAct α)
    (g : SubprocGhost) (Q : α → SubprocGhost → Prop) : Prop :=
  Safe (subprocSystem Tid strips).toMachine (entryOutline Tid i j a) t p g Q

namespace EntrySafe

variable {Q : α → SubprocGhost → Prop}

theorem of_safe {p : Prog SubprocAct α} (h : SubprocSafe strips t p g Q) :
    EntrySafe strips i j a t p g Q :=
  h.keep fun _ _ _ _ _ ha hex hk => hk.of_event ha hex

/-- The count that is loaded is past the entry. -/
theorem loadCount {f : ℕ → β} {k : β → Prog SubprocAct α}
    (hk : ∀ n, i < n → EntrySafe strips i j a t (k (f n)) { g with count := n } Q) :
    EntrySafe strips i j a t (.act (.loadCount f) k) g Q := by
  apply Safe.act
  rintro s γ choice b s' ⟨hi, hentry⟩ rfl - hex
  cases hex
  refine ⟨trivial, _, ⟨?_, hentry⟩, hk s.arenaCount hentry.1⟩
  exact hi.aside rfl rfl rfl rfl rfl rfl (fun _ => rfl) rfl rfl rfl rfl (hi.regions.known t) le_rfl

/-- At the place of the entry its arena is found. -/
theorem loadArena {l : ℕ} {f : Option ℕ → β} {k : β → Prog SubprocAct α} (hl : l < g.count)
    (hk : ∀ j' a', (l = i → a' = a) →
      EntrySafe strips i j a t (k (f (some j'))) { g with known := some (j', a') } Q) :
    EntrySafe strips i j a t (.act (.loadArena l f) k) g Q := by
  apply Safe.act
  rintro s γ choice b s' ⟨hi, hentry⟩ rfl - hex
  cases hex
  have hlt : l < s.arenaCount := Nat.lt_of_lt_of_le hl (hi.regions.count t)
  obtain ⟨j', a', hj', ha'⟩ := hi.regions.arenas l hlt
  rw [hj']
  have heq : l = i → a' = a := by
    rintro rfl
    have hj := hentry.2.1
    rw [hj'] at hj
    cases hj
    exact Option.some.inj (ha'.symm.trans hentry.2.2)
  refine ⟨Nat.lt_of_lt_of_le hlt hi.regions.count_le, _, ⟨?_, hentry⟩, hk j' a' heq⟩
  refine hi.aside rfl rfl rfl rfl rfl rfl (fun _ => rfl) rfl rfl rfl rfl ?_ (hi.regions.count t)
  intro j'' a'' hja
  cases hja
  exact ⟨ha', Or.inl ⟨l, hlt, hj'⟩⟩

theorem deref {j' : ℕ} {a' : Arena} {f : Arena → β} {k : β → Prog SubprocAct α}
    (hg : g.known = some (j', a')) (hk : EntrySafe strips i j a t (k (f a')) g Q) :
    EntrySafe strips i j a t (.act (.deref j' f) k) g Q := by
  apply Safe.act
  rintro s γ choice b s' ⟨hi, hentry⟩ rfl - hex
  cases hex
  obtain ⟨ha', -⟩ := hi.regions.known t j' a' hg
  rw [(arena_eq_some.mp ha').2]
  refine ⟨?_, γ t, ⟨?_, hentry⟩, hk⟩
  · show (s.arena j').isSome
    rw [ha']
    rfl
  · rw [Function.update_eq_self]
    exact hi

/-- **`owns_address` finds an address in an arena that was registered when it was called.** -/
theorem ownsAddress_finds (hg : g.Idle) (hin : (a.sliceIndexOf ptr).isSome) :
    EntrySafe strips i j a t (SharedSubproc.ownsAddress ptr) g fun r g' =>
      (g'.Idle ∧ ∃ j a, g'.known = some (j, a) ∧ (a.sliceIndexOf ptr).isSome) ∧ r = true := by
  unfold SharedSubproc.ownsAddress
  simp only [Prog.bind_eq, Prog.pure_eq, Prog.perform_bind]
  apply loadCount
  intro count hcount
  apply Safe.bind
  apply Safe.firstSome fun l g' => g'.Idle ∧ g'.count = count ∧ (∀ k ∈ l, k < count) ∧ i ∈ l
  · rintro k l g₁ ⟨hg₁, hseen, hl, hmem⟩
    apply loadArena (by rw [hseen]; exact hl k (List.mem_cons_self ..))
    intro j' a' heq
    refine deref rfl ?_
    have hidle : SubprocGhost.Idle { g₁ with known := some (j', a') } :=
      ⟨hg₁.phase, hg₁.hand, hg₁.taken⟩
    split
    · next hin' => exact Safe.ret (Safe.ret ⟨⟨hidle, j', a', rfl, hin'⟩, rfl⟩)
    · next hout =>
      refine Safe.ret ⟨hidle, hseen, fun i hi => hl i (List.mem_cons_of_mem _ hi), ?_⟩
      rcases List.mem_cons.mp hmem with rfl | hmem
      · exact (hout (by rw [id, heq rfl]; exact hin)).elim
      · exact hmem
  · rintro _ ⟨-, -, -, hmem⟩
    cases hmem
  · exact ⟨⟨hg.phase, hg.hand, hg.taken⟩, rfl, fun i hi => List.mem_range.mp hi,
      List.mem_range.mpr hcount⟩

end EntrySafe

/-! ## Runs -/

/-- A call that asks for the address finds it. -/
def SubprocOp.Finds (ptr : ℕ) : (o : SubprocOp) → o.Res → Prop
  | .ownsAddress ptr', r => ptr' = ptr → r = true
  | .allocSlices .., _ | .freeSlices .., _ | .tryPurge _, _ | .write .., _ | .setOption .., _
  | .tick _, _ => True

/-- What a call is about to return, if it is one of a thread that starts its calls while the entry
stands. -/
def entryPost (later : Tid → Prop) (ptr : ℕ) (t : Tid) (o : SubprocOp) (r : o.Res)
    (g : SubprocGhost) : Prop :=
  subprocPost t o r g ∧ (later t → o.Finds ptr r)

theorem entry_start {later : Tid → Prop} (hin : (a.sliceIndexOf ptr).isSome)
    (hi : (entryOutline Tid i j a).inv s γ) (hidle : (γ t).Idle)
    (hs : (subprocSystem Tid strips).start t o s = some s') :
    ∃ g, (entryOutline Tid i j a).inv s' (Function.update γ t g) ∧
      EntrySafe strips i j a t ((subprocSystem Tid strips).prog t o) g
        (entryPost later ptr t o) := by
  obtain ⟨hinv, hentry⟩ := hi
  by_cases ho : o = .ownsAddress ptr
  · subst ho
    cases hs
    refine ⟨γ t, ⟨?_, hentry⟩, (EntrySafe.ownsAddress_finds hidle hin).mono fun r g hg => ?_⟩
    · rw [Function.update_eq_self]
      exact hinv
    · exact ⟨⟨hg.1.1, fun _ => hg.1.2⟩, fun _ _ => hg.2⟩
  · obtain ⟨g, hinv', hsafe⟩ := subprocSystem_start hinv hidle hs
    refine ⟨g, ⟨hinv', hentry.of_start hs⟩, (EntrySafe.of_safe hsafe).mono fun r g hg => ⟨hg, ?_⟩⟩
    intro _
    cases o with
    | ownsAddress ptr' =>
      rintro rfl
      exact (ho rfl).elim
    | _ => trivial

theorem entry_finish {later : Tid → Prop} {r : o.Res} (hi : (entryOutline Tid i j a).inv s γ)
    (hpost : entryPost later ptr t o r (γ t)) :
    ∃ g, (entryOutline Tid i j a).inv ((subprocSystem Tid strips).finish t o r s)
      (Function.update γ t g) ∧ g.Idle := by
  have hfinish : ∃ g, ((subprocSystem Tid strips).finish t o r s).Inv (Function.update γ t g) ∧
      g.Idle := subprocSystem_finish hi.1 hpost.1
  obtain ⟨g, hinv, hg⟩ := hfinish
  exact ⟨g, ⟨hinv, hi.2.of_finish⟩, hg⟩

/-- An entry stands in all that follows, and calls that start later find it. -/
theorem entry_lasts
    (h : (subprocSystem Tid strips).Reachable SubprocMem.Init System.anyMove c)
    {ms : List (Move Tid SubprocOp)} (hr : (subprocSystem Tid strips).run ms c = some c')
    (hentry : c.mem.Entry i j a) (hin : (a.sliceIndexOf ptr).isSome) :
    c'.mem.Entry i j a ∧ ∀ t, c.thread t = none → ∀ r,
      c'.thread t = some ⟨.ownsAddress ptr, .ret r⟩ → r = true := by
  obtain ⟨γ, hinv, hth⟩ := subprocSystem_reachable h
  have hrun : ∃ γ', (entryOutline Tid i j a).inv c'.mem γ' ∧
      ∀ t, (entryOutline Tid i j a).Thread (subprocSystem Tid strips).toMachine
        (fun _ g => g.Idle) (entryPost (fun t => c.thread t = none) ptr) t (γ' t)
        (c'.thread t) := by
    refine Outline.run (fun t o s s' γ hi hidle hs => entry_start hin hi hidle hs)
      (fun t o r s γ hi hpost => entry_finish hi hpost) ?_ hr ⟨hinv, hentry⟩ fun t => ?_
    · exact fun _ _ _ _ _ _ _ _ _ _ => trivial
    · have hthread := hth t
      cases ht : c.thread t with
      | none =>
        rw [ht] at hthread
        exact hthread
      | some p =>
        rw [ht] at hthread
        refine (EntrySafe.of_safe hthread).mono fun r g hg => ⟨hg, fun hc => ?_⟩
        cases ht.symm.trans hc
  obtain ⟨γ', ⟨-, hentry'⟩, hth'⟩ := hrun
  refine ⟨hentry', fun t ht r hret => ?_⟩
  have hthread := hth' t
  rw [hret] at hthread
  exact (Safe.of_ret hthread).2 ht rfl

/-- **`owns_address` is right while arenas are added.** When it is about to answer yes, the address
lies in a registered arena; every byte of a slice that a thread holds does; and from the time that
an address lies in a registered arena it always does, and every call that starts later answers
yes. -/
theorem owns_address_exact
    (h : (subprocSystem Tid strips).Reachable SubprocMem.Init System.anyMove c) :
    (∀ t ptr, c.thread t = some ⟨.ownsAddress ptr, .ret true⟩ → c.mem.Owns ptr) ∧
    (∀ t j, ∀ i ∈ c.mem.held t j, ∀ off < miArenaSliceSize,
      c.mem.Owns ((c.mem.descriptor j).slicePtr i + off)) ∧
    ∀ ms c', (subprocSystem Tid strips).run ms c = some c' → ∀ ptr, c.mem.Owns ptr →
      c'.mem.Owns ptr ∧ ∀ t, c.thread t = none → ∀ r,
        c'.thread t = some ⟨.ownsAddress ptr, .ret r⟩ → r = true := by
  obtain ⟨γ, hinv, hth⟩ := subprocSystem_reachable h
  refine ⟨fun t ptr ht => ?_, fun t j i hi off hoff => ?_, fun ms c' hr ptr hptr => ?_⟩
  · have hthread := hth t
    rw [ht] at hthread
    obtain ⟨hidle, hsound⟩ := Safe.of_ret hthread
    obtain ⟨j, a, hknown, hin⟩ := hsound rfl
    obtain ⟨ha, hor⟩ := hinv.regions.known t j a hknown
    have hidle : (γ t).Idle := hidle
    rw [hidle.hand] at hor
    obtain ⟨i, hi, hj⟩ := hor.resolve_right fun hc => by cases hc
    exact ⟨i, j, a, ⟨hi, hj, ha⟩, hin⟩
  · have hreg := hinv.registered hi
    obtain ⟨a, ha⟩ := mem_of_registered hinv.regions hreg
    obtain ⟨l, hl, hj⟩ := hreg
    have hlt := ((hinv.divided ha).covers i).mpr (Or.inr (Or.inl ⟨t, hi⟩))
    rw [(arena_eq_some.mp ha).2]
    refine ⟨l, j, a, ⟨hl, hj, ha⟩, ?_⟩
    rw [sliceIndexOf_slicePtr hlt hoff]
    rfl
  · obtain ⟨i, j, a, hentry, hin⟩ := hptr
    obtain ⟨hentry', hfinds⟩ := entry_lasts h hr hentry hin
    exact ⟨⟨i, j, a, hentry', hin⟩, hfinds⟩

/-- One thread has taken a slice, and another is about to answer that a byte of it is owned. -/
def answersYes (c : Config SubprocAct Bool SubprocOp SubprocOp.Res (SubprocMem Bool)) : Bool :=
  match c.thread false with
  | some ⟨.ownsAddress 65541, .ret true⟩ => ((c.mem.mem 0).bits .free).held true = [(0, 1)]
  | _ => false

/-- An address in a slice that another thread has taken is recognised. -/
theorem owns_address_exact_yes :
    ∃ c, (subprocSystem Bool false).Reachable SubprocMem.Init System.anyMove c ∧
      (∃ k, c.thread false = some ⟨.ownsAddress 65541, k⟩) ∧ c.mem.Owns 65541 ∧
      c.mem.Owns ((c.mem.descriptor 0).slicePtr 0 + 5) := by
  have hrun : ((subprocSystem Bool false).run
      ([.start true (.allocSlices 1 true 0)] ++ List.replicate 4 (.step true 6) ++
        List.replicate 626 (.step true 0) ++ [.finish true, .start false (.ownsAddress 65541)] ++
        List.replicate 3 (.step false 0))
      ⟨.init Opt.defaultValue 0 (fun _ => .ofTwoSlices)
        fun _ => ⟨fun _ _ => 0#8, fun _ => false⟩, fun _ => none⟩).any answersYes = true := by
    decide +kernel
  obtain ⟨c, hc, htest⟩ := System.exists_run hrun
  have hreach : (subprocSystem Bool false).Reachable SubprocMem.Init System.anyMove c :=
    System.reachable_of_run ⟨_, _, _, _, rfl⟩ hc
  obtain ⟨hyes, hheld, -⟩ := owns_address_exact hreach
  unfold answersYes at htest
  split at htest
  · next ht =>
    have hlist : ((c.mem.mem 0).bits .free).held true = [(0, 1)] := of_decide_eq_true htest
    have hmem : (0 : ℕ) ∈ c.mem.held true 0 := by
      refine ⟨(0, 1), ?_, le_rfl, by decide⟩
      rw [hlist]
      exact List.mem_singleton.mpr rfl
    exact ⟨c, hreach, ⟨_, ht⟩, hyes false 65541 ht, hheld true 0 0 hmem 5 (by decide)⟩
  · cases htest

end MimallocRs
