import MimallocRs.Process.Places

/-!
# The abandoned registries

A page that has been handed off and has room is in the registry of its arena for its bin, from where
any theap can take it over. The functions here put the page in hand into its registry and take it out
again, and `reclaim_page` searches the registries: it finds a page whenever one is registered
(`Subproc.reclaimPage_ends`), since no thread holds a page of a registry between calls, so that the
claim of a registered page succeeds.
-/

namespace MimallocRs

open Interleave Prog

variable {refuses : Bool} {panics : Prop} {S : Set (PagePtr × Blk)} {A : Set TheapPtr}
  {w w' : Process} {q : Queues} {D : Set TheapPtr} {H : Option PagePtr} {T : Set (ℕ × ℕ)}
  {p : PagePtr} {th : TheapPtr} {i b : ℕ} {a : Arena}

/-- A change of the abandoned registries only. -/
def Process.SameButRegistry (w w' : Process) : Prop :=
  ∃ base words refused, w' = { w with
    abandonedBase := base, pagesAbandoned := words, registryRefused := refused }

theorem Process.SameButRegistry.refl (w : Process) : w.SameButRegistry w := ⟨_, _, _, rfl⟩

theorem Process.SameButRegistry.trans {w'' : Process} (h : w.SameButRegistry w')
    (h' : w'.SameButRegistry w'') : w.SameButRegistry w'' := by
  obtain ⟨_, _, _, rfl⟩ := h
  obtain ⟨base, words, refused, rfl⟩ := h'
  exact ⟨base, words, refused, rfl⟩

theorem Process.SameButRegistry.steps (h : w.SameButRegistry w') : Steps S A w q w' q := by
  obtain ⟨_, _, _, rfl⟩ := h
  exact Steps.of_rfl rfl rfl rfl (fun _ _ h => h) rfl fun _ _ => rfl

namespace Sound

/-- The registry changes at the slice of the page in hand. -/
theorem withRegistry {v : Words} (h : Sound w q D (some p) T)
    (ha : w.arenas (w.desc p).arena = some a) (hbase : w.abandonedBase (w.desc p).arena = true)
    (hcov : Covered a.chunkCount v)
    (hv : ∀ j, j ≠ (w.desc p).sliceIndex → (j ∈ bitsOf a.chunkCount v ↔
      j ∈ bitsOf a.chunkCount (w.pagesAbandoned (w.desc p).arena (w.desc p).bin))) :
    Sound (w.withRegistry (w.desc p).arena (w.desc p).bin v) q D (some p) T := by
  have hself : (w.withRegistry (w.desc p).arena (w.desc p).bin v).pagesAbandoned
      (w.desc p).arena (w.desc p).bin = v := w.withRegistry_words _ _ v
  have hother : ∀ {i b}, ¬ (i = (w.desc p).arena ∧ b = (w.desc p).bin) →
      (w.withRegistry (w.desc p).arena (w.desc p).bin v).pagesAbandoned i b =
        w.pagesAbandoned i b := by
    intro i b hne
    simp only [Process.withRegistry]
    by_cases hi : i = (w.desc p).arena
    · subst hi
      rw [Function.update_self, Function.update_of_ne fun hb => hne ⟨rfl, hb⟩]
    · rw [Function.update_of_ne hi]
  have hbits : ∀ {i b j}, ¬ (i = (w.desc p).arena ∧ b = (w.desc p).bin ∧
      j = (w.desc p).sliceIndex) →
      ((w.withRegistry (w.desc p).arena (w.desc p).bin v).Registered i b j ↔
        w.Registered i b j) := by
    intro i b j hne
    unfold Process.Registered
    apply and_congr_right
    intro _
    apply exists_congr
    intro a'
    apply and_congr_right
    intro ha'
    by_cases heq : i = (w.desc p).arena ∧ b = (w.desc p).bin
    · obtain ⟨rfl, rfl⟩ := heq
      cases ha.symm.trans ha'
      rw [hself]
      exact hv j fun hj => hne ⟨rfl, rfl, hj⟩
    · rw [hother heq]
  refine { h with unbased := ?_, covered := ?_, registered := ?_, inRegistry := ?_ }
  · intro i hi
    rw [← h.unbased i hi]
    funext b
    apply hother
    rintro ⟨rfl, -⟩
    cases hbase.symm.trans hi
  · intro i a' b ha'
    by_cases heq : i = (w.desc p).arena ∧ b = (w.desc p).bin
    · obtain ⟨rfl, rfl⟩ := heq
      cases ha.symm.trans ha'
      rwa [hself]
    · rw [hother heq]
      exact h.covered i a' b ha'
  · intro i b j hbit
    by_cases heq : i = (w.desc p).arena ∧ b = (w.desc p).bin ∧ j = (w.desc p).sliceIndex
    · obtain ⟨rfl, rfl, rfl⟩ := heq
      exact ⟨p, h.held p rfl, rfl, rfl, rfl, Or.inl rfl⟩
    · exact h.registered i b j ((hbits heq).mp hbit)
  · intro hrefused p' hp' hH ho hid
    have hin := h.inRegistry hrefused p' hp' hH ho hid
    apply (hbits _).mpr hin
    rintro ⟨hi, -, hj⟩
    -- two pages do not share their first slice
    apply hH
    have hfirst := h.first_mem hp'
    have hfirst' := h.first_mem (h.held p rfl)
    have hi : (w.desc p').arena = (w.desc p).arena := hi
    have hj : (w.desc p').sliceIndex = (w.desc p).sliceIndex := hj
    rw [← hi, ← hj] at hfirst'
    rw [h.eq_of_slices hp' (h.held p rfl) hfirst hfirst']

/-- The registries of an arena are mapped. -/
theorem mapRegistry (h : Sound w q D H T) (ha : w.arenas i = some a)
    (hbase : w.abandonedBase i = false) :
    Sound { w with
      abandonedBase := Function.update w.abandonedBase i true
      pagesAbandoned := Function.update w.pagesAbandoned i fun _ _ => 0#64 } q D H T := by
  have hzero : Function.update w.pagesAbandoned i (fun _ _ => 0#64) = w.pagesAbandoned := by
    rw [← h.unbased i hbase, Function.update_eq_self]
  rw [hzero]
  refine { h with based := ?_, unbased := ?_, registered := ?_, inRegistry := ?_ }
  · intro i' hi'
    have hi' : Function.update w.abandonedBase i true i' = true := hi'
    by_cases hi : i' = i
    · subst hi
      show (w.arenas i').isSome = true
      rw [ha]
      rfl
    · apply h.based i'
      rwa [Function.update_of_ne hi] at hi'
  · intro i' hi'
    have hi' : Function.update w.abandonedBase i true i' = false := hi'
    by_cases hi : i' = i
    · subst hi
      rw [Function.update_self] at hi'
      cases hi'
    · rw [Function.update_of_ne hi] at hi'
      exact h.unbased i' hi'
  · rintro i' b j ⟨hi', a', ha', hbit⟩
    have hi' : Function.update w.abandonedBase i true i' = true := hi'
    by_cases hi : i' = i
    · subst hi
      have hbit : j ∈ bitsOf a'.chunkCount (w.pagesAbandoned i' b) := hbit
      rw [h.unbased i' hbase] at hbit
      have hset := hbit.2
      simp at hset
    · rw [Function.update_of_ne hi] at hi'
      exact h.registered i' b j ⟨hi', a', ha', hbit⟩
  · intro hrefused p hp hH ho hid
    obtain ⟨hb, a', ha', hbit⟩ := h.inRegistry hrefused p hp hH ho hid
    refine ⟨?_, a', ha', hbit⟩
    show Function.update w.abandonedBase i true (w.desc p).arena = true
    by_cases hi : (w.desc p).arena = i
    · rw [hi, Function.update_self]
    · rwa [Function.update_of_ne hi]

/-- A registered page has its header in its first slice. Nobody owns it, and it has room. -/
theorem slice_of_registered {j : ℕ} (h : Sound w q D none T) (hbit : w.Registered i b j) :
    .slice i j ∈ w.pages ∧ (w.desc (.slice i j)).arena = i ∧ (w.desc (.slice i j)).sliceIndex = j ∧
      (w.desc (.slice i j)).bin = b ∧ ¬ (w.page (.slice i j)).Owned ∧
      (w.page (.slice i j)).ownerId = miThreadidAbandonedMapped ∧ ¬ (w.page (.slice i j)).Full := by
  obtain ⟨p, hp, hi, hb, hj, hor⟩ := h.registered i b j hbit
  obtain ⟨ho, hid⟩ := hor.resolve_left (by simp)
  obtain ⟨⟨hlive, hroom⟩, -⟩ := h.abandoned p hp (by simp) ho
  have hfull : ¬ (w.page p).Full := by
    rcases hroom with ⟨-, hfull⟩ | ⟨hid', -⟩
    · exact hfull
    · rw [hid] at hid'
      cases hid'
  have hok := h.pageOk p hp
  cases p with
  | slice i' j' =>
    obtain ⟨hi', hj', -⟩ := hok.place
    obtain rfl := hi'.symm.trans hi
    obtain rfl := hj'.symm.trans hj
    exact ⟨hp, hi, hj, hb, ho, hid, hfull⟩
  | header hdr =>
    -- the only block of a huge page is live
    obtain ⟨-, hone, -⟩ := hok.place
    obtain ⟨fr, lo, xs, hblocks⟩ := hok.blocks
    obtain ⟨c, hc⟩ := hlive
    have hlt := hblocks.lt_reserved hc
    exfalso
    apply hfull
    unfold LivePage.Full
    ext c'
    rw [hone] at hlt
    rw [Finset.mem_range, hone]
    constructor
    · intro hc'
      exact hone ▸ hblocks.lt_reserved hc'
    · intro hc'
      rwa [Nat.lt_one_iff.mp hc', ← Nat.lt_one_iff.mp hlt]

end Sound

/-! ## Registering -/

namespace Subproc

/-- The page in hand is put in its registry, unless this cannot be mapped. -/
theorem abandonPage_ends (h : Sound w q D (some p) T) :
    ProcEnds refuses panics (abandonPage p (w.desc p).bin) w fun _ w' => w.SameButRegistry w' ∧
      Sound w' q D (some p) T ∧ (w'.registryRefused = false → w'.InRegistry p) := by
  obtain ⟨⟨a, ha, hin, -, hpos⟩, -⟩ := h.placed p (h.held p rfl)
  have hin₁ : Bitmap.InChunk a.chunkCount (w.desc p).sliceIndex 1 := ⟨hin.1, by have := hin.2; omega⟩
  have set : ∀ w₁, w.SameButRegistry w₁ → Sound w₁ q D (some p) T →
      w₁.abandonedBase (w.desc p).arena = true →
      ProcEnds refuses panics (((Bitmap.setN (w.desc p).sliceIndex 1).hoist
        (.registry (w.desc p).arena (w.desc p).bin)).bind fun _ => .ret ()) w₁ fun _ w' =>
          w.SameButRegistry w' ∧ Sound w' q D (some p) T ∧
            (w'.registryRefused = false → w'.InRegistry p) := by
    intro w₁ hsame h₁ hbase
    have hdesc : w₁.desc p = w.desc p := by
      obtain ⟨_, _, _, rfl⟩ := hsame
      rfl
    have ha₁ : w₁.arenas (w.desc p).arena = some a := by
      obtain ⟨_, _, _, rfl⟩ := hsame
      exact ha
    apply Ends.bind
    apply ProcEnds.registry ha₁
      ((Bitmap.setN_ends a.chunkCount_le hin₁).and_panics
        (Bitmap.setN_covers (h₁.covered _ a _ ha₁)))
    rintro _ v ⟨hv, hcov⟩
    apply Ends.ret
    rw [← hdesc] at ha₁ hbase hv ⊢
    refine ⟨hsame.trans ⟨_, _, _, rfl⟩, h₁.withRegistry ha₁ hbase hcov fun j hj => ?_, fun _ => ?_⟩
    · rw [hv, Set.mem_union, mem_bitRange]
      have hne : ¬ ((w₁.desc p).sliceIndex ≤ j ∧ j < (w₁.desc p).sliceIndex + 1) := by omega
      rw [or_iff_left hne]
    · refine ⟨hbase, a, ha₁, ?_⟩
      show (w₁.desc p).sliceIndex ∈ bitsOf a.chunkCount
        ((w₁.withRegistry (w₁.desc p).arena (w₁.desc p).bin v).pagesAbandoned
          (w₁.desc p).arena (w₁.desc p).bin)
      rw [w₁.withRegistry_words, hv]
      right
      rw [mem_bitRange]
      omega
  simp only [abandonPage, Arena.pageAbandon, Arena.ensureAbandoned, fetch, Prog.bind_eq,
    Prog.pure_eq, Prog.perform_bind]
  apply ProcEnds.fetch
  simp only [Prog.act_bind]
  apply ProcEnds.fetch
  cases hbase : w.abandonedBase (w.desc p).arena with
  | true =>
    simp only [if_true, Prog.ret_bind]
    exact set w (.refl w) h hbase
  | false =>
    rw [if_neg Bool.false_ne_true]
    simp only [Prog.perform_bind]
    refine ProcEnds.asks (fun _ => rfl) (fun _ => ?_) ?_
    · apply Ends.ret
      refine ⟨⟨_, _, _, rfl⟩, { h with inRegistry := ?_ }, ?_⟩
      · rintro ⟨⟩
      · rintro ⟨⟩
    · rw [if_pos (show id true = true from rfl)]
      exact set _ ⟨_, _, _, rfl⟩ (h.mapRegistry ha hbase) (Function.update_self ..)

end Subproc

namespace Arena

/-- The bit of the page in hand is cleared. -/
theorem clearBit_ends (h : Sound w q D (some p) T)
    (hbase : w.abandonedBase (w.desc p).arena = true) :
    ProcEnds refuses panics ((Bitmap.clearN (w.desc p).sliceIndex 1).hoist
      (.registry (w.desc p).arena (w.desc p).bin)) w fun _ w' =>
        w.SameButRegistry w' ∧ Sound w' q D (some p) T ∧ ¬ w'.InRegistry p := by
  obtain ⟨⟨a, ha, hin, -, hpos⟩, -⟩ := h.placed p (h.held p rfl)
  have hin₁ : Bitmap.InChunk a.chunkCount (w.desc p).sliceIndex 1 := ⟨hin.1, by have := hin.2; omega⟩
  apply ProcEnds.registry ha
    ((Bitmap.clearN_ends a.chunkCount_le hin₁).and_panics
      (Bitmap.clearN_covers a.chunkCount_le (h.covered _ a _ ha)))
  rintro r v ⟨⟨hr, hv⟩, hcov⟩
  have hbits : ∀ j, j ∈ bitsOf a.chunkCount v ↔ j ≠ (w.desc p).sliceIndex ∧
      j ∈ bitsOf a.chunkCount (w.pagesAbandoned (w.desc p).arena (w.desc p).bin) := by
    intro j
    cases r with
    | true =>
      rw [hv, if_pos rfl, Set.mem_sdiff, mem_bitRange]
      have hiff : ¬ ((w.desc p).sliceIndex ≤ j ∧ j < (w.desc p).sliceIndex + 1) ↔
          j ≠ (w.desc p).sliceIndex := by omega
      rw [hiff, and_comm]
    | false =>
      rw [hv, if_neg Bool.false_ne_true]
      refine ⟨fun hj => ⟨?_, hj⟩, fun hj => hj.2⟩
      rintro rfl
      apply Bool.false_ne_true
      apply hr.mpr
      intro j' hj'
      rw [mem_bitRange] at hj'
      have heq : j' = (w.desc p).sliceIndex := by omega
      rwa [heq]
  refine ⟨⟨_, _, _, rfl⟩, h.withRegistry ha hbase hcov fun j hj => ?_, ?_⟩
  · rw [hbits, and_iff_right hj]
  · rintro ⟨-, a', ha', hbit⟩
    cases ha.symm.trans ha'
    have hbit : (w.desc p).sliceIndex ∈ bitsOf a.chunkCount
      ((w.withRegistry (w.desc p).arena (w.desc p).bin v).pagesAbandoned
        (w.desc p).arena (w.desc p).bin) := hbit
    rw [w.withRegistry_words, hbits] at hbit
    exact hbit.1 rfl

/-- The page in hand is taken out of its registry. -/
theorem pageUnabandon_ends (h : Sound w q D (some p) T) :
    ProcEnds refuses panics
      (pageUnabandon (w.desc p).arena (w.desc p).sliceIndex (w.desc p).bin) w fun _ w' =>
        w.SameButRegistry w' ∧ Sound w' q D (some p) T ∧ ¬ w'.InRegistry p := by
  simp only [pageUnabandon, fetch, Prog.bind_eq, Prog.pure_eq, Prog.perform_bind]
  apply ProcEnds.fetch
  cases hbase : w.abandonedBase (w.desc p).arena with
  | false =>
    rw [if_neg Bool.false_ne_true]
    apply Ends.ret
    refine ⟨.refl w, h, ?_⟩
    rintro ⟨hb, -⟩
    cases hbase.symm.trans hb
  | true =>
    rw [if_pos rfl]
    apply Ends.bind
    apply (clearBit_ends h hbase).mono
    intro _ w' hw'
    exact Ends.ret hw'

/-! ## Reclaiming -/

/-- The page `p`, which was registered for bin `b`, has been claimed and taken out of its
registry. -/
structure Reclaimed (w : Process) (q : Queues) (D : Set TheapPtr) (T : Set (ℕ × ℕ)) (b : ℕ)
    (p : PagePtr) (w' : Process) : Prop where
  page : p ∈ w.pages
  bin : (w.desc p).bin = b
  notOwned : ¬ (w.page p).Owned
  notFull : ¬ (w.page p).Full
  same : (w.setPage p (Page.withOwned (w.page p) true)).SameButRegistry w'
  sound : Sound w' q D (some p) T
  notIn : ¬ w'.InRegistry p

/-- A registered page is claimed. -/
theorem claimBit_ends {c bit : ℕ} (h : Sound w q D none T) (ha : w.arenas i = some a)
    (hbase : w.abandonedBase i = true) (hc : c < a.chunkCount) (hbit : bit < 512) :
    ProcEnds refuses panics (Bitmap.claimBit (fun e => ProcAct.registry i b e)
      (fun idx => onPage (.slice i idx) Page.claimOwnership) c bit) w fun r w' =>
        match r with
        | some idx => Reclaimed w q D T b (.slice i idx) w'
        | none => w' = w ∧ c * 512 + bit ∉ bitsOf a.chunkCount (w.pagesAbandoned i b) := by
  simp only [Bitmap.claimBit, Prog.bind_eq, Prog.pure_eq]
  apply Ends.bind
  apply ProcEnds.registry ha (BChunk.isSet_ends hc hbit)
  rintro r v ⟨rfl, hr⟩
  rw [w.withRegistry_self]
  cases r with
  | false =>
    rw [if_neg Bool.false_ne_true]
    exact Ends.ret ⟨rfl, fun hc => Bool.false_ne_true (hr.mpr hc)⟩
  | true =>
    rw [if_pos rfl]
    have hset : c * 512 + bit ∈ bitsOf a.chunkCount (w.pagesAbandoned i b) := hr.mp rfl
    obtain ⟨hp, hi, hj, hb, ho, hid, hfull⟩ := h.slice_of_registered ⟨hbase, a, ha, hset⟩
    have hidx : c * chunkBits + bit = c * 512 + bit := rfl
    rw [hidx]
    generalize hpe : PagePtr.slice i (c * 512 + bit) = p at *
    have hok := h.pageOk p hp
    obtain ⟨fr, lo, xs, hblocks⟩ := hok.blocks
    apply Ends.bind
    apply ProcEnds.onPage (Page.claimOwnership_ends hblocks)
    rintro r m ⟨rfl, rfl⟩
    have hnot : (w.page p).page.xthreadFree.owned = false := Bool.eq_false_of_not_eq_true ho
    rw [hnot, Bool.not_false, if_pos rfl]
    have hclaimed : Sound (w.setPage p (Page.withOwned (w.page p) true)) q D (some p) T := by
      apply (h.hold hp ho).setPage _ (Or.inl rfl)
      exact { hok with blocks := ⟨fr, lo, xs, Page.withOwned_blocks hblocks⟩ }
    -- the page stays where it is
    have hclear : ProcEnds refuses panics ((Bitmap.clearN (w.desc p).sliceIndex 1).hoist
        (.registry (w.desc p).arena (w.desc p).bin))
        (w.setPage p (Page.withOwned (w.page p) true)) fun _ w' =>
          (w.setPage p (Page.withOwned (w.page p) true)).SameButRegistry w' ∧
            Sound w' q D (some p) T ∧ ¬ w'.InRegistry p := by
      apply clearBit_ends hclaimed
      show w.abandonedBase (w.desc p).arena = true
      rwa [hi]
    rw [hi, hj, hb] at hclear
    apply Ends.bind
    apply hclear.mono
    rintro _ w' ⟨hsame, hsound, hnotIn⟩
    apply Ends.ret
    exact ⟨by rwa [hpe], by rwa [hpe], by rwa [hpe], by rwa [hpe], by rwa [hpe], by rwa [hpe],
      by rwa [hpe]⟩

/-- **The search of a registry** claims a registered page if there is one. -/
theorem reclaimAbandoned_ends {tseq : ℕ} (h : Sound w q D none T) (ha : w.arenas i = some a) :
    ProcEnds refuses panics (reclaimAbandoned i b tseq) w fun r w' =>
      match r with
      | some idx => Reclaimed w q D T b (.slice i idx) w'
      | none => w' = w ∧ ∀ j, ¬ w.Registered i b j := by
  simp only [reclaimAbandoned, fetch, Prog.bind_eq, Prog.pure_eq, Prog.perform_bind]
  apply ProcEnds.fetch
  cases hbase : w.abandonedBase i with
  | false =>
    rw [if_neg Bool.false_ne_true]
    apply Ends.ret
    refine ⟨rfl, ?_⟩
    rintro j ⟨hb, -⟩
    cases hbase.symm.trans hb
  | true =>
    rw [if_pos rfl]
    apply ProcEnds.fetch
    rw [ha]
    have hcov := h.covered i a b ha
    have hcc := a.chunkCount_le
    -- the chunks that are left, in the order of the search, hold all registered pages
    have hcount : 0 < a.chunkCount := by
      rw [a.chunkCount_eq]
      exact Nat.le_max_right ..
    have hstart : ∀ j ∈ bitsOf a.chunkCount (w.pagesAbandoned i b),
        ∃ k ∈ List.range a.chunkCount, j / 512 = (tseq % a.chunkCount + k) % a.chunkCount := by
      intro j hj
      obtain ⟨k, hk, heq⟩ := Bitmap.exists_rotated (Nat.mod_lt tseq hcount) hj.1
      exact ⟨k, List.mem_range.mpr hk, heq.symm⟩
    refine Ends.firstSome (fun l w' => w' = w ∧ ∀ j ∈ bitsOf a.chunkCount (w.pagesAbandoned i b),
      ∃ k ∈ l, j / 512 = (tseq % a.chunkCount + k) % a.chunkCount) ?_ ?_ ⟨rfl, hstart⟩
    · rintro k l w₁ ⟨rfl, hleft⟩
      have hc : (tseq % a.chunkCount + k) % a.chunkCount < a.chunkCount := Nat.mod_lt _ hcount
      have hrest : (∀ j ∈ bitsOf a.chunkCount (w₁.pagesAbandoned i b),
          j / 512 ≠ (tseq % a.chunkCount + k) % a.chunkCount) →
          ∀ j ∈ bitsOf a.chunkCount (w₁.pagesAbandoned i b),
            ∃ k ∈ l, j / 512 = (tseq % a.chunkCount + k) % a.chunkCount := by
        intro hno j hj
        obtain ⟨k', hk', heq⟩ := hleft j hj
        rcases List.mem_cons.mp hk' with rfl | hk'
        · exact (hno j hj heq).elim
        · exact ⟨k', hk', heq⟩
      generalize (tseq % a.chunkCount + k) % a.chunkCount = c at hc hrest ⊢
      simp only [Bitmap.claimInChunk, Prog.bind_eq, Prog.pure_eq]
      apply Ends.bind
      apply ProcEnds.registry ha (Bitmap.isMarked_ends hcc hc)
      rintro r v ⟨rfl, hr⟩
      rw [w₁.withRegistry_self]
      cases r with
      | false =>
        apply Ends.ret
        refine ⟨rfl, hrest fun j hj heq => ?_⟩
        apply Bool.false_ne_true
        rw [hr, ← heq]
        exact hcov j hj
      | true =>
        rw [if_pos rfl]
        have hall : ∀ j ∈ bitsOf a.chunkCount (w₁.pagesAbandoned i b), j / 512 = c →
            j % 512 ∈ List.range chunkBits :=
          fun j _ _ => List.mem_range.mpr (Nat.mod_lt j (by decide))
        refine Ends.firstSome (fun bits w' => (∀ bit ∈ bits, bit < 512) ∧ w' = w₁ ∧
          ∀ j ∈ bitsOf a.chunkCount (w₁.pagesAbandoned i b), j / 512 = c → j % 512 ∈ bits)
          ?_ ?_ ⟨fun bit hbit => List.mem_range.mp hbit, rfl, hall⟩
        · rintro bit bits w₂ ⟨hlt, rfl, hbits⟩
          apply (claimBit_ends h ha hbase hc (hlt bit List.mem_cons_self)).mono
          intro r w₃ hw₃
          cases r with
          | some idx => exact hw₃
          | none =>
            obtain ⟨rfl, hclear⟩ := hw₃
            refine ⟨fun bit' hbit' => hlt bit' (List.mem_cons_of_mem _ hbit'), rfl, ?_⟩
            intro j hj heq
            rcases List.mem_cons.mp (hbits j hj heq) with hbit | hbit
            · rw [← hbit, ← heq, Nat.div_add_mod'] at hclear
              exact (hclear hj).elim
            · exact hbit
        · rintro w₂ ⟨-, rfl, hbits⟩
          refine ⟨rfl, hrest fun j hj heq => ?_⟩
          cases hbits j hj heq
    · rintro w₁ ⟨rfl, hleft⟩
      refine ⟨rfl, ?_⟩
      rintro j ⟨-, a', ha', hj⟩
      cases ha.symm.trans ha'
      obtain ⟨k, hk, -⟩ := hleft j hj
      cases hk

end Arena

namespace Subproc

/-- **`reclaim_page` finds a registered page of the bin whenever there is one.** -/
theorem reclaimPage_ends {tseq : ℕ} (h : Sound w q D none T) :
    ProcEnds refuses panics (reclaimPage b tseq) w fun r w' =>
      match r with
      | some p => ∃ w₁, Arena.Reclaimed w q D T b p w₁ ∧
          w' = { w₁ with log := .reclaimed p :: w₁.log }
      | none => w' = w ∧ ∀ i j, ¬ w.Registered i b j := by
  simp only [reclaimPage, fetch, store, Prog.bind_eq, Prog.pure_eq, Prog.perform_bind]
  apply ProcEnds.fetch
  refine Ends.firstSome (fun l w' => (∀ i ∈ l, i < w.arenaCount) ∧ w' = w ∧
    ∀ i j, w.Registered i b j → i ∈ l) ?_ ?_ ⟨fun i => List.mem_range.mp, rfl, ?_⟩
  · rintro i l w₁ ⟨hlt, rfl, hleft⟩
    obtain ⟨a, ha⟩ := Option.isSome_iff_exists.mp ((h.arenas i).mpr (hlt i List.mem_cons_self))
    apply ProcEnds.fetch
    rw [ha]
    apply Ends.bind
    apply (Arena.reclaimAbandoned_ends h ha).mono
    intro r w₂ hw₂
    cases r with
    | some idx =>
      apply ProcEnds.store
      exact Ends.ret ⟨w₂, hw₂, rfl⟩
    | none =>
      obtain ⟨rfl, hnone⟩ := hw₂
      apply Ends.ret
      refine ⟨fun i' hi' => hlt i' (List.mem_cons_of_mem _ hi'), rfl, ?_⟩
      intro i' j hbit
      rcases List.mem_cons.mp (hleft i' j hbit) with rfl | hi'
      · exact (hnone j hbit).elim
      · exact hi'
  · rintro w₁ ⟨-, rfl, hleft⟩
    exact ⟨rfl, fun i j hbit => by cases hleft i j hbit⟩
  · rintro i j ⟨-, a, ha, -⟩
    rw [List.mem_range, ← h.arenas, ha]
    rfl

end Subproc

end MimallocRs
