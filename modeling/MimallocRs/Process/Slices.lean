import MimallocRs.Process.Registry

/-!
# Slices for pages

`alloc_slices` of the sub-process tries the arenas one by one and then registers a new one, and
`release_page_slices` gives the slices of the page in hand back. Neither does anything to other
pages. A request of more than 512 slices may panic; it does not if no arena can serve it
(`Process.CannotServe`), and then no arena is registered for it either.
-/

namespace MimallocRs

open Interleave Prog

variable {refuses : Bool} {panics : Prop} {S : Set (PagePtr × Blk)} {A : Set TheapPtr}
  {w w' : Process} {q : Queues} {D : Set TheapPtr} {H : Option PagePtr} {T : Set (ℕ × ℕ)}
  {p : PagePtr} {th : TheapPtr} {i b n : ℕ} {a : Arena} {commit : Bool}

namespace Process

/-- A change of the arenas and the metadata allocator only, in which no arena is lost. -/
def SameButArenas (w w' : Process) : Prop :=
  (∃ metadata arenas arenaCount allocCursor arenaMem, w' = { w with
    metadata := metadata, arenas := arenas, arenaCount := arenaCount, allocCursor := allocCursor
    arenaMem := arenaMem }) ∧ ∀ i a, w.arenas i = some a → w'.arenas i = some a

theorem SameButArenas.refl (w : Process) : w.SameButArenas w :=
  ⟨⟨_, _, _, _, _, rfl⟩, fun _ _ h => h⟩

theorem SameButArenas.trans {w'' : Process} (h : w.SameButArenas w') (h' : w'.SameButArenas w'') :
    w.SameButArenas w'' := by
  obtain ⟨⟨_, _, _, _, _, rfl⟩, hold⟩ := h
  obtain ⟨⟨md, as, count, cursor, mem, rfl⟩, hold'⟩ := h'
  exact ⟨⟨md, as, count, cursor, mem, rfl⟩, fun i a ha => hold' i a (hold i a ha)⟩

theorem SameButArenas.steps (h : w.SameButArenas w') : Steps S A w q w' q := by
  obtain ⟨⟨_, _, _, _, _, rfl⟩, hold⟩ := h
  exact Steps.of_rfl rfl rfl rfl hold rfl fun _ _ => rfl

theorem sameButArenas_setArena (w : Process) (i : ℕ) (m : ArenaMem) :
    w.SameButArenas (w.setArena i m) :=
  ⟨⟨_, _, _, _, _, rfl⟩, fun _ _ h => h⟩

theorem sameButArenas_setMetadata (w : Process) (m : MetaMem) :
    w.SameButArenas (w.setMetadata m) :=
  ⟨⟨_, _, _, _, _, rfl⟩, fun _ _ h => h⟩

/-- No arena has a run of `n` free slices, and none can be registered that has. -/
def CannotServe (w : Process) (n : ℕ) : Prop :=
  (∀ i a, w.arenas i = some a → ∀ idx, ¬ bitRange idx n ⊆ a.freeBits (w.arenaMem i)) ∧
    (Subproc.maxArenas ≤ w.arenaCount ∨ 126 < chunksFor (max n Subproc.defaultArenaSlices))

end Process

/-- The slices `[idx, idx + n)` of an arena lie in one chunk. -/
def Process.Run (w : Process) (i idx n : ℕ) : Prop :=
  ∃ a, w.arenas i = some a ∧ Bitmap.InChunk a.chunkCount idx n ∧ idx + n ≤ a.sliceCount ∧ 0 < n

/-! ## Metadata blocks -/

theorem metaZalloc_ends {size : ℕ} (h : Sound w q D H T) :
    ProcEnds refuses panics (metaZalloc size) w fun r w' => ∃ m,
      w' = w.setMetadata m ∧ Sound w' q D H T ∧
        match r with
        | some p => m.live = (p, size) :: w.metadata.live ∧ (p, size) ∉ w.metadata.live
        | none => m.live = w.metadata.live := by
  simp only [metaZalloc, store, Prog.bind_eq, Prog.pure_eq, Prog.perform_bind]
  apply Ends.bind
  apply ProcEnds.onMetadata (Meta.metaZalloc_holds h.metadata)
  rintro r m ⟨hl, hlive, hnew⟩
  cases r with
  | none =>
    apply Ends.ret
    have hm : m.Holds m.live := by rwa [hlive]
    exact ⟨m, rfl, h.setMetadata hm fun hdr _ hin => by rwa [hlive], hlive⟩
  | some p =>
    apply ProcEnds.store
    apply Ends.ret
    have hp := hnew p rfl
    refine ⟨{ m with live := [(p, size)] ++ m.live }, rfl, h.setMetadata ?_ fun hdr _ hin => ?_, ?_⟩
    · show MetaMem.Holds _ ((p, size) :: m.live)
      rw [hlive]
      exact hp.congr rfl rfl rfl rfl
    · show _ ∈ (p, size) :: m.live
      rw [hlive]
      exact List.mem_cons_of_mem _ hin
    · refine ⟨?_, fun hin => hp.ne_of_mem hin rfl⟩
      show (p, size) :: m.live = _
      rw [hlive]

/-- A metadata block that is no header of a live page is given back. -/
theorem metaFree_ends {h size : ℕ} (hs : Sound w q D H T) (hin : (h, size) ∈ w.metadata.live)
    (hno : PagePtr.header h ∉ w.pages) :
    ProcEnds refuses panics (metaFree h size) w fun _ w' => ∃ m,
      w' = w.setMetadata m ∧ Sound w' q D H T ∧ m.live = w.metadata.live.erase (h, size) := by
  simp only [metaFree, store, Prog.bind_eq, Prog.perform_bind]
  apply ProcEnds.store
  have hdiff : w.metadata.live.diff [(h, size)] = w.metadata.live.erase (h, size) := by simp
  have hholds : (w.unhold [(h, size)]).metadata.Holds
      ((h, size) :: w.metadata.live.erase (h, size)) :=
    (hs.metadata.perm (List.perm_cons_erase hin)).congr rfl rfl rfl rfl
  apply ProcEnds.onMetadata (Meta.metaFree_holds hholds)
  rintro _ m ⟨hl, hlive⟩
  have hlive : m.live = w.metadata.live.erase (h, size) := hlive.trans hdiff
  refine ⟨m, rfl, hs.setMetadata (by rwa [hlive]) fun hdr hp hin' => ?_, hlive⟩
  rw [hlive]
  apply (List.mem_erase_of_ne _).mpr hin'
  intro heq
  cases heq
  exact hno hp

namespace Subproc

/-! ## Arenas -/

/-- A new arena has at least the slices that are asked for, and all of them are free. -/
theorem reserveArena_ends (h : Sound w q D H ∅) :
    ProcEnds refuses panics (reserveArena n commit) w fun r w' => w.SameButArenas w' ∧
      Sound w' q D H ∅ ∧
        match r with
        | none => w'.arenas = w.arenas ∧ w'.arenaCount = w.arenaCount
        | some i => w.arenaCount < maxArenas ∧
            chunksFor (max n defaultArenaSlices) ≤ 126 ∧ ∃ a, w'.arenas i = some a := by
  simp only [reserveArena, addArena, fetch, store, Prog.bind_eq, Prog.pure_eq, Prog.perform_bind]
  apply Ends.bind
  apply ProcEnds.onMetadata ((Arena.create_holds h.metadata).and
    (Arena.create_ends h.metadata.chunks))
  rintro r m ⟨⟨hlive, hr⟩, hdone⟩
  have hmem : ∀ x ∈ w.metadata.live, x ∈ m.live := fun x hx => by rwa [hlive]
  cases r with
  | none =>
    apply Ends.ret
    refine ⟨w.sameButArenas_setMetadata m, h.setMetadata ?_ fun hdr _ => hmem _, rfl, rfl⟩
    rwa [hlive]
  | some r =>
    obtain ⟨hheld, hcount, hfree⟩ := hr
    have hchunks : chunksFor (max n defaultArenaSlices) ≤ 126 := by
      have hle := Arena.allocation_hot (hdone.hot r rfl)
      rwa [hdone.count r rfl] at hle
    apply ProcEnds.store
    simp only [Prog.act_bind]
    apply ProcEnds.fetch
    split
    · apply ProcEnds.store
      have hdiff : (r.blocks ++ m.live).diff r.blocks = m.live := by
        simp [Arena.Created.blocks]
      have hheld' : (((w.setMetadata m).hold r.blocks).unhold r.blocks).metadata.Holds
          (r.blocks ++ w.metadata.live) := hheld.congr rfl rfl rfl rfl
      apply Ends.bind
      apply ProcEnds.onMetadata (Arena.destroy_holds hheld')
      rintro _ m' ⟨hlive', hholds⟩
      have hlive' : m'.live = w.metadata.live := hlive'.trans (hdiff.trans hlive)
      apply Ends.ret
      refine ⟨w.sameButArenas_setMetadata m', h.setMetadata ?_ fun hdr _ hin => ?_, rfl, rfl⟩
      · rwa [hlive']
      · rwa [hlive']
    · next hroom =>
      simp only [Prog.act_bind, Prog.ret_bind]
      apply ProcEnds.store
      apply ProcEnds.store
      apply Ends.ret
      have hnew : w.arenas w.arenaCount = none := by
        rw [← Option.not_isSome_iff_eq_none, h.arenas]
        exact Nat.lt_irrefl _
      have hfree' : r.arena.freeBits m.new = bitRange 0 r.arena.sliceCount := by
        rw [hfree, hcount]
      refine ⟨⟨⟨_, _, _, _, _, rfl⟩, fun i a ha => ?_⟩,
        h.addArena (k := { m with live := r.blocks ++ m.live }) (hdone.region r rfl) hfree' ?_
          fun x hx => ?_,
        Nat.lt_of_not_le hroom, hchunks, r.arena, Function.update_self ..⟩
      · have hne : i ≠ w.arenaCount := by
          rintro rfl
          cases hnew.symm.trans ha
        exact (Function.update_of_ne hne ..).trans ha
      · show MetaMem.Holds _ (r.blocks ++ m.live)
        rw [hlive]
        exact hheld.congr rfl rfl rfl rfl
      · exact List.mem_append_right _ (hmem x hx)

/-! ## Allocating slices -/

/-- One arena is tried. -/
theorem allocFrom_ends {tseq : ℕ} (h : Sound w q D H ∅) (ha : w.arenas i = some a)
    (hn : n ≤ 512 ∨ panics ∨ ∀ idx, ¬ bitRange idx n ⊆ a.freeBits (w.arenaMem i)) :
    ProcEnds refuses panics ((a.allocSlices n tseq).hoist (.arena i)) w fun r w' =>
      ∃ m, w' = w.setArena i m ∧
        match r with
        | none => Sound w' q D H ∅ ∧ a.freeBits m = a.freeBits (w.arenaMem i)
        | some (idx, _, _) => Sound w' q D H (slicesOf i idx n) ∧ w'.Run i idx n ∧
            bitRange idx n ⊆ a.freeBits (w.arenaMem i) := by
  have hends : ArenaEnds a panics (a.allocSlices n tseq) (w.arenaMem i) fun r m =>
      a.Allocated n (w.arenaMem i) r m ∧ (r ≠ none → 0 < n) := by
    rcases Nat.eq_zero_or_pos n with rfl | hpos
    · apply Arena.allocSlices_zero.mono
      rintro r m ⟨rfl, rfl⟩
      exact ⟨rfl, fun hc => (hc rfl).elim⟩
    · by_cases hle : n ≤ 512 ∨ ∀ idx, ¬ bitRange idx n ⊆ a.freeBits (w.arenaMem i)
      · exact (Arena.allocSlices_ends hle).mono fun _ _ hr => ⟨hr, fun _ => hpos⟩
      · rw [not_or, not_le] at hle
        have hp : panics := by
          rcases hn with hn | hp | hno
          · omega
          · exact hp
          · exact (hle.2 hno).elim
        obtain ⟨idx, hrun⟩ := not_forall.mp hle.2
        apply ((Arena.allocSlices_panics hle.1 (not_not.mp hrun)).allow fun _ => hp).mono
        exact fun _ _ hc => hc.elim
  apply ProcEnds.arena ha hends
  rintro r m ⟨hm, hpos⟩
  refine ⟨m, rfl, ?_⟩
  cases r with
  | none => exact ⟨h.sameFree ha hm, hm⟩
  | some r =>
    obtain ⟨idx, ptr, isZero⟩ := r
    have hpos := hpos (by simp)
    have hin := hm.inChunk hpos
    obtain ⟨-, hsub, hfree, -⟩ := hm
    have hlast := ((h.free_iff i a (idx + n - 1) ha).mp
      (hsub (mem_bitRange.mpr (by omega)))).1
    exact ⟨h.takeSlices ha hsub hfree, ⟨a, ha, hin, by omega, hpos⟩, hsub⟩

/-- **Slices are allocated**, from an arena that is registered already or from a new one. -/
theorem allocSlices_ends {tseq : ℕ} (h : Sound w q D H ∅)
    (hn : n ≤ 512 ∨ panics ∨ w.CannotServe n) :
    ProcEnds refuses panics (allocSlices n commit tseq) w fun r w' => w.SameButArenas w' ∧
      match r with
      | none => Sound w' q D H ∅ ∧
          (w.CannotServe n → w'.arenas = w.arenas ∧ w'.arenaCount = w.arenaCount)
      | some (i, idx, _) => Sound w' q D H (slicesOf i idx n) ∧ w'.Run i idx n ∧
          ¬ w.CannotServe n := by
  simp only [allocSlices, fetch, store, Prog.bind_eq, Prog.pure_eq, Prog.perform_bind]
  apply ProcEnds.fetch
  apply ProcEnds.fetch
  apply Ends.bind
  refine Ends.firstSome (fun l w' => (∀ k ∈ l, k < w.arenaCount) ∧ w.SameButArenas w' ∧
    Sound w' q D H ∅ ∧ w'.arenas = w.arenas ∧ w'.arenaCount = w.arenaCount ∧
    ∀ i a, w.arenas i = some a → a.freeBits (w'.arenaMem i) = a.freeBits (w.arenaMem i)) ?_ ?_
    ⟨fun k => List.mem_range.mp, .refl w, h, rfl, rfl, fun _ _ _ => rfl⟩
  · rintro k l w₁ ⟨hlt, hsame, h₁, harenas, hcount, hbits⟩
    have hk := hlt k List.mem_cons_self
    have hi : (w.allocCursor % w.arenaCount + k) % w.arenaCount < w.arenaCount :=
      Nat.mod_lt _ (by omega)
    generalize (w.allocCursor % w.arenaCount + k) % w.arenaCount = i at hi ⊢
    obtain ⟨a, ha⟩ := Option.isSome_iff_exists.mp ((h.arenas i).mpr hi)
    have ha₁ : w₁.arenas i = some a := by rw [harenas, ha]
    apply ProcEnds.fetch
    rw [ha₁]
    apply Ends.bind
    have hn₁ : n ≤ 512 ∨ panics ∨ ∀ idx, ¬ bitRange idx n ⊆ a.freeBits (w₁.arenaMem i) := by
      rw [hbits i a ha]
      exact hn.imp_right (Or.imp_right fun hc => hc.1 i a ha)
    apply (allocFrom_ends h₁ ha₁ hn₁).mono
    rintro r _ ⟨m, rfl, hr⟩
    have hsame' := hsame.trans (w₁.sameButArenas_setArena i m)
    cases r with
    | none =>
      apply Ends.ret
      refine ⟨fun k' hk' => hlt k' (List.mem_cons_of_mem _ hk'), hsame', hr.1, harenas, hcount, ?_⟩
      intro i' a' ha'
      by_cases hi' : i' = i
      · subst hi'
        cases ha.symm.trans ha'
        rw [w₁.setArena_arenaMem, hr.2, hbits i' a ha]
      · rw [← hbits i' a' ha']
        exact congrArg a'.freeBits (Function.update_of_ne hi' ..)
    | some r =>
      obtain ⟨idx, ptr, isZero⟩ := r
      have hcan : ¬ w.CannotServe n := by
        intro hc
        apply hc.1 i a ha idx
        rw [← hbits i a ha]
        exact hr.2.2
      dsimp only
      split
      · apply ProcEnds.store
        apply Ends.ret
        exact Ends.ret ⟨hsame'.trans ⟨⟨_, _, _, _, _, rfl⟩, fun _ _ h => h⟩, { hr.1 with }, hr.2.1,
          hcan⟩
      · apply Ends.ret
        exact Ends.ret ⟨hsame', hr.1, hr.2.1, hcan⟩
  · rintro w₁ ⟨-, hsame, h₁, harenas, hcount, hbits⟩
    apply Ends.bind
    apply (reserveArena_ends h₁).mono
    rintro r w₂ ⟨hsame₂, h₂, hr⟩
    cases r with
    | none =>
      apply Ends.ret
      exact ⟨hsame.trans hsame₂, h₂, fun _ => ⟨hr.1.trans harenas, hr.2.trans hcount⟩⟩
    | some i =>
      obtain ⟨hroom, hchunks, a, ha⟩ := hr
      have hcan : ¬ w.CannotServe n := by
        rintro ⟨-, hfull | hbig⟩
        · omega
        · omega
      have hn₂ : n ≤ 512 ∨ panics ∨ ∀ idx, ¬ bitRange idx n ⊆ a.freeBits (w₂.arenaMem i) :=
        hn.imp_right fun hor => Or.inl (hor.resolve_right hcan)
      simp only [onArena, fetch, Prog.bind_eq, Prog.perform_bind, Prog.act_bind]
      apply ProcEnds.fetch
      rw [ha]
      apply Ends.bind
      apply (allocFrom_ends h₂ ha hn₂).mono
      rintro r _ ⟨m, rfl, hr⟩
      have hsame₃ := (hsame.trans hsame₂).trans (w₂.sameButArenas_setArena i m)
      cases r with
      | none => exact Ends.ret ⟨hsame₃, hr.1, fun hc => (hcan hc).elim⟩
      | some r =>
        obtain ⟨idx, ptr, isZero⟩ := r
        apply ProcEnds.store
        apply Ends.ret
        exact ⟨hsame₃.trans ⟨⟨_, _, _, _, _, rfl⟩, fun _ _ h => h⟩, { hr.1 with }, hr.2.1, hcan⟩

/-- Purging takes no slices. -/
theorem tryPurge_ends {force : Bool} (h : Sound w q D H T) :
    ProcEnds refuses panics (tryPurge force) w fun _ w' =>
      w.SameButArenas w' ∧ Sound w' q D H T := by
  simp only [tryPurge, fetch, Prog.bind_eq, Prog.pure_eq, Prog.perform_bind]
  apply ProcEnds.fetch
  refine Ends.forEach (fun _ w' => w.SameButArenas w' ∧ Sound w' q D H T) ?_ (fun _ h => h)
    ⟨.refl w, h⟩
  rintro i l w₁ ⟨hsame, h₁⟩
  apply ProcEnds.fetch
  cases ha : w₁.arenas i with
  | none => exact Ends.ret ⟨hsame, h₁⟩
  | some a =>
    apply Ends.bind
    apply ProcEnds.arena ha Arena.maybePurge_ends
    intro _ m hm
    apply Ends.ret
    exact ⟨hsame.trans (w₁.sameButArenas_setArena i m), h₁.sameFree ha hm⟩

end Subproc

/-! ## Giving slices back -/

/-- Slices that have been taken are given back. -/
theorem freeSlices_ends {idx : ℕ} (h : Sound w q D H (slicesOf i idx n)) (hrun : w.Run i idx n) :
    ProcEnds refuses panics (onArena i fun a => a.freeSlices idx n) w fun _ w' =>
      ∃ m, w' = w.setArena i m ∧ Sound w' q D H ∅ := by
  obtain ⟨a, ha, hin, hle, -⟩ := hrun
  apply ProcEnds.onArena ha (Arena.freeSlices_ends hin)
  intro _ m hm
  exact ⟨m, rfl, h.giveSlices ha hle hm⟩

/-- The page `p` has been released. -/
def Process.Released (w : Process) (p : PagePtr) (w' : Process) : Prop :=
  ∃ metadata arenaMem pageMap, w' = { w with
    metadata := metadata, arenaMem := arenaMem, pageMap := pageMap, pages := w.pages.erase p }

/-- A release takes the live blocks of the page with it, and no others. -/
theorem Process.Released.steps (h : w.Released p w') (hS : ∀ b, (p, b) ∈ S → ¬ w.Live (p, b)) :
    Steps S A w q w' q := by
  obtain ⟨_, _, _, rfl⟩ := h
  refine ⟨⟨fun x hx hl => ⟨Finset.mem_erase.mpr ⟨?_, hl.1⟩, hl.2⟩, fun _ _ _ => rfl,
    fun _ _ _ => rfl, fun _ _ _ h => h, fun _ _ h => h⟩, rfl, fun _ _ => rfl⟩
  obtain ⟨p', b⟩ := x
  rintro rfl
  exact hS b hx hl

/-- **The page in hand is released.** -/
theorem releasePageSlices_ends (h : Sound w q D (some p) ∅) (hreg : ¬ w.InRegistry p) :
    ProcEnds refuses panics (releasePageSlices p) w fun _ w' =>
      w.Released p w' ∧ Sound w' q D none ∅ := by
  have hp := h.held p rfl
  obtain ⟨⟨a, ha, hin, hle, hpos⟩, hheader⟩ := h.placed p hp
  have hok := h.pageOk p hp
  simp only [releasePageSlices, fetch, store, Prog.bind_eq, Prog.pure_eq, Prog.perform_bind]
  apply ProcEnds.fetch
  apply ProcEnds.store
  have hunmapped := h.unmapPage hreg
  apply Ends.bind
  apply (freeSlices_ends hunmapped ⟨a, ha, hin, hle, hpos⟩).mono
  rintro _ _ ⟨m, rfl, h₁⟩
  cases p with
  | slice i idx =>
    have hne : (w.desc (.slice i idx)).bin ≠ miBinHuge := Nat.ne_of_lt hok.place.2.2.1
    rw [if_neg hne]
    exact Ends.ret ⟨⟨_, _, _, rfl⟩, h₁⟩
  | header hdr =>
    rw [if_pos hok.place.1]
    apply (metaFree_ends h₁ (hheader hdr rfl) (Finset.notMem_erase _ _)).mono
    rintro _ _ ⟨m', rfl, h₂, -⟩
    exact ⟨⟨_, _, _, rfl⟩, h₂⟩

end MimallocRs
