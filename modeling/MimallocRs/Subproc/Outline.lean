import MimallocRs.Subproc.Rules

/-!
# The functions of the sub-process are safe

A call that makes an arena has all its slices until it has set the bits of the free ones, and has
the region of the arena until it has registered it or given it back. `alloc_slices` returns with the
run of slices that it has taken from an arena that is registered, or with nothing taken.
-/

namespace MimallocRs

open Interleave Prog

variable {Tid : Type} [DecidableEq Tid] {cc : ℕ} {free₀ : Set ℕ} {strips : Bool} {t : Tid}

/-- The bits of a new bitmap are set by the call that has them. -/
theorem Bitmap.unsafeSetN_safe {g g₀ : Set ℕ} {idx n : ℕ} (h : Took g₀ (bitRange idx n) g) :
    ClaimSafe cc free₀ t (Bitmap.unsafeSetN idx n) g fun _ g' => g' = g₀ := by
  refine Safe.loop (fun b g' => Took g₀ (bitRange b.1 b.2) g') ?_ h
  rintro ⟨bit, remaining⟩ g₁ h₁
  simp only [Prog.bind_eq, Prog.pure_eq] at h₁ ⊢
  split
  · next hzero =>
    apply Safe.ret
    apply Safe.ret
    rw [hzero, bitRange_zero] at h₁
    simpa using h₁.1
  · rw [bitRange_split (Bitmap.here_le bit remaining)] at h₁
    obtain ⟨hhere, hrest⟩ := h₁.split disjoint_bitRange
    have hrange : bitRange bit (Bitmap.here bit remaining) =
        bitRange (bit / chunkBits * 512 + bit % chunkBits) (Bitmap.here bit remaining) := by
      rw [Bitmap.chunk_add_mod]
    rw [hrange] at hhere
    apply Safe.bind
    apply (BChunk.setN_safe hhere).mono
    rintro _ _ rfl
    apply Safe.bind
    apply (ClaimSafe.of_every
      (Bitmap.chunkmapSet_every (fun _ => trivial) (fun _ _ _ => ⟨_, rfl⟩) _)).mono
    rintro _ _ rfl
    exact Safe.ret hrest

/-- What `create` does with the bitmaps of an arena all of whose slices it has. -/
theorem ArenaSafe.initBitmaps {a : Arena} {g g₀ : Set ℕ} {commit : Bool}
    (h : Took g₀ (bitRange 0 a.sliceCount) g) :
    ArenaSafe a strips free₀ t (a.initBitmaps commit) g fun _ g' => g' = g₀ := by
  unfold Arena.initBitmaps
  simp only [Prog.bind_eq, Prog.pure_eq]
  apply Safe.bind
  apply (ArenaSafe.onFree (Bitmap.unsafeSetN_safe h)).mono
  intro _ g₁ hg₁
  rw [hg₁]
  have hdirty : ArenaSafe a strips free₀ t (if a.initiallyZero then .ret () else
      onBits .dirty (Bitmap.unsafeSetN 0 a.sliceCount)) g₀ fun _ g' => g' = g₀ := by
    split
    · exact Safe.ret rfl
    · exact ArenaSafe.onOther (by decide) _
  split
  · apply Safe.bind
    apply (ArenaSafe.onOther (by decide) _).mono
    intro _ g₂ hg₂
    rw [hg₂]
    exact hdirty
  · exact hdirty

/-! ## Making and adding arenas -/

/-- A thread has made the arena at `j`, and has not registered it. -/
structure SubprocGhost.Making (g : SubprocGhost) (j : ℕ) : Prop where
  phase : g.phase = .outside
  hand : g.hand = some j
  known : ∃ a, g.known = some (j, a)
  taken : g.taken = fun _ => ∅

/-- A thread that has nothing may use the arena `a` at `j`. -/
structure SubprocGhost.Uses (g : SubprocGhost) (j : ℕ) (a : Arena) : Prop extends g.Idle where
  known : g.known = some (j, a)

/-- A call has taken a run of slices from the arena at `j`. -/
structure SubprocGhost.Claims (g : SubprocGhost) (j idx n : ℕ) : Prop where
  phase : g.phase = .outside
  hand : g.hand = none
  known : ∃ a, g.known = some (j, a)
  taken : g.taken = Function.update (fun _ => ∅) j (bitRange idx n)

namespace SubprocSafe

variable {g : SubprocGhost} {j n : ℕ} {a : Arena}

theorem create {sliceCount : ℕ} {commit : Bool} (hg : g.Idle) :
    SubprocSafe strips t (SharedSubproc.create sliceCount commit) g fun r g' =>
      match r with
      | some j => g'.Making j
      | none => g'.Idle := by
  unfold SharedSubproc.create
  simp only [Prog.bind_eq, Prog.pure_eq, Prog.perform_bind]
  split
  · next hpos =>
    apply osAlloc hg.phase hg.hand
    · exact Safe.ret hg
    · intro j start isPinned isZero
      have hempty : g.taken j = ∅ := by rw [hg.taken]
      apply quiet (by trivial)
      intro hot
      cases hot with
      | false =>
        simp only [Bool.false_eq_true, if_false]
        refine osFree hg.phase rfl hempty ?_
        exact Safe.ret ⟨hg.phase, rfl, hg.taken⟩
      | true =>
        apply quiet (by trivial)
        intro desc
        cases desc with
        | false =>
          simp only [Bool.false_eq_true, if_false]
          refine osFree hg.phase rfl hempty ?_
          apply quiet (by trivial)
          intro _
          exact Safe.ret ⟨hg.phase, rfl, hg.taken⟩
        | true =>
          simp only [if_true]
          have htook : Took ∅ (bitRange 0 sliceCount)
              (Function.update g.taken j {i | i < sliceCount} j) := by
            rw [Function.update_self]
            refine ⟨?_, Set.empty_disjoint _⟩
            ext i
            simp [bitRange]
          refine write hg.phase rfl rfl ?_
          apply Safe.bind
          refine (onArena rfl (ArenaSafe.initBitmaps htook)).mono ?_
          rintro _ _ ⟨_, rfl, rfl⟩
          refine Safe.ret ⟨hg.phase, rfl, ⟨_, rfl⟩, ?_⟩
          simp [SubprocGhost.withTaken, hg.taken]
  · exact Safe.ret hg

theorem addArena (hg : g.Making j) :
    SubprocSafe strips t (SharedSubproc.addArena j) g fun r g' =>
      if r then ∃ a, g'.Uses j a else g'.Making j := by
  unfold SharedSubproc.addArena
  simp only [Prog.bind_eq, Prog.pure_eq, Prog.perform_bind]
  obtain ⟨a, hknown⟩ := hg.known
  apply Safe.bind
  apply lock.mono
  rintro _ _ rfl
  apply countLocked rfl
  · intro n hn
    rw [id, if_neg (Nat.not_le_of_lt hn)]
    refine storeArena rfl hg.hand ?_
    refine storeCount rfl hg.hand hknown ?_
    refine unlock (fun hc => by cases hc) ?_
    exact Safe.ret ⟨a, ⟨rfl, rfl, hg.taken⟩, hknown⟩
  · intro n hn
    rw [id, if_pos hn]
    refine unlock (fun hc => by cases hc) ?_
    exact Safe.ret ⟨rfl, hg.hand, hg.known, hg.taken⟩

theorem destroy (hg : g.Making j) :
    SubprocSafe strips t (SharedSubproc.destroy j) g fun _ g' => g'.Idle := by
  unfold SharedSubproc.destroy
  simp only [Prog.bind_eq, Prog.perform_bind]
  apply osFree hg.phase hg.hand (by rw [hg.taken])
  apply quiet (by trivial)
  intro _
  apply quiet (by trivial)
  intro _
  exact Safe.ret ⟨hg.phase, rfl, hg.taken⟩

theorem reserveArena {commit : Bool} (hg : g.Idle) :
    SubprocSafe strips t (SharedSubproc.reserveArena n commit) g fun r g' =>
      match r with
      | some j => ∃ a, g'.Uses j a
      | none => g'.Idle := by
  unfold SharedSubproc.reserveArena
  simp only [Prog.bind_eq, Prog.pure_eq]
  apply Safe.bind
  apply (create hg).mono
  intro r g₁ hg₁
  cases r with
  | none => exact Safe.ret hg₁
  | some j =>
    apply Safe.bind
    apply (addArena hg₁).mono
    intro added g₂ hg₂
    cases added with
    | true => exact Safe.ret hg₂
    | false =>
      apply Safe.bind
      apply (destroy hg₂).mono
      intro _ g₃ hg₃
      exact Safe.ret hg₃

/-! ## Slices -/

/-- `Arena::alloc_slices` of an arena that the thread may use. -/
theorem takeSlices {tseq : ℕ} (hg : g.Uses j a) :
    SubprocSafe strips t ((a.allocSlices n tseq).hoist (.arena j)) g fun r g' =>
      match r with
      | some (idx, _, _) => g'.Claims j idx n
      | none => g'.Uses j a ∧ g'.count = g.count := by
  apply (onArena hg.known ArenaSafe.allocSlices).mono
  rintro r _ ⟨x, hx, rfl⟩
  cases r with
  | none =>
    have hx : x = g.taken j := hx
    rw [hx, SubprocGhost.withTaken, Function.update_eq_self]
    exact ⟨hg, rfl⟩
  | some p =>
    have hx : Took (g.taken j) (bitRange p.1 n) x := hx
    refine ⟨hg.phase, hg.hand, ⟨a, hg.known⟩, ?_⟩
    have htaken : x = bitRange p.1 n := by
      rw [hg.taken] at hx
      exact hx.1.trans (Set.empty_union _)
    rw [SubprocGhost.withTaken, hg.taken, htaken]

theorem tryArena {tseq i k : ℕ} (hg : g.Idle) (hi : i < g.count) :
    SubprocSafe strips t (SharedSubproc.tryArena n tseq i k) g fun r g' =>
      match r with
      | some (j, idx, _, _) => g'.Claims j idx n
      | none => g'.Idle ∧ g'.count = g.count := by
  unfold SharedSubproc.tryArena
  simp only [Prog.bind_eq, Prog.pure_eq, Prog.perform_bind]
  apply loadArena hi
  intro j a
  apply deref rfl
  have huses : SubprocGhost.Uses { g with known := some (j, a) } j a :=
    ⟨⟨hg.phase, hg.hand, hg.taken⟩, rfl⟩
  apply Safe.bind
  apply (takeSlices huses).mono
  intro r g₁ hg₁
  cases r with
  | none => exact Safe.ret ⟨hg₁.1.toIdle, hg₁.2⟩
  | some p =>
    obtain ⟨idx, q, isZero⟩ := p
    simp only
    split
    · apply quiet (by trivial)
      intro _
      exact Safe.ret hg₁
    · exact Safe.ret hg₁

/-- `Subproc::alloc_slices` once the search has found nothing. -/
theorem allocFresh {commit : Bool} {tseq : ℕ} (hg : g.Idle) :
    SubprocSafe strips t (SharedSubproc.allocFresh n commit tseq) g fun r g' =>
      match r with
      | some (j, idx, _, _) => g'.Claims j idx n
      | none => g'.Idle := by
  unfold SharedSubproc.allocFresh
  simp only [Prog.bind_eq, Prog.pure_eq, Prog.perform_bind]
  apply Safe.bind
  apply (reserveArena hg).mono
  intro r g₂ hg₂
  cases r with
  | none => exact Safe.ret hg₂
  | some j =>
    obtain ⟨a, huses⟩ := hg₂
    apply deref huses.known
    apply Safe.bind
    apply (takeSlices huses).mono
    intro r g₃ hg₃
    cases r with
    | none => exact Safe.ret hg₃.1.toIdle
    | some p =>
      apply loadCount
      intro count
      apply quiet (by trivial)
      intro _
      exact Safe.ret ⟨hg₃.phase, hg₃.hand, hg₃.known, hg₃.taken⟩

/-- **`Subproc::alloc_slices`.** -/
theorem allocSlices {commit : Bool} {tseq : ℕ} (hg : g.Idle) :
    SubprocSafe strips t (SharedSubproc.allocSlices n commit tseq) g fun r g' =>
      match r with
      | some (j, idx, _, _) => g'.Claims j idx n
      | none => g'.Idle := by
  unfold SharedSubproc.allocSlices
  simp only [Prog.bind_eq, Prog.pure_eq, Prog.perform_bind]
  apply loadCount
  intro count
  have hidle : SubprocGhost.Idle { g with count } := ⟨hg.phase, hg.hand, hg.taken⟩
  simp only [id]
  split
  · next hpos =>
    apply quiet (by trivial)
    intro cursor
    apply Safe.bind
    apply Safe.firstSome (fun _ g' => g'.Idle ∧ g'.count = count) _ _ ⟨hidle, rfl⟩
    · rintro k l g₁ ⟨hg₁, hcount⟩
      apply (tryArena hg₁ (by rw [hcount]; exact Nat.mod_lt _ hpos)).mono
      intro r g₂ hg₂
      cases r with
      | none => exact ⟨hg₂.1, hg₂.2.trans hcount⟩
      | some p => exact Safe.ret hg₂
    · exact fun _ h => allocFresh h.1
  · exact allocFresh hidle

/-- **`Subproc::try_purge`.** -/
theorem tryPurge {force : Bool} (hg : g.Idle) :
    SubprocSafe strips t (SharedSubproc.tryPurge force) g fun _ g' => g'.Idle := by
  unfold SharedSubproc.tryPurge
  simp only [Prog.bind_eq, Prog.pure_eq, Prog.perform_bind]
  apply loadCount
  intro count
  apply Safe.forEach (fun l g' => g'.Idle ∧ g'.count = count ∧ ∀ i ∈ l, i < count)
  · rintro i l g₁ ⟨hg₁, hcount, hl⟩
    apply loadArena (by rw [hcount]; exact hl i (List.mem_cons_self ..))
    intro j a
    apply deref rfl
    apply Safe.bind
    apply (onArena rfl ArenaSafe.maybePurge).mono
    rintro _ _ ⟨x, rfl, rfl⟩
    rw [SubprocGhost.withTaken, Function.update_eq_self]
    exact Safe.ret ⟨⟨hg₁.phase, hg₁.hand, hg₁.taken⟩, hcount,
      fun i hi => hl i (List.mem_cons_of_mem _ hi)⟩
  · exact fun _ h => h.1
  · exact ⟨⟨hg.phase, hg.hand, hg.taken⟩, rfl, fun i hi => List.mem_range.mp hi⟩

/-- **`Subproc::owns_address`** answers yes for an arena that it has found. -/
theorem ownsAddress {ptr : ℕ} (hg : g.Idle) :
    SubprocSafe strips t (SharedSubproc.ownsAddress ptr) g fun r g' =>
      g'.Idle ∧ (r = true → ∃ j a, g'.known = some (j, a) ∧ (a.sliceIndexOf ptr).isSome) := by
  unfold SharedSubproc.ownsAddress
  simp only [Prog.bind_eq, Prog.pure_eq, Prog.perform_bind]
  apply loadCount
  intro count
  apply Safe.bind
  apply Safe.firstSome fun l g' => g'.Idle ∧ g'.count = count ∧ ∀ i ∈ l, i < count
  · rintro i l g₁ ⟨hg₁, hcount, hl⟩
    apply loadArena (by rw [hcount]; exact hl i (List.mem_cons_self ..))
    intro j a
    refine deref rfl ?_
    have hidle : SubprocGhost.Idle { g₁ with known := some (j, a) } :=
      ⟨hg₁.phase, hg₁.hand, hg₁.taken⟩
    split
    · next hin => exact Safe.ret (Safe.ret ⟨hidle, fun _ => ⟨j, a, rfl, hin⟩⟩)
    · exact Safe.ret ⟨hidle, hcount, fun i hi => hl i (List.mem_cons_of_mem _ hi)⟩
  · exact fun _ h => Safe.ret ⟨h.1, fun hc => by cases hc⟩
  · exact ⟨⟨hg.phase, hg.hand, hg.taken⟩, rfl, fun i hi => List.mem_range.mp hi⟩

/-- **`free_slices`** of a run that the caller gives. -/
theorem freeSlices {idx : ℕ} (hg : g.Claims j idx n) :
    SubprocSafe strips t (SharedSubproc.freeSlices j idx n) g fun _ g' => g'.Idle := by
  unfold SharedSubproc.freeSlices
  simp only [Prog.bind_eq, Prog.perform_bind]
  obtain ⟨a, hknown⟩ := hg.known
  apply deref hknown
  have htook : Took ∅ (bitRange idx n) (g.taken j) := by
    rw [hg.taken, Function.update_self]
    exact ⟨(Set.empty_union _).symm, Set.empty_disjoint _⟩
  apply (onArena hknown (ArenaSafe.freeSlices htook)).mono
  rintro _ _ ⟨x, rfl, rfl⟩
  refine ⟨hg.phase, hg.hand, ?_⟩
  rw [SubprocGhost.withTaken, hg.taken]
  simp

end SubprocSafe

end MimallocRs
