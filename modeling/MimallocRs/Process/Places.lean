import MimallocRs.Process.Queues

/-!
# The places of pages

Slices are taken from an arena, given to a page and mapped, unmapped again and given back. A page
that is mapped is in hand until it is put in a queue; a page that is released is in hand before. The
registries of abandoned pages are changed for the page in hand only.
-/

namespace MimallocRs

open Interleave Prog

variable {S : Set (PagePtr × Blk)} {A : Set TheapPtr} {w w' : Process} {q q' : Queues}
  {D : Set TheapPtr} {H : Option PagePtr} {T : Set (ℕ × ℕ)} {p : PagePtr} {th : TheapPtr}
  {i b idx n : ℕ} {a : Arena}

namespace Sound

/-! ## Arenas -/

/-- The slices of pages are slices of registered arenas. -/
theorem arena_of_mapped {j : ℕ} (h : Sound w q D H T) (hmap : w.pageMap i j = some p) :
    ∃ a, w.arenas i = some a := by
  obtain ⟨hp, hi, -⟩ := (h.mapped i j p).mp hmap
  have hi : i = (w.desc p).arena := hi
  obtain ⟨⟨a, ha, -⟩, -⟩ := h.placed p hp
  exact ⟨a, by rw [hi, ha]⟩

/-- The free slices of an arena are other ones than before, and so are the slices taken. -/
theorem setArena {m : ArenaMem} {T' : Set (ℕ × ℕ)} (h : Sound w q D H T) (ha : w.arenas i = some a)
    (hfree : ∀ j, j ∈ a.freeBits m ↔ j < a.sliceCount ∧ w.pageMap i j = none ∧ (i, j) ∉ T')
    (hsame : ∀ i' j, i' ≠ i → ((i', j) ∈ T' ↔ (i', j) ∈ T))
    (htaken : ∀ j, (i, j) ∈ T' → w.pageMap i j = none) : Sound (w.setArena i m) q D H T' := by
  refine { h with free_iff := ?_, taken := ?_ }
  · intro i' a' j ha'
    by_cases hi : i' = i
    · subst hi
      cases ha.symm.trans ha'
      rw [w.setArena_arenaMem]
      exact hfree j
    · have hother : (w.setArena i m).arenaMem i' = w.arenaMem i' := Function.update_of_ne hi ..
      rw [hother, hsame i' j hi]
      exact h.free_iff i' a' j ha'
  · intro i' j hj
    by_cases hi : i' = i
    · subst hi
      exact htaken j hj
    · exact h.taken i' j ((hsame i' j hi).mp hj)

/-- An arena changes, but its free slices do not. -/
theorem sameFree {m : ArenaMem} (h : Sound w q D H T) (ha : w.arenas i = some a)
    (hm : a.freeBits m = a.freeBits (w.arenaMem i)) : Sound (w.setArena i m) q D H T := by
  apply h.setArena ha
  · intro j
    rw [hm]
    exact h.free_iff i a j ha
  · exact fun _ _ _ => Iff.rfl
  · exact fun j => h.taken i j

/-- A run of free slices is taken. -/
theorem takeSlices {m : ArenaMem} (h : Sound w q D H ∅) (ha : w.arenas i = some a)
    (hsub : bitRange idx n ⊆ a.freeBits (w.arenaMem i))
    (hm : a.freeBits m = a.freeBits (w.arenaMem i) \ bitRange idx n) :
    Sound (w.setArena i m) q D H (slicesOf i idx n) := by
  apply h.setArena ha
  · intro j
    have hfree := h.free_iff i a j ha
    rw [hm, Set.mem_sdiff, hfree, mem_slicesOf, mem_bitRange]
    simp [and_assoc]
  · intro i' j hi
    simp [mem_slicesOf, hi]
  · rintro j ⟨-, hj⟩
    exact ((h.free_iff i a j ha).mp (hsub (mem_bitRange.mpr hj))).2.1

/-- The slices that have been taken are given back. -/
theorem giveSlices {m : ArenaMem} (h : Sound w q D H (slicesOf i idx n)) (ha : w.arenas i = some a)
    (hle : idx + n ≤ a.sliceCount) (hm : a.freeBits m = a.freeBits (w.arenaMem i) ∪ bitRange idx n) :
    Sound (w.setArena i m) q D H ∅ := by
  apply h.setArena ha
  · intro j
    have hfree := h.free_iff i a j ha
    have htaken := h.taken i j
    rw [mem_slicesOf] at hfree htaken
    rw [hm, Set.mem_union, hfree, mem_bitRange]
    constructor
    · rintro (⟨hj, hnone, -⟩ | hj)
      · exact ⟨hj, hnone, Set.notMem_empty _⟩
      · exact ⟨by omega, htaken ⟨rfl, hj⟩, Set.notMem_empty _⟩
    · rintro ⟨hj, hnone, -⟩
      by_cases hrange : idx ≤ j ∧ j < idx + n
      · exact Or.inr hrange
      · exact Or.inl ⟨hj, hnone, fun hc => hrange hc.2⟩
  · intro i' j hi
    simp [mem_slicesOf, hi]
  · rintro j ⟨⟩

/-- An arena is registered. -/
theorem addArena {m : ArenaMem} {k : MetaMem} (h : Sound w q D H ∅) (hregion : a.Region)
    (hfree : a.freeBits m = bitRange 0 a.sliceCount) (hk : k.Holds k.live)
    (hlive : ∀ r ∈ w.metadata.live, r ∈ k.live) :
    Sound { w with
      metadata := k
      arenas := Function.update w.arenas w.arenaCount (some a)
      arenaMem := Function.update w.arenaMem w.arenaCount m
      arenaCount := w.arenaCount + 1 } q D H ∅ := by
  have hnew : w.arenas w.arenaCount = none := by
    rw [← Option.not_isSome_iff_eq_none, h.arenas]
    exact Nat.lt_irrefl _
  have hold : ∀ {i a'}, w.arenas i = some a' →
      Function.update w.arenas w.arenaCount (some a) i = some a' ∧ i ≠ w.arenaCount := by
    intro i a' ha'
    have hne : i ≠ w.arenaCount := by
      rintro rfl
      cases hnew.symm.trans ha'
    exact ⟨(Function.update_of_ne hne ..).trans ha', hne⟩
  have hunbased : w.abandonedBase w.arenaCount = false := by
    by_contra hne
    have hsome := h.based _ (Bool.eq_true_of_not_eq_false hne)
    rw [hnew] at hsome
    cases hsome
  have hcases : ∀ {i a'}, Function.update w.arenas w.arenaCount (some a) i = some a' →
      i = w.arenaCount ∧ a' = a ∨ i ≠ w.arenaCount ∧ w.arenas i = some a' := by
    intro i a' ha'
    by_cases hi : i = w.arenaCount
    · subst hi
      rw [Function.update_self] at ha'
      cases ha'
      exact Or.inl ⟨rfl, rfl⟩
    · rw [Function.update_of_ne hi] at ha'
      exact Or.inr ⟨hi, ha'⟩
  refine { h with arenas := ?_, region := ?_, free_iff := ?_, metadata := hk, placed := ?_,
                  based := ?_, covered := ?_, registered := ?_, inRegistry := ?_ }
  · intro i
    show (Function.update w.arenas w.arenaCount (some a) i).isSome = true ↔ i < w.arenaCount + 1
    by_cases hi : i = w.arenaCount
    · subst hi
      rw [Function.update_self]
      exact iff_of_true rfl (Nat.lt_succ_self _)
    · rw [Function.update_of_ne hi, h.arenas]
      omega
  · intro i a' ha'
    rcases hcases ha' with ⟨-, rfl⟩ | ⟨-, ha'⟩
    · exact hregion
    · exact h.region i a' ha'
  · intro i a' j ha'
    show j ∈ a'.freeBits (Function.update w.arenaMem w.arenaCount m i) ↔ _
    rcases hcases ha' with ⟨rfl, rfl⟩ | ⟨hi, ha'⟩
    · rw [Function.update_self, hfree, mem_bitRange]
      have hnone : w.pageMap w.arenaCount j = none := by
        by_contra hsome
        obtain ⟨p, hp⟩ := Option.ne_none_iff_exists'.mp hsome
        obtain ⟨a'', ha''⟩ := h.arena_of_mapped hp
        cases hnew.symm.trans ha''
      exact ⟨fun hj => ⟨by omega, hnone, Set.notMem_empty _⟩, fun hj => ⟨by omega, by omega⟩⟩
    · rw [Function.update_of_ne hi]
      exact h.free_iff i a' j ha'
  · intro p hp
    obtain ⟨⟨a', ha', hin⟩, hheader⟩ := h.placed p hp
    exact ⟨⟨a', (hold ha').1, hin⟩, fun hdr hpe => hlive _ (hheader hdr hpe)⟩
  · intro i hi
    show (Function.update w.arenas w.arenaCount (some a) i).isSome = true
    by_cases hne : i = w.arenaCount
    · subst hne
      rw [Function.update_self]
      rfl
    · rw [Function.update_of_ne hne]
      exact h.based i hi
  · intro i a' b ha'
    rcases hcases ha' with ⟨rfl, rfl⟩ | ⟨-, ha'⟩
    · show Covered _ (w.pagesAbandoned _ _)
      rw [h.unbased _ hunbased]
      exact covered_zero
    · exact h.covered i a' b ha'
  · rintro i b j ⟨hbase, a', ha', hbit⟩
    apply h.registered i b j
    rcases hcases ha' with ⟨rfl, -⟩ | ⟨-, ha'⟩
    · cases hunbased.symm.trans hbase
    · exact ⟨hbase, a', ha', hbit⟩
  · intro hrefused p hp hH ho hid
    obtain ⟨hbase, a', ha', hbit⟩ := h.inRegistry hrefused p hp hH ho hid
    exact ⟨hbase, a', (hold ha').1, hbit⟩

/-- The metadata allocator changes, but no header is given back. -/
theorem setMetadata {k : MetaMem} (h : Sound w q D H T) (hk : k.Holds k.live)
    (hlive : ∀ hdr, .header hdr ∈ w.pages → (hdr, Page.sizeOf) ∈ w.metadata.live →
      (hdr, Page.sizeOf) ∈ k.live) : Sound (w.setMetadata k) q D H T := by
  refine { h with metadata := hk, placed := ?_ }
  intro p hp
  obtain ⟨hplace, hheader⟩ := h.placed p hp
  refine ⟨hplace, ?_⟩
  rintro hdr rfl
  exact hlive hdr hp (hheader hdr rfl)

/-! ## New pages -/

/-- The header of a page that is not live is written. -/
theorem initPage {d : PageDesc} {page : Page} (h : Sound w q D H T) (hp : p ∉ w.pages) :
    Sound (w.initPage p d page th) q D H T := by
  have hne : ∀ p' ∈ w.pages, p' ≠ p := fun p' hp' heq => hp (heq ▸ hp')
  have hdesc : ∀ p' ∈ w.pages, (w.initPage p d page th).desc p' = w.desc p' := fun p' hp' =>
    Function.update_of_ne (hne p' hp') ..
  have hpage : ∀ p' ∈ w.pages, (w.initPage p d page th).page p' = w.page p' := fun p' hp' =>
    Function.update_of_ne (hne p' hp') ..
  have htheap : ∀ p' ∈ w.pages, (w.initPage p d page th).theap p' = w.theap p' := fun p' hp' =>
    Function.update_of_ne (hne p' hp') ..
  refine { h with mapped := ?_, placed := ?_, pageOk := ?_, queues := ?_, queued := ?_,
                  owned := ?_, abandoned := ?_, registered := ?_, inRegistry := ?_ }
  · intro i j p'
    rw [show (w.initPage p d page th).pageMap i j = w.pageMap i j from rfl, h.mapped]
    constructor
    · rintro ⟨hp', hs⟩
      exact ⟨hp', by rwa [hdesc p' hp']⟩
    · rintro ⟨hp', hs⟩
      exact ⟨hp', by rwa [hdesc p' hp'] at hs⟩
  · intro p' hp'
    have hplaced := h.placed p' hp'
    unfold Process.Placed at hplaced ⊢
    rwa [hdesc p' hp']
  · intro p' hp'
    rw [hdesc p' hp', hpage p' hp']
    exact h.pageOk p' hp'
  · intro th' b'
    have hcells : ∀ c ∈ q th' b', c ≠ p := fun c hc => hne c (h.queued th' b' c hc).1
    exact (h.queues th' b').congr (fun c hc => Function.update_of_ne (hcells c hc) ..)
      fun c hc => Function.update_of_ne (hcells c hc) ..
  · intro th' b' p' hp'
    obtain ⟨hp'pages, hH, hq⟩ := h.queued th' b' p' hp'
    refine ⟨hp'pages, hH, ?_⟩
    rwa [htheap p' hp'pages, hdesc p' hp'pages, hpage p' hp'pages]
  · intro p' hp' hH ho
    rw [hpage p' hp'] at ho
    rw [htheap p' hp', hdesc p' hp']
    exact h.owned p' hp' hH ho
  · intro p' hp' hH ho
    rw [hpage p' hp'] at ho ⊢
    exact h.abandoned p' hp' hH ho
  · intro i b j hbit
    obtain ⟨p', hp', hi, hb, hj, hor⟩ := h.registered i b j hbit
    refine ⟨p', hp', ?_⟩
    rw [hdesc p' hp', hpage p' hp']
    exact ⟨hi, hb, hj, hor⟩
  · intro hrefused p' hp' hH ho hid
    rw [hpage p' hp'] at ho hid
    have hin := h.inRegistry hrefused p' hp' hH ho hid
    unfold Process.InRegistry at hin ⊢
    rwa [hdesc p' hp']

/-- The blocks of a page that is not live do not matter. -/
theorem setNew {m : LivePage} (h : Sound w q D H T) (hp : p ∉ w.pages) :
    Sound (w.setPage p m) q D H T := by
  have hpage : ∀ p' ∈ w.pages, (w.setPage p m).page p' = w.page p' := by
    intro p' hp'
    apply w.setPage_of_ne
    rintro rfl
    exact hp hp'
  refine { h with pageOk := ?_, queued := ?_, owned := ?_, abandoned := ?_, registered := ?_,
                  inRegistry := ?_ }
  · intro p' hp'
    rw [hpage p' hp']
    exact h.pageOk p' hp'
  · intro th' b' p' hp'
    obtain ⟨hp'pages, hH, hq⟩ := h.queued th' b' p' hp'
    refine ⟨hp'pages, hH, ?_⟩
    rwa [hpage p' hp'pages]
  · intro p' hp' hH ho
    rw [hpage p' hp'] at ho
    exact h.owned p' hp' hH ho
  · intro p' hp' hH ho
    rw [hpage p' hp'] at ho ⊢
    exact h.abandoned p' hp' hH ho
  · intro i b j hbit
    obtain ⟨p', hp', hi, hb, hj, hor⟩ := h.registered i b j hbit
    refine ⟨p', hp', hi, hb, hj, ?_⟩
    rwa [hpage p' hp']
  · intro hrefused p' hp' hH ho hid
    rw [hpage p' hp'] at ho hid
    exact h.inRegistry hrefused p' hp' hH ho hid

/-- No page is registered at slices that have no page. -/
theorem notMem_registry (h : Sound w q D H T) (hpos : 0 < n)
    (hmap : ∀ j, idx ≤ j → j < idx + n → w.pageMap i j = none) : ¬ w.Registered i b idx := by
  intro hbit
  obtain ⟨p, hp, rfl, -, rfl, -⟩ := h.registered i b idx hbit
  have hsome := (h.mapped _ _ p).mpr ⟨hp, h.first_mem hp⟩
  rw [hmap _ le_rfl (by omega)] at hsome
  cases hsome

/-- **The slices that have been taken are mapped to a new page**, which is in hand. -/
theorem mapPage (h : Sound w q D none (slicesOf i idx n)) (hp : p ∉ w.pages)
    (hd : (w.desc p).slices = slicesOf i idx n) (hplaced : w.Placed p)
    (hok : PageOk p (w.desc p) (w.page p)) :
    Sound { w.mapSlices i idx n (some p) with pages := insert p w.pages } q D (some p) ∅ := by
  have hmap := w.mapSlices_pageMap i idx n (some p)
  have hne : ∀ p' ∈ w.pages, p' ≠ p := fun p' hp' heq => hp (heq ▸ hp')
  refine { h with free_iff := ?_, taken := ?_, mapped := ?_, placed := ?_, pageOk := ?_,
                  queued := ?_, held := ?_, owned := ?_, abandoned := ?_, registered := ?_,
                  inRegistry := ?_ }
  · intro i' a j ha
    have hfree := h.free_iff i' a j ha
    show j ∈ a.freeBits (w.arenaMem i') ↔
      j < a.sliceCount ∧ (w.mapSlices i idx n (some p)).pageMap i' j = none ∧ (i', j) ∉ _
    rw [hmap, hfree]
    split
    · next hs => simp [hs]
    · next hs => simp [hs]
  · rintro i' j ⟨⟩
  · intro i' j p'
    show (w.mapSlices i idx n (some p)).pageMap i' j = some p' ↔
      p' ∈ insert p w.pages ∧ (i', j) ∈ (w.desc p').slices
    rw [hmap, Finset.mem_insert]
    split
    · next hs =>
      constructor
      · intro heq
        cases heq
        exact ⟨Or.inl rfl, by rwa [hd]⟩
      · rintro ⟨rfl | hp', hs'⟩
        · rfl
        · have hsome := (h.mapped i' j p').mpr ⟨hp', hs'⟩
          rw [h.taken i' j hs] at hsome
          cases hsome
    · next hs =>
      rw [h.mapped]
      constructor
      · exact fun ⟨hp', hs'⟩ => ⟨Or.inr hp', hs'⟩
      · rintro ⟨rfl | hp', hs'⟩
        · rw [hd] at hs'
          exact (hs hs').elim
        · exact ⟨hp', hs'⟩
  · intro p' hp'
    rcases Finset.mem_insert.mp hp' with rfl | hp'
    · exact hplaced
    · exact h.placed p' hp'
  · intro p' hp'
    rcases Finset.mem_insert.mp hp' with rfl | hp'
    · exact hok
    · exact h.pageOk p' hp'
  · intro th' b' p' hp'
    obtain ⟨hp'pages, -, hq⟩ := h.queued th' b' p' hp'
    exact ⟨Finset.mem_insert_of_mem hp'pages,
      fun heq => hne p' hp'pages (Option.some.inj heq).symm, hq⟩
  · rintro p' ⟨⟩
    exact Finset.mem_insert_self ..
  · intro p' hp' hH ho
    have hp' := (Finset.mem_insert.mp hp').resolve_left fun heq => hH (congrArg some heq.symm)
    exact h.owned p' hp' (by simp) ho
  · intro p' hp' hH ho
    have hp' := (Finset.mem_insert.mp hp').resolve_left fun heq => hH (congrArg some heq.symm)
    exact h.abandoned p' hp' (by simp) ho
  · intro i' b j hbit
    obtain ⟨p', hp', hi, hb, hj, hor⟩ := h.registered i' b j hbit
    exact ⟨p', Finset.mem_insert_of_mem hp', hi, hb, hj, Or.inr (hor.resolve_left (by simp))⟩
  · intro hrefused p' hp' hH ho hid
    have hp' := (Finset.mem_insert.mp hp').resolve_left fun heq => hH (congrArg some heq.symm)
    exact h.inRegistry hrefused p' hp' (by simp) ho hid

/-- **The page in hand is unmapped.** Its slices are taken. -/
theorem unmapPage (h : Sound w q D (some p) ∅) (hreg : ¬ w.InRegistry p) :
    Sound { w.mapSlices (w.desc p).arena (w.desc p).sliceIndex (w.desc p).sliceCount none with
      pages := w.pages.erase p } q D none (w.desc p).slices := by
  have hp := h.held p rfl
  have hmap : ∀ i' j, (w.mapSlices (w.desc p).arena (w.desc p).sliceIndex (w.desc p).sliceCount
      none).pageMap i' j = if (i', j) ∈ (w.desc p).slices then none else w.pageMap i' j :=
    w.mapSlices_pageMap _ _ _ none
  have hold : ∀ p' ∈ w.pages.erase p, p' ∈ w.pages ∧ some p ≠ some p' := fun p' hp' =>
    ⟨Finset.mem_of_mem_erase hp', fun heq => Finset.ne_of_mem_erase hp' (Option.some.inj heq).symm⟩
  refine { h with free_iff := ?_, taken := ?_, mapped := ?_, placed := ?_, pageOk := ?_,
                  queued := ?_, held := ?_, owned := ?_, abandoned := ?_, registered := ?_,
                  inRegistry := ?_ }
  · intro i' a j ha
    have hfree := h.free_iff i' a j ha
    show j ∈ a.freeBits (w.arenaMem i') ↔
      j < a.sliceCount ∧ (w.mapSlices _ _ _ none).pageMap i' j = none ∧ (i', j) ∉ _
    rw [hmap, hfree]
    split
    · next hs =>
      have hsome := (h.mapped i' j p).mpr ⟨hp, hs⟩
      simp [hs, hsome]
    · next hs => simp [hs]
  · intro i' j hs
    show (w.mapSlices _ _ _ none).pageMap i' j = none
    rw [hmap, if_pos hs]
  · intro i' j p'
    show (w.mapSlices _ _ _ none).pageMap i' j = some p' ↔
      p' ∈ w.pages.erase p ∧ (i', j) ∈ (w.desc p').slices
    rw [hmap]
    split
    · next hs =>
      constructor
      · rintro ⟨⟩
      · rintro ⟨hp', hs'⟩
        obtain ⟨hp', hne⟩ := hold p' hp'
        exact (hne (congrArg some (h.eq_of_slices hp hp' hs hs').symm)).elim
    · next hs =>
      rw [h.mapped, Finset.mem_erase]
      constructor
      · rintro ⟨hp', hs'⟩
        refine ⟨⟨?_, hp'⟩, hs'⟩
        rintro rfl
        exact hs hs'
      · exact fun ⟨⟨_, hp'⟩, hs'⟩ => ⟨hp', hs'⟩
  · exact fun p' hp' => h.placed p' (hold p' hp').1
  · exact fun p' hp' => h.pageOk p' (hold p' hp').1
  · intro th' b' p' hp'
    obtain ⟨hp'pages, hH, hq⟩ := h.queued th' b' p' hp'
    exact ⟨Finset.mem_erase.mpr ⟨fun heq => hH (congrArg some heq.symm), hp'pages⟩, by simp, hq⟩
  · rintro p' ⟨⟩
  · exact fun p' hp' _ => h.owned p' (hold p' hp').1 (hold p' hp').2
  · exact fun p' hp' _ => h.abandoned p' (hold p' hp').1 (hold p' hp').2
  · intro i' b j hbit
    obtain ⟨p', hp', hi, hb, hj, hor⟩ := h.registered i' b j hbit
    have hne : p' ≠ p := by
      rintro rfl
      apply hreg
      unfold Process.InRegistry
      rw [hi, hb, hj]
      exact hbit
    refine ⟨p', Finset.mem_erase.mpr ⟨hne, hp'⟩, hi, hb, hj, Or.inr (hor.resolve_left ?_)⟩
    exact fun heq => hne (Option.some.inj heq).symm
  · exact fun hrefused p' hp' _ => h.inRegistry hrefused p' (hold p' hp').1 (hold p' hp').2

end Sound

end MimallocRs
