import MimallocRs.Process.Teardown

/-!
# Between operations

`Idle w q` is the invariant of a process in which no operation runs: the structures of the allocator
are sound, only theaps that are in use have pages, and every pointer that has been handed out lies in
a live block of its own. Each lemma says how an operation re-establishes it.
-/

namespace MimallocRs

open Interleave Prog

variable {refuses : Bool} {panics : Prop} {S : Set (PagePtr × Blk)} {A : Set TheapPtr}
  {w w' w'' : Process} {q q' q'' : Queues} {D : Set TheapPtr} {H : Option PagePtr}
  {T : Set (ℕ × ℕ)} {p : PagePtr} {th : TheapPtr} {i b n t hp : ℕ} {m : LivePage} {α β : Type}
  {blk : Blk} {a : Ptr} {x : PagePtr × Blk} {Q : α → Process → Prop}

/-- The theaps that are in use. -/
def Process.InUse (w : Process) : Set TheapPtr := {th | w.HasTheap th.thread th.heap}

/-- What the pointers that have been handed out point at. -/
structure GivenOk (w : Process) : Prop where
  inBlock : ∀ a, w.given a ≠ none → ∃ x, w.InBlock a x
  apart : ∀ a a' x, w.given a ≠ none → w.given a' ≠ none → w.InBlock a x → w.InBlock a' x → a' = a

/-- The heaps that threads have theaps for, and those that can be used. -/
structure HeapsOk (w : Process) : Prop where
  nodup : ∀ t, (w.theaps t).Nodup
  pos : ∀ t, 0 ∉ w.theaps t
  heaps_pos : 0 ∉ w.heaps
  seq_pos : 0 < w.heapSeq

/-- **The invariant between operations.** -/
structure Idle (w : Process) (q : Queues) : Prop where
  sound : Sound w q w.InUse none ∅
  listed : ∀ th b, q th b ≠ [] → th ∈ w.InUse
  given : GivenOk w
  heaps : HeapsOk w

theorem Process.InUse.congr (htheaps : w'.theaps = w.theaps) (hexited : w'.exited = w.exited) :
    w'.InUse = w.InUse := by
  unfold Process.InUse Process.HasTheap
  rw [htheaps, hexited]

theorem Steps.inUse (h : Steps S A w q w' q') : w'.InUse = w.InUse :=
  Process.InUse.congr h.theaps h.exited

/-- The pointers stay in their blocks. -/
theorem GivenOk.keeps (h : GivenOk w) (hsound : Sound w' q' D none ∅)
    (hgiven : ∀ a, w'.given a ≠ none → w.given a ≠ none) (hk : KeepsPage S w w')
    (hS : ∀ a x, w'.given a ≠ none → w.InBlock a x → x ∈ S) : GivenOk w' where
  inBlock a ha := by
    obtain ⟨x, hx⟩ := h.inBlock a (hgiven a ha)
    exact ⟨x, hx.keeps (hS a x ha hx) hk⟩
  apart a a' x ha ha' hx hx' := by
    obtain ⟨y, hy⟩ := h.inBlock a (hgiven a ha)
    obtain ⟨y', hy'⟩ := h.inBlock a' (hgiven a' ha')
    have heq := hsound.inBlock_unique (hy.keeps (hS a y ha hy) hk) hx
    have heq' := hsound.inBlock_unique (hy'.keeps (hS a' y' ha' hy') hk) hx'
    subst heq heq'
    exact h.apart a a' _ (hgiven a ha) (hgiven a' ha') hy hy'

theorem HeapsOk.congr (h : HeapsOk w) (hc : w'.clients = w.clients) : HeapsOk w' := by
  have htheaps : w'.theaps = w.theaps := congrArg (fun c => c.1) hc
  have hheaps : w'.heaps = w.heaps := congrArg (fun c => c.2.2.1) hc
  have hseq : w'.heapSeq = w.heapSeq := congrArg (fun c => c.2.2.2.1) hc
  refine ⟨?_, ?_, ?_, ?_⟩
  · rw [htheaps]
    exact h.nodup
  · rw [htheaps]
    exact h.pos
  · rw [hheaps]
    exact h.heaps_pos
  · rw [hseq]
    exact h.seq_pos

/-- What a function of theaps in use re-establishes. -/
theorem Idle.steps (h : Idle w q) (hsound : Sound w' q' w.InUse none ∅) (hs : Steps S A w q w' q')
    (hA : ∀ th ∈ A, th ∈ w.InUse) (hS : ∀ a x, w.given a ≠ none → w.InBlock a x → x ∈ S) :
    Idle w' q' where
  sound := by rwa [hs.inUse]
  listed th b hne := by
    rw [hs.inUse]
    by_cases hth : th ∈ A
    · exact hA th hth
    · rw [hs.others th hth] at hne
      exact h.listed th b hne
  given := by
    apply h.given.keeps hsound _ hs.toKeepsPage
    · intro a x ha
      rw [hs.given] at ha
      exact hS a x ha
    · intro a ha
      rwa [hs.given] at ha
  heaps := h.heaps.congr hs.clients

theorem Idle.univ (h : Idle w q) (hsound : Sound w' q' w.InUse none ∅)
    (hs : Steps Set.univ A w q w' q') (hA : ∀ th ∈ A, th ∈ w.InUse) : Idle w' q' :=
  h.steps hsound hs hA fun _ _ _ _ => Set.mem_univ _

/-- Pointers are taken back or handed out, each in a block of its own. -/
theorem Idle.withGiven {g : Ptr → Option ℕ} (h : Idle w q) (hin : ∀ a, g a ≠ none → ∃ x, w.InBlock a x)
    (hapart : ∀ a a' x, g a ≠ none → g a' ≠ none → w.InBlock a x → w.InBlock a' x → a' = a) :
    Idle { w with given := g } q := by
  have hk : ∀ {g}, KeepsPage Set.univ w { w with given := g } := KeepsPage.of_rfl rfl rfl rfl fun _ _ h => h
  have hk' : ∀ {g}, KeepsPage Set.univ { w with given := g } w := KeepsPage.of_rfl rfl rfl rfl fun _ _ h => h
  refine ⟨{ h.sound with }, h.listed, ⟨fun a ha => ?_, fun a a' x ha ha' hx hx' => ?_⟩,
    { h.heaps with }⟩
  · obtain ⟨x, hx⟩ := hin a ha
    exact ⟨x, hx.keeps (Set.mem_univ x) hk⟩
  · exact hapart a a' x ha ha' (hx.keeps (Set.mem_univ x) hk') (hx'.keeps (Set.mem_univ x) hk')

/-- The pointer to a block in which no other pointer lies is handed out. -/
theorem Idle.give {heap : ℕ} (h : Idle w q) (hx : w.InBlock a x)
    (hfresh : ∀ a', w.given a' ≠ none → ¬ w.InBlock a' x) :
    Idle { w with given := Function.update w.given a (some heap) } q := by
  have hcases : ∀ {a'}, Function.update w.given a (some heap) a' ≠ none →
      a' = a ∨ w.given a' ≠ none := by
    intro a' ha'
    by_cases heq : a' = a
    · exact Or.inl heq
    · rw [Function.update_of_ne heq] at ha'
      exact Or.inr ha'
  apply h.withGiven
  · intro a' ha'
    rcases hcases ha' with rfl | ha'
    · exact ⟨x, hx⟩
    · exact h.given.inBlock a' ha'
  · intro a₁ a₂ y h₁ h₂ hy₁ hy₂
    rcases hcases h₁ with heq₁ | hold₁
    · subst heq₁
      rcases hcases h₂ with heq₂ | hold₂
      · exact heq₂
      · rw [h.sound.inBlock_unique hx hy₁] at hy₂
        exact (hfresh a₂ hold₂ hy₂).elim
    · rcases hcases h₂ with heq₂ | hold₂
      · subst heq₂
        rw [h.sound.inBlock_unique hx hy₂] at hy₁
        exact (hfresh a₁ hold₁ hy₁).elim
      · exact h.given.apart a₁ a₂ y hold₁ hold₂ hy₁ hy₂

theorem given_of_update_none {g : Ptr → Option ℕ} {a' : Ptr}
    (h : Function.update g a none a' ≠ none) : a' ≠ a ∧ g a' ≠ none := by
  by_cases heq : a' = a
  · rw [heq, Function.update_self] at h
    exact (h rfl).elim
  · rw [Function.update_of_ne heq] at h
    exact ⟨heq, h⟩

/-- Pointers are taken back. -/
theorem Idle.fewer {g : Ptr → Option ℕ} (h : Idle w q) (hg : ∀ a, g a ≠ none → w.given a ≠ none) :
    Idle { w with given := g } q :=
  h.withGiven (fun a ha => h.given.inBlock a (hg a ha))
    fun a₁ a₂ y h₁ h₂ => h.given.apart a₁ a₂ y (hg a₁ h₁) (hg a₂ h₂)

/-- A pointer is taken back. -/
theorem Idle.takeBack (h : Idle w q) : Idle { w with given := Function.update w.given a none } q :=
  h.fewer fun _ ha => (given_of_update_none ha).2

/-- A block that was not live has no pointer in it. -/
theorem Idle.fresh (h : Idle w q) (hsound : Sound w' q' D none ∅) (hk : KeepsPage S w w')
    (hS : ∀ y, w.InBlock a y → y ∈ S) (ha : w.given a ≠ none) (hfresh : ¬ w.Live x) :
    ¬ w'.InBlock a x := by
  intro hx
  obtain ⟨y, hy⟩ := h.given.inBlock a ha
  rw [hsound.inBlock_unique (hy.keeps (hS y hy) hk) hx] at hfresh
  exact hfresh hy.live

/-! ## Theaps -/

/-- A theap that is made on first use has no pages. -/
theorem Idle.newTheap (h : Idle w q) (ht : t ∉ w.exited) (hpos : hp ≠ 0) (hno : hp ∉ w.theaps t) :
    Idle (w.newTheap ⟨t, hp⟩) q ∧ (⟨t, hp⟩ : TheapPtr) ∈ (w.newTheap ⟨t, hp⟩).InUse := by
  have hempty : ∀ b, q ⟨t, hp⟩ b = [] := by
    intro b
    by_contra hne
    rcases (h.listed ⟨t, hp⟩ b hne).2 with hzero | hmem
    · exact hpos hzero
    · exact hno hmem
  have hinUse : ∀ th', th' ∈ (w.newTheap ⟨t, hp⟩).InUse ↔ th' = ⟨t, hp⟩ ∨ th' ∈ w.InUse := by
    rintro ⟨t', hp'⟩
    show t' ∉ w.exited ∧ (hp' = 0 ∨ hp' ∈ Function.update w.theaps t (hp :: w.theaps t) t') ↔
      (⟨t', hp'⟩ : TheapPtr) = ⟨t, hp⟩ ∨ t' ∉ w.exited ∧ (hp' = 0 ∨ hp' ∈ w.theaps t')
    rw [TheapPtr.mk.injEq]
    by_cases htt : t' = t
    · subst htt
      rw [Function.update_self, List.mem_cons]
      tauto
    · rw [Function.update_of_ne htt]
      tauto
  refine ⟨⟨{ h.sound with queues := ?_, direct := ?_ }, ?_, ?_, ⟨?_, ?_, h.heaps.heaps_pos,
    h.heaps.seq_pos⟩⟩, (hinUse _).mpr (Or.inl rfl)⟩
  · intro th b
    show Queue w.next w.prev (Function.update w.first _ (fun _ => none) th b)
      (Function.update w.last _ (fun _ => none) th b)
      (Function.update w.count _ (fun _ => 0) th b) (q th b)
    by_cases hth : th = ⟨t, hp⟩
    · subst hth
      rw [Function.update_self, Function.update_self, Function.update_self, hempty]
      exact ⟨⟨rfl, trivial, List.nodup_nil⟩, rfl, rfl⟩
    · rw [Function.update_of_ne hth, Function.update_of_ne hth, Function.update_of_ne hth]
      exact h.sound.queues th b
  · intro th hth i p hdirect
    have hdirect : Function.update w.pagesFreeDirect ⟨t, hp⟩ (fun _ => none) th i = some p := hdirect
    rcases (hinUse th).mp hth with rfl | hold
    · rw [Function.update_self] at hdirect
      cases hdirect
    · by_cases heq : th = ⟨t, hp⟩
      · rw [heq, Function.update_self] at hdirect
        cases hdirect
      · rw [Function.update_of_ne heq] at hdirect
        exact h.sound.direct th hold i p hdirect
  · exact fun th b hne => (hinUse th).mpr (Or.inr (h.listed th b hne))
  · have hk : KeepsPage Set.univ w (w.newTheap ⟨t, hp⟩) := KeepsPage.of_rfl rfl rfl rfl fun _ _ h => h
    have hk' : KeepsPage Set.univ (w.newTheap ⟨t, hp⟩) w := KeepsPage.of_rfl rfl rfl rfl fun _ _ h => h
    refine ⟨fun a ha => ?_, fun a a' x ha ha' hx hx' => ?_⟩
    · obtain ⟨x, hx⟩ := h.given.inBlock a ha
      exact ⟨x, hx.keeps (Set.mem_univ x) hk⟩
    · exact h.given.apart a a' x ha ha' (hx.keeps (Set.mem_univ x) hk') (hx'.keeps (Set.mem_univ x) hk')
  · intro t'
    show (Function.update w.theaps t (hp :: w.theaps t) t').Nodup
    by_cases htt : t' = t
    · subst htt
      rw [Function.update_self]
      exact List.nodup_cons.mpr ⟨hno, h.heaps.nodup t'⟩
    · rw [Function.update_of_ne htt]
      exact h.heaps.nodup t'
  · intro t'
    show 0 ∉ Function.update w.theaps t (hp :: w.theaps t) t'
    by_cases htt : t' = t
    · subst htt
      rw [Function.update_self, List.mem_cons, not_or]
      exact ⟨hpos.symm, h.heaps.pos t'⟩
    · rw [Function.update_of_ne htt]
      exact h.heaps.pos t'

/-- **`current_theap`** returns a theap that is in use. -/
theorem currentTheap_ends (h : Idle w q) (hu : w.Usable t hp) :
    ProcEnds refuses panics (currentTheap t hp) w fun r w' => Idle w' q ∧
      ∀ th, r = some th → th = ⟨t, hp⟩ ∧ th ∈ w'.InUse := by
  simp only [currentTheap, fetch, store, Prog.bind_eq, Prog.pure_eq, Prog.perform_bind]
  split
  · next hzero =>
    apply Ends.ret
    refine ⟨h, ?_⟩
    rintro _ ⟨⟩
    exact ⟨rfl, hu.1, Or.inl hzero⟩
  · next hpos =>
    apply ProcEnds.fetch
    split
    · next hmem =>
      apply Ends.ret
      refine ⟨h, ?_⟩
      rintro _ ⟨⟩
      exact ⟨rfl, hu.1, Or.inr hmem⟩
    · next hno =>
      refine ProcEnds.asks (fun _ => rfl) (fun _ => ?_) ?_
      · exact Ends.ret ⟨h, fun _ hc => by cases hc⟩
      · obtain ⟨h', hin⟩ := h.newTheap hu.1 hpos hno
        apply ProcEnds.store
        apply Ends.ret
        refine ⟨h', ?_⟩
        rintro _ ⟨⟩
        exact ⟨rfl, hin⟩

end MimallocRs
