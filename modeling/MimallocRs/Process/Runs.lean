import MimallocRs.Process.Idle
import MimallocRs.Foundations.Interleave.Serial

/-!
# Runs of a process

Every operation re-establishes `Idle`, so `Idle` holds in every state that a run reaches with no
operation running (`reachable_idle`). The lemmas follow the operations: those that hand out, take back
and move pointers, those on a theap, and those that take theaps away.
-/

namespace MimallocRs

open Interleave Prog

variable {refuses : Bool} {panics : Prop} {S : Set (PagePtr × Blk)} {D : Set TheapPtr}
  {w w₁ w' w'' : Process} {q q' q'' : Queues} {th : TheapPtr} {t hp size : ℕ} {a : Ptr}
  {x : PagePtr × Blk}

/-! ## Pointers -/

/-- What has been handed out is given to the client. -/
theorem Hands.idle {r : Option Ptr} (hh : Hands w.InUse th size w q r w' q') (h : Idle w q)
    (hth : th ∈ w.InUse) (heap : ℕ) : Idle w' q' ∧ ∀ a, r = some a →
      Idle { w' with given := Function.update w'.given a (some heap) } q' := by
  have hsteps : Steps Set.univ {th} w q w' q' := hh.steps rfl
  have hidle : Idle w' q' := by
    apply h.univ hh.sound hsteps
    intro th' heq
    rwa [Set.mem_singleton_iff.mp heq]
  refine ⟨hidle, fun a ha => ?_⟩
  obtain ⟨x, hfresh, hx, -⟩ := hh.handed a ha
  apply hidle.give hx
  intro a' ha'
  rw [hsteps.given] at ha'
  exact h.fresh hh.sound hsteps.toKeepsPage (fun _ _ => Set.mem_univ _) ha' hfresh

/-- A function of the calling thread's theap for a heap that can be used. -/
theorem withTheap_ends {α : Type} {f : TheapPtr → Prog ProcAct (Option α)}
    {Q : Option α → Process → Prop} (h : Idle w q) (hu : w.Usable t hp)
    (hnone : ∀ {w'}, Idle w' q → Q none w')
    (hsome : ∀ {w'}, Idle w' q → (⟨t, hp⟩ : TheapPtr) ∈ w'.InUse →
      ProcEnds refuses panics (f ⟨t, hp⟩) w' Q) :
    ProcEnds refuses panics (withTheap t hp f) w Q := by
  simp only [withTheap, Prog.bind_eq, Prog.pure_eq]
  apply Ends.bind
  apply (currentTheap_ends h hu).mono
  rintro r w' ⟨h', hr⟩
  cases r with
  | none => exact .ret (hnone h')
  | some th =>
    obtain ⟨rfl, hin⟩ := hr th rfl
    exact hsome h' hin

/-- An allocation from a heap. -/
theorem allocFromHeap_ends {f : TheapPtr → Prog ProcAct (Option Ptr)} (h : Idle w q)
    (hu : w.Usable t hp)
    (hf : ∀ {w}, Sound w q w.InUse none ∅ → (⟨t, hp⟩ : TheapPtr) ∈ w.InUse →
      ProcEnds refuses panics (f ⟨t, hp⟩) w fun r w' => ∃ q',
        Hands w.InUse ⟨t, hp⟩ size w q r w' q') :
    ProcEnds refuses panics (withTheap t hp f) w fun r w' => ∃ q', Idle w' q' ∧ ∀ a, r = some a →
      Idle { w' with given := Function.update w'.given a (some hp) } q' := by
  apply withTheap_ends h hu
  · exact fun h' => ⟨q, h', fun _ hc => (by cases hc)⟩
  · intro w₁ h₁ hin
    apply (hf h₁.sound hin).mono
    rintro r w' ⟨q', hh⟩
    exact ⟨q', hh.idle h₁ hin hp⟩

/-- The theaps that have pages are in use. -/
theorem Idle.owners (h : Idle w q) : ∀ th ∈ Owners t q, th ∈ w.InUse := by
  rintro th ⟨-, b, hne⟩
  exact h.listed th b hne

/-- Pointers other than `a` are not in its block. -/
theorem Idle.notIn (h : Idle w q) (ha : w.given a ≠ none) (hx : w.InBlock a x) {a' : Ptr}
    (ha' : w.given a' ≠ none) (hne : a' ≠ a) {y : PagePtr × Blk} (hy : w.InBlock a' y) :
    y ∈ ({x}ᶜ : Set (PagePtr × Blk)) := by
  rintro rfl
  exact hne (h.given.apart a a' y ha ha' hx hy)

/-- A pointer is given back by its client. -/
theorem freeGiven_ends (h : Idle w q) (ha : w.given a ≠ none) :
    ProcEnds refuses panics (free t a) { w with given := Function.update w.given a none }
      fun _ w' => ∃ q', Idle w' q' := by
  obtain ⟨x, hx⟩ := h.given.inBlock a ha
  have h₁ : Idle { w with given := Function.update w.given a none } q := h.takeBack
  have hx₁ : Process.InBlock { w with given := Function.update w.given a none } a x := { hx with }
  apply (free_ends h₁.sound hx₁).mono
  rintro _ w' ⟨q', h', hsteps, -⟩
  refine ⟨q', h₁.steps h' (hsteps (S := {x}ᶜ) fun hc => hc rfl) h₁.owners ?_⟩
  intro a' y ha' hy
  obtain ⟨heq, hgiven⟩ := given_of_update_none ha'
  exact h.notIn ha hx hgiven heq { hy with }

/-- A pointer is exchanged for another one by its client. -/
theorem Reallocs.idle {r : Option Ptr} (hr : Reallocs w.InUse t size a x w q r w' q') (h : Idle w q)
    (hth : (⟨t, 0⟩ : TheapPtr) ∈ w.InUse) (ha : w.given a ≠ none) (hx : w.InBlock a x) :
    (r = none ∨ r = some a → Idle w' q') ∧ ∀ np, r = some np → np ≠ a →
      Idle { w' with
        given := Function.update (Function.update w'.given a none) np (some 0) } q' := by
  have hA : ∀ th ∈ insert (⟨t, 0⟩ : TheapPtr) (Owners t q), th ∈ w.InUse := by
    intro th hmem
    rcases Set.mem_insert_iff.mp hmem with rfl | hmem
    · exact hth
    · exact h.owners th hmem
  refine ⟨fun hstays => h.univ hr.sound (hr.stays hstays) hA, fun np hnp hne => ?_⟩
  obtain ⟨hsteps, y, hfresh, hy, -⟩ := hr.moves np hnp hne
  have hsteps : Steps {x}ᶜ (insert ⟨t, 0⟩ (Owners t q)) w q w' q' := hsteps fun hc => hc rfl
  -- `a` is taken back before the call and `np` is given after it
  have h₁ : Idle { w with given := Function.update w.given a none } q := h.takeBack
  have hsteps₁ : Steps {x}ᶜ (insert ⟨t, 0⟩ (Owners t q))
      { w with given := Function.update w.given a none } q
      { w' with given := Function.update w'.given a none } q' := by
    refine ⟨{ hsteps.toKeepsPage with }, ?_, hsteps.others⟩
    show ((w'.theaps, Function.update w'.given a none, w'.heaps, w'.heapSeq, w'.exited) :
      (ℕ → List ℕ) × (Ptr → Option ℕ) × Finset ℕ × ℕ × Finset ℕ) =
      (w.theaps, Function.update w.given a none, w.heaps, w.heapSeq, w.exited)
    rw [hsteps.theaps, hsteps.given, hsteps.heaps, hsteps.heapSeq, hsteps.exited]
  have others : ∀ {a'}, Function.update w.given a none a' ≠ none → ∀ z, w.InBlock a' z →
      z ∈ ({x}ᶜ : Set (PagePtr × Blk)) := by
    intro a' ha' z hz
    obtain ⟨heq, hgiven⟩ := given_of_update_none ha'
    exact h.notIn ha hx hgiven heq hz
  have h₁' : Idle { w' with given := Function.update w'.given a none } q' := by
    have hsound : Sound { w' with given := Function.update w'.given a none } q' w.InUse none ∅ :=
      { hr.sound with }
    apply h₁.steps hsound hsteps₁ hA
    intro a' z ha' hz
    exact others ha' z { hz with }
  apply h₁'.give (x := y) { hy with }
  intro a' ha' hy'
  have ha' : Function.update w'.given a none a' ≠ none := ha'
  rw [hsteps.given] at ha'
  exact h.fresh hr.sound hsteps.toKeepsPage (others ha') (given_of_update_none ha').2 hfresh { hy' with }

/-- What the client of a reallocation has afterwards. -/
theorem Reallocs.finish {r : Option Ptr} (hr : Reallocs w.InUse t size a x w q r w' q')
    (h : Idle w q) (hth : (⟨t, 0⟩ : TheapPtr) ∈ w.InUse) (ha : w.given a ≠ none)
    (hx : w.InBlock a x) : Idle (w'.finish (.realloc t a size) r) q' := by
  obtain ⟨hstays, hmoves⟩ := hr.idle h hth ha hx
  cases r with
  | none => exact hstays (Or.inl rfl)
  | some np =>
    by_cases hne : np = a
    · show Idle (if np = a then w' else _) q'
      rw [if_pos hne]
      exact hstays (Or.inr (congrArg some hne))
    · show Idle (if np = a then w' else _) q'
      rw [if_neg hne]
      exact hmoves np rfl hne

/-! ## Theaps that go -/

/-- What the end of theaps of the thread `t` leaves alone. -/
structure Dropped (S : Set (PagePtr × Blk)) (t : ℕ) (w : Process) (q : Queues) (w' : Process)
    (q' : Queues) : Prop where
  keeps : KeepsPage S w w'
  given : ∀ a, w'.given a ≠ none → w.given a ≠ none
  heaps : w'.heaps = w.heaps
  heapSeq : w'.heapSeq = w.heapSeq
  exited : w'.exited = w.exited
  theaps : ∀ t', t' ≠ t → w'.theaps t' = w.theaps t'
  queues : ∀ th b, q' th b = [] ∨ q' th b = q th b
  others : ∀ th, th.thread ≠ t → q' th = q th

theorem Dropped.trans (h : Dropped S t w q w' q') (h' : Dropped S t w' q' w'' q'') :
    Dropped S t w q w'' q'' where
  keeps := h.keeps.trans h'.keeps
  given a ha := h.given a (h'.given a ha)
  heaps := h'.heaps.trans h.heaps
  heapSeq := h'.heapSeq.trans h.heapSeq
  exited := h'.exited.trans h.exited
  theaps t' ht := (h'.theaps t' ht).trans (h.theaps t' ht)
  queues th b := by
    rcases h'.queues th b with hb | hb
    · exact Or.inl hb
    · rw [hb]
      exact h.queues th b
  others th hth := (h'.others th hth).trans (h.others th hth)

theorem Dropped.nil {b : ℕ} (h : Dropped S t w q w' q') (hnil : q th b = []) : q' th b = [] := by
  rcases h.queues th b with hb | hb
  · exact hb
  · rw [hb, hnil]

/-- The theaps of the thread are taken out of its registry. -/
theorem Dropped.take {l : List ℕ} :
    Dropped S t w q { w with theaps := Function.update w.theaps t l } q :=
  ⟨KeepsPage.of_rfl rfl rfl rfl fun _ _ h => h, fun _ h => h, rfl, rfl, rfl,
    fun _ ht => Function.update_of_ne ht .., fun _ _ => Or.inr rfl, fun _ _ => rfl⟩

/-- One theap goes. -/
theorem Steps.dropped (h : Steps S {⟨t, hp⟩} w q w' q') (hnil : ∀ b, q' ⟨t, hp⟩ b = []) :
    Dropped S t w q w' q' := by
  refine ⟨h.toKeepsPage, fun a ha => h.given ▸ ha, h.heaps, h.heapSeq, h.exited,
    fun _ _ => by rw [h.theaps], fun th b => ?_, fun th hth => ?_⟩
  · by_cases heq : th = ⟨t, hp⟩
    · rw [heq, hnil]
      exact Or.inl rfl
    · rw [h.others th heq]
      exact Or.inr rfl
  · apply h.others
    rintro rfl
    exact hth rfl

theorem drop_dropped (h : Sound w q D none ∅) (hth : (⟨t, hp⟩ : TheapPtr) ∉ D) :
    ProcEnds refuses panics (ThreadHeap.drop ⟨t, hp⟩) w fun _ w' => ∃ q', Sound w' q' D none ∅ ∧
      Dropped S t w q w' q' ∧ w'.theaps = w.theaps ∧ ∀ b, q' ⟨t, hp⟩ b = [] := by
  apply (ThreadHeap.drop_ends h hth).mono
  rintro _ w' ⟨q', h', hnil, hsteps⟩
  have hsteps : Steps S {⟨t, hp⟩} w q w' q' := hsteps rfl
  exact ⟨q', h', hsteps.dropped hnil, hsteps.theaps, hnil⟩

/-- The registry of a thread is dropped, with all theaps in it. -/
theorem dropRegistry_ends (h : Sound w q D none ∅) (hD : ∀ th ∈ D, th.thread ≠ t) :
    ProcEnds refuses panics (dropRegistry t) w fun _ w' => ∃ q', Sound w' q' D none ∅ ∧
      Dropped S t w q w' q' ∧ w'.theaps t = [] ∧ ∀ hp ∈ w.theaps t, ∀ b, q' ⟨t, hp⟩ b = [] := by
  simp only [dropRegistry, fetch, store, Prog.bind_eq, Prog.perform_bind]
  apply ProcEnds.fetch
  apply ProcEnds.store
  have h₁ : Sound { w with theaps := Function.update w.theaps t [] } q D none ∅ := { h with }
  have hnil₁ : Function.update w.theaps t [] t = [] := Function.update_self ..
  refine Ends.forEach (fun l w' => ∃ q', Sound w' q' D none ∅ ∧ Dropped S t w q w' q' ∧
    w'.theaps t = [] ∧ ∀ hp ∈ w.theaps t, hp ∉ l → ∀ b, q' ⟨t, hp⟩ b = []) ?_ ?_
    ⟨q, h₁, .take, hnil₁, fun hp hmem hno => (hno hmem).elim⟩
  · rintro hp l w₂ ⟨q₂, h₂, hdropped₂, hnil₂, hdone⟩
    apply (drop_dropped h₂ fun hc => hD _ hc rfl).mono
    rintro _ w₃ ⟨q₃, h₃, hdropped₃, htheaps₃, hnil₃⟩
    refine ⟨q₃, h₃, hdropped₂.trans hdropped₃, htheaps₃ ▸ hnil₂, fun hp' hmem hno b => ?_⟩
    by_cases heq : hp' = hp
    · rw [heq]
      exact hnil₃ b
    · apply hdropped₃.nil
      apply hdone hp' hmem
      intro hc
      exact (List.mem_cons.mp hc).elim heq hno
  · rintro w' ⟨q', h', hdropped, hnil, hdone⟩
    exact ⟨q', h', hdropped, hnil, fun hp hmem => hdone hp hmem (by simp)⟩

/-- Theaps have been dropped that are no longer in use. -/
theorem Idle.dropped {hs e : Finset ℕ} (h : Idle w q) (hsub : hs ⊆ w.heaps)
    (hd : Dropped S t { w with heaps := hs, exited := e } q w' q')
    (hS : ∀ a x, w'.given a ≠ none → w.InBlock a x → x ∈ S) (h' : Sound w' q' w'.InUse none ∅)
    (he : ∀ t', t' ≠ t → t' ∉ w.exited → t' ∉ e)
    (hlisted : ∀ hp b, q' ⟨t, hp⟩ b ≠ [] → (⟨t, hp⟩ : TheapPtr) ∈ w'.InUse)
    (hnodup : (w'.theaps t).Nodup) (hpos : 0 ∉ w'.theaps t) : Idle w' q' where
  sound := h'
  listed := by
    rintro ⟨t', hp⟩ b hne
    by_cases ht : t' = t
    · subst ht
      exact hlisted hp b hne
    · rw [hd.others _ ht] at hne
      obtain ⟨hruns, hmem⟩ := h.listed _ b hne
      refine ⟨?_, ?_⟩
      · rw [hd.exited]
        exact he t' ht hruns
      · rw [hd.theaps t' ht]
        exact hmem
  given := by
    have hk : KeepsPage S w w' := { hd.keeps with }
    exact h.given.keeps h' hd.given hk hS
  heaps := by
    refine ⟨fun t' => ?_, fun t' => ?_, ?_, ?_⟩
    · by_cases ht : t' = t
      · rwa [ht]
      · rw [hd.theaps t' ht]
        exact h.heaps.nodup t'
    · by_cases ht : t' = t
      · rwa [ht]
      · rw [hd.theaps t' ht]
        exact h.heaps.pos t'
    · rw [hd.heaps]
      exact fun hmem => h.heaps.heaps_pos (hsub hmem)
    · rw [hd.heapSeq]
      exact h.heaps.seq_pos

/-- A thread exits. -/
theorem exitThread_ends {registryFirst : Bool} (h : Idle w q) :
    ProcEnds refuses panics (exitThread t registryFirst) { w with exited := insert t w.exited }
      fun _ w' => ∃ q', Idle w' q' := by
  have hthread : ∀ th ∈ Process.InUse { w with exited := insert t w.exited },
      th.thread ≠ t ∧ th ∈ w.InUse := by
    rintro th ⟨hruns, hmem⟩
    have hruns : th.thread ∉ insert t w.exited := hruns
    rw [Finset.mem_insert, not_or] at hruns
    exact ⟨hruns.1, hruns.2, hmem⟩
  have h₁ : Sound { w with exited := insert t w.exited } q
      (Process.InUse { w with exited := insert t w.exited }) none ∅ :=
    { h.sound.subset fun th hth => (hthread th hth).2 with }
  have hnotIn : (⟨t, 0⟩ : TheapPtr) ∉ Process.InUse { w with exited := insert t w.exited } :=
    fun hc => (hthread _ hc).1 rfl
  -- in either order no page is left in a queue of the thread
  have finish : ∀ {w' q'}, Sound w' q' (Process.InUse { w with exited := insert t w.exited })
      none ∅ → Dropped Set.univ t { w with exited := insert t w.exited } q w' q' → w'.theaps t = [] →
      (∀ b, q' ⟨t, 0⟩ b = []) → (∀ hp ∈ w.theaps t, ∀ b, q' ⟨t, hp⟩ b = []) → ∃ q', Idle w' q' := by
    intro w' q' h' hd hnil hzero htheaps
    have hinUse : w'.InUse = Process.InUse { w with exited := insert t w.exited } := by
      ext ⟨t', hp⟩
      show t' ∉ w'.exited ∧ (hp = 0 ∨ hp ∈ w'.theaps t') ↔
        t' ∉ insert t w.exited ∧ (hp = 0 ∨ hp ∈ w.theaps t')
      rw [hd.exited]
      apply and_congr_right
      intro hruns
      have ht : t' ≠ t := fun hc => hruns (hc ▸ Finset.mem_insert_self ..)
      rw [hd.theaps t' ht]
    refine ⟨q', h.dropped (Finset.Subset.refl w.heaps) hd (fun _ _ _ _ => Set.mem_univ _)
      (hinUse ▸ h') ?_ ?_ ?_ ?_⟩
    · intro t' ht hruns
      rw [Finset.mem_insert, not_or]
      exact ⟨ht, hruns⟩
    · intro hp b hne
      have hlisted : q ⟨t, hp⟩ b ≠ [] := by
        intro hc
        exact hne (hd.nil hc)
      rcases (h.listed _ b hlisted).2 with hp0 | hmem
      · have hp0 : hp = 0 := hp0
        rw [hp0, hzero] at hne
        exact (hne rfl).elim
      · rw [htheaps hp hmem] at hne
        exact (hne rfl).elim
    · rw [hnil]
      exact List.nodup_nil
    · rw [hnil]
      exact List.not_mem_nil
  simp only [exitThread, Prog.bind_eq]
  split
  · apply Ends.bind
    apply (dropRegistry_ends h₁ fun th hth => (hthread th hth).1).mono
    rintro _ w₂ ⟨q₂, h₂, hd₂, hnil₂, htheaps₂⟩
    apply (drop_dropped h₂ hnotIn).mono
    rintro _ w₃ ⟨q₃, h₃, hd₃, htheaps₃, hzero₃⟩
    exact finish h₃ (hd₂.trans hd₃) (htheaps₃ ▸ hnil₂) hzero₃
      fun hp hmem b => hd₃.nil (htheaps₂ hp hmem b)
  · apply Ends.bind
    apply (drop_dropped h₁ hnotIn).mono
    rintro _ w₂ ⟨q₂, h₂, hd₂, htheaps₂, hzero₂⟩
    apply (dropRegistry_ends h₂ fun th hth => (hthread th hth).1).mono
    rintro _ w₃ ⟨q₃, h₃, hd₃, hnil₃, htheaps₃⟩
    rw [htheaps₂] at htheaps₃
    exact finish h₃ (hd₂.trans hd₃) hnil₃ (fun b => hd₃.nil (hzero₂ b)) htheaps₃

/-- A heap is taken away from the heaps that can be used. -/
theorem Idle.eraseHeap (h : Idle w q) : Idle { w with heaps := w.heaps.erase hp } q where
  sound := { h.sound with }
  listed := h.listed
  given := { h.given with
    inBlock := fun a ha => by
      obtain ⟨x, hx⟩ := h.given.inBlock a ha
      exact ⟨x, { hx with }⟩
    apart := fun a a' x ha ha' hx hx' => h.given.apart a a' x ha ha' { hx with } { hx' with } }
  heaps := { h.heaps with heaps_pos := fun hmem => h.heaps.heaps_pos (Finset.mem_of_mem_erase hmem) }

/-- The theap that is torn down with its heap is in use no longer. -/
theorem Idle.inUse_take (h : Idle w q) (hpos : hp ≠ 0) :
    th ∈ Process.InUse { w with
      heaps := w.heaps.erase hp, theaps := Function.update w.theaps t ((w.theaps t).erase hp) } ↔
        th ∈ w.InUse ∧ th ≠ ⟨t, hp⟩ := by
  obtain ⟨t', hp'⟩ := th
  show t' ∉ w.exited ∧ (hp' = 0 ∨ hp' ∈ Function.update w.theaps t ((w.theaps t).erase hp) t') ↔
    (t' ∉ w.exited ∧ (hp' = 0 ∨ hp' ∈ w.theaps t')) ∧ (⟨t', hp'⟩ : TheapPtr) ≠ ⟨t, hp⟩
  rw [ne_eq, TheapPtr.mk.injEq]
  by_cases ht : t' = t
  · subst ht
    rw [Function.update_self, (h.heaps.nodup t').mem_erase_iff]
    by_cases hhp : hp' = hp
    · subst hhp
      tauto
    · tauto
  · rw [Function.update_of_ne ht]
    tauto

/-- A heap is deleted or destroyed by `f`, which ends the theap that the thread has for it. -/
theorem withTakenTheap_ends {f : TheapPtr → Prog ProcAct Unit} {g : Process → Ptr → Option ℕ}
    (h : Idle w q) (hmem : hp ∈ w.heaps) (hg : ∀ w a, g w a ≠ none → w.given a ≠ none)
    (hf : ∀ {w₂}, Sound w₂ q w₂.InUse none ∅ → w₂.page = w.page → w₂.pages = w.pages →
      w₂.desc = w.desc → w₂.pageMap = w.pageMap → (⟨t, hp⟩ : TheapPtr) ∉ w₂.InUse →
      ProcEnds refuses panics (f ⟨t, hp⟩) w₂ fun _ w' => ∃ q' S, Sound w' q' w₂.InUse none ∅ ∧
        Steps S {⟨t, hp⟩} w₂ q w' q' ∧ (∀ b, q' ⟨t, hp⟩ b = []) ∧
        ∀ a x, g w' a ≠ none → w.InBlock a x → x ∈ S) :
    ProcEnds refuses panics (withTakenTheap t hp f) { w with heaps := w.heaps.erase hp }
      fun _ w' => ∃ q', Idle { w' with given := g w' } q' := by
  have hpos : hp ≠ 0 := by
    rintro rfl
    exact h.heaps.heaps_pos hmem
  simp only [withTakenTheap, fetch, store, Prog.bind_eq, Prog.pure_eq, Prog.perform_bind]
  apply ProcEnds.fetch
  split
  · next htheap =>
    apply ProcEnds.store
    have h₂ : Sound { w with
        heaps := w.heaps.erase hp, theaps := Function.update w.theaps t ((w.theaps t).erase hp) } q
        (Process.InUse { w with
          heaps := w.heaps.erase hp
          theaps := Function.update w.theaps t ((w.theaps t).erase hp) }) none ∅ :=
      { h.sound.subset fun th hth => ((h.inUse_take hpos).mp hth).1 with }
    apply (hf h₂ rfl rfl rfl rfl fun hc => ((h.inUse_take hpos).mp hc).2 rfl).mono
    rintro _ w' ⟨q', S, h', hsteps, hnil, hS⟩
    have hd : Dropped S t { w with heaps := w.heaps.erase hp } q w' q' :=
      Dropped.trans .take (hsteps.dropped hnil)
    have hd' : Dropped S t { w with heaps := w.heaps.erase hp, exited := w.exited } q
        { w' with given := g w' } q' :=
      { hd with keeps := { hd.keeps with }, given := fun a ha => hd.given a (hg w' a ha) }
    have hinUse := hsteps.inUse
    have htheaps : w'.theaps t = (w.theaps t).erase hp := by
      rw [hsteps.theaps]
      exact Function.update_self ..
    refine ⟨q', h.dropped (Finset.erase_subset ..) hd' hS ?_ (fun _ _ hruns => hruns) ?_ ?_ ?_⟩
    · have hsound : Sound { w' with given := g w' } q' w'.InUse none ∅ := by
        rw [hinUse]
        exact { h' with }
      exact hsound
    · intro hp' b hne
      have hin : (⟨t, hp'⟩ : TheapPtr) ∈ w'.InUse := by
        rw [hinUse]
        apply (h.inUse_take hpos).mpr
        have hne' : (⟨t, hp'⟩ : TheapPtr) ≠ ⟨t, hp⟩ := by
          intro hc
          rw [hc, hnil] at hne
          exact hne rfl
        rw [hsteps.others _ hne'] at hne
        exact ⟨h.listed _ b hne, hne'⟩
      exact hin
    · show (w'.theaps t).Nodup
      rw [htheaps]
      exact (h.heaps.nodup t).erase hp
    · show 0 ∉ w'.theaps t
      rw [htheaps]
      exact fun hc => h.heaps.pos t (List.mem_of_mem_erase hc)
  · apply Ends.ret
    exact ⟨q, h.eraseHeap.fewer (hg _)⟩

/-- **`Heap::delete`**. -/
theorem deleteHeap_ends (h : Idle w q) (hmem : hp ∈ w.heaps) :
    ProcEnds refuses panics (deleteHeap t hp) { w with heaps := w.heaps.erase hp }
      fun _ w' => ∃ q', Idle w' q' := by
  apply withTakenTheap_ends (g := fun w => w.given) h hmem (fun _ _ ha => ha)
  intro w₂ h₂ _ _ _ _ hth
  apply (ThreadHeap.drop_ends h₂ hth).mono
  rintro _ w' ⟨q', h', hnil, hsteps⟩
  exact ⟨q', Set.univ, h', hsteps rfl, hnil, fun _ _ _ _ => Set.mem_univ _⟩

/-- **`Heap::destroy`**. -/
theorem destroyHeap_ends (h : Idle w q) (hmem : hp ∈ w.heaps) :
    ProcEnds refuses panics (destroyHeap t hp) { w with heaps := w.heaps.erase hp }
      fun _ w' => ∃ q', Idle (w'.finish (.destroyHeap t hp) ()) q' := by
  apply withTakenTheap_ends
    (g := fun w a => if w.given a = some hp ∨ w.lookup a = none then none else w.given a) h hmem
  · intro w a ha
    by_cases hc : w.given a = some hp ∨ w.lookup a = none
    · rw [if_pos hc] at ha
      exact (ha rfl).elim
    · rwa [if_neg hc] at ha
  · intro w₂ h₂ hpage hpages hdesc hmap hth
    apply (ThreadHeap.teardownBulk_ends h₂ hth).mono
    rintro _ w' ⟨q', h', hnil, hsteps, hgone⟩
    refine ⟨q', {x | ∀ b, x.1 ∉ q ⟨t, hp⟩ b}, h', hsteps rfl (fun b p hp _ hc => hc b hp), hnil, ?_⟩
    intro a x ha hx b hqueued
    -- the page of `x` has gone, and no other page lies where it was
    have hlookup : w'.lookup a ≠ none := by
      intro hc
      rw [if_pos (Or.inr hc)] at ha
      exact ha rfl
    obtain ⟨p', hp'⟩ := Option.ne_none_iff_exists'.mp hlookup
    obtain ⟨hpages', hslice⟩ := (h'.mapped _ _ _).mp hp'
    have hmapped : w.lookup a = some p' := by
      apply (h.sound.mapped _ _ _).mpr
      rw [← hpages, ← hdesc, ← hgone.desc]
      exact ⟨hgone.pages hpages', hslice⟩
    rw [h.sound.lookup_eq hx] at hmapped
    cases hmapped
    exact hgone.gone b (hnil b) x.1 hqueued hpages'

/-! ## Whole runs -/

/-- Before the first call nothing is in use. -/
theorem Process.Init.idle (h : w.Init) : Idle w fun _ _ => [] := by
  have hno : ∀ i, w.arenas i = none := fun i => by rw [h.arenas]
  have hmap : ∀ i j, w.pageMap i j = none := fun i j => by rw [h.pageMap]
  have hpages : ∀ p, p ∉ w.pages := fun p => by simp [h.pages]
  have hgiven : ∀ a, w.given a = none := fun a => by rw [h.given]
  refine ⟨⟨?_, ?_, ?_, ?_, ?_, ?_, ?_, ?_, ?_, ?_, ?_, ?_, ?_, ?_, ?_, ?_, ?_, ?_, ?_, ?_⟩,
    fun _ _ hne => (hne rfl).elim, ⟨fun a ha => (ha (hgiven a)).elim,
      fun a _ _ ha => (ha (hgiven a)).elim⟩, ⟨?_, ?_, ?_, ?_⟩⟩
  · intro i
    simp [hno, h.arenaCount]
  · intro i a ha
    cases (hno i).symm.trans ha
  · intro i a j ha
    cases (hno i).symm.trans ha
  · exact fun i j _ => hmap i j
  · intro i j p
    simp [hmap, hpages]
  · exact ⟨h.metadata.sound, by simp [h.metadata.live], by simp [h.metadata.live]⟩
  · exact fun p hp => (hpages p hp).elim
  · exact fun p hp => (hpages p hp).elim
  · intro th b
    rw [h.first, h.last, h.count]
    exact ⟨⟨rfl, trivial, List.nodup_nil⟩, rfl, rfl⟩
  · exact fun th b p hp => (by cases hp)
  · exact fun p hp => (by cases hp)
  · exact fun p hp => (hpages p hp).elim
  · exact fun p hp => (hpages p hp).elim
  · rw [h.log]
    trivial
  · intro i hi
    rw [h.abandonedBase] at hi
    cases hi
  · exact fun i _ => by rw [h.pagesAbandoned]
  · intro i a b ha
    cases (hno i).symm.trans ha
  · rintro i b j ⟨hbase, -⟩
    rw [h.abandonedBase] at hbase
    cases hbase
  · exact fun _ p hp => (hpages p hp).elim
  · intro th _ i p hdirect
    rw [h.pagesFreeDirect] at hdirect
    cases hdirect
  · exact fun t => by simp [h.theaps]
  · exact fun t => by simp [h.theaps]
  · simp [h.heaps]
  · simp [h.heapSeq]

/-- Time passes. -/
theorem Idle.pass {msecs : ℕ} (h : Idle w q) : Idle (w.pass msecs) q where
  sound := { h.sound with
    metadata := ⟨{ h.sound.metadata.chunks with }, h.sound.metadata.held, h.sound.metadata.apart⟩ }
  listed := h.listed
  given := { h.given with
    inBlock := fun a ha => by
      obtain ⟨x, hx⟩ := h.given.inBlock a ha
      exact ⟨x, { hx with }⟩
    apart := fun a a' x ha ha' hx hx' => h.given.apart a a' x ha ha' { hx with } { hx' with } }
  heaps := { h.heaps with }

/-- A theap shrinks. -/
theorem Shrinks.idle (hs : Shrinks th w q w' q') (h : Idle w q) (hth : th ∈ w.InUse)
    (h' : Sound w' q' w.InUse none ∅) : Idle w' q' := by
  have hsteps : Steps Set.univ {th} w q w' q' := hs.steps rfl
  apply h.univ h' hsteps
  intro th' heq
  rwa [Set.mem_singleton_iff.mp heq]

/-- `ThreadHeap::try_reclaim`, between operations. -/
theorem Idle.tryReclaim_ends {b : ℕ} (h : Idle w q) (hth : th ∈ w.InUse) :
    ProcEnds refuses panics (ThreadHeap.tryReclaim th b) w fun _ w' => ∃ q', Idle w' q' := by
  apply (ThreadHeap.tryReclaim_ends h.sound).mono
  intro r w' hr
  cases r with
  | none =>
    have hsteps : Steps Set.univ {th} w q w' q := hr.2.1
    exact ⟨q, h.univ hr.1 hsteps fun th' heq => Set.mem_singleton_iff.mp heq ▸ hth⟩
  | some p =>
    have hsteps : Steps Set.univ {th} w q w' (pushTo q th b p) := hr.2.1 rfl
    exact ⟨_, h.univ hr.1 hsteps fun th' heq => Set.mem_singleton_iff.mp heq ▸ hth⟩

/-- `Heap::new_boxed`. -/
theorem newHeap_ends (h : Idle w q) :
    ProcEnds refuses panics newHeap w fun _ w' => ∃ q', Idle w' q' := by
  simp only [newHeap, fetch, store, Prog.bind_eq, Prog.pure_eq, Prog.perform_bind]
  refine ProcEnds.asks (fun _ => rfl) (fun _ => Ends.ret ⟨q, h⟩) ?_
  apply ProcEnds.fetch
  apply ProcEnds.store
  apply Ends.ret
  refine ⟨q, { h.sound with }, h.listed, ?_, ?_⟩
  · refine ⟨fun a ha => ?_, fun a a' x ha ha' hx hx' => ?_⟩
    · obtain ⟨x, hx⟩ := h.given.inBlock a ha
      exact ⟨x, { hx with }⟩
    · exact h.given.apart a a' x ha ha' { hx with } { hx' with }
  · refine ⟨h.heaps.nodup, h.heaps.pos, ?_, Nat.succ_pos _⟩
    rw [Finset.mem_insert, not_or]
    exact ⟨h.heaps.seq_pos.ne, h.heaps.heaps_pos⟩

/-- **The step lemma**: an operation that may be started re-establishes the invariant. -/
theorem Idle.op_ends {o : ProcOp} (h : Idle w q) (hs : w.start o = some w₁) :
    ProcEnds true True o.prog w₁ fun r w' => ∃ q', Idle (w'.finish o r) q' := by
  cases o with
  | alloc t hp size =>
    obtain ⟨⟨hu, hsize⟩, rfl⟩ := Option.ite_some_none_eq_some.mp hs
    apply (allocFromHeap_ends h hu fun h₁ hin => (ThreadHeap.alloc_ends h₁ hin hsize
      (by simp)).mono fun _ _ => Exists.imp fun _ => ThreadHeap.Allocs.hands).mono
    rintro (_ | a) w' ⟨q', h', hr⟩
    · exact ⟨q', h'⟩
    · exact ⟨q', hr a rfl⟩
  | allocZeroed t hp size =>
    obtain ⟨⟨hu, hsize⟩, rfl⟩ := Option.ite_some_none_eq_some.mp hs
    apply (allocFromHeap_ends h hu fun h₁ hin => (ThreadHeap.allocZeroed_ends h₁ hin hsize
      (by simp)).mono fun _ _ => Exists.imp fun _ => ThreadHeap.Allocs.hands).mono
    rintro (_ | a) w' ⟨q', h', hr⟩
    · exact ⟨q', h'⟩
    · exact ⟨q', hr a rfl⟩
  | allocAligned t hp size align =>
    obtain ⟨⟨hu, hsize, halign, -⟩, rfl⟩ := Option.ite_some_none_eq_some.mp hs
    apply (allocFromHeap_ends h hu fun h₁ hin => (ThreadHeap.allocAligned_ends h₁ hin hsize halign
      trivial).mono fun _ _ hh => hh.1).mono
    rintro (_ | a) w' ⟨q', h', hr⟩
    · exact ⟨q', h'⟩
    · exact ⟨q', hr a rfl⟩
  | free t a =>
    obtain ⟨⟨-, hgiven⟩, rfl⟩ := Option.ite_some_none_eq_some.mp hs
    exact freeGiven_ends h (Option.isSome_iff_ne_none.mp hgiven)
  | realloc t a size =>
    obtain ⟨⟨hruns, hgiven, hsize⟩, rfl⟩ := Option.ite_some_none_eq_some.mp hs
    have ha := Option.isSome_iff_ne_none.mp hgiven
    obtain ⟨x, hx⟩ := h.given.inBlock a ha
    have hth : (⟨t, 0⟩ : TheapPtr) ∈ w.InUse := ⟨hruns, Or.inl rfl⟩
    apply (realloc_ends h.sound hx hth hsize trivial).mono
    rintro r w' ⟨q', hr⟩
    exact ⟨q', hr.finish h hth ha hx⟩
  | reallocAligned t a size align =>
    obtain ⟨⟨hruns, hgiven, hsize, halign, -⟩, rfl⟩ := Option.ite_some_none_eq_some.mp hs
    have ha := Option.isSome_iff_ne_none.mp hgiven
    obtain ⟨x, hx⟩ := h.given.inBlock a ha
    have hth : (⟨t, 0⟩ : TheapPtr) ∈ w.InUse := ⟨hruns, Or.inl rfl⟩
    apply (reallocAligned_ends h.sound hx hth hsize halign trivial).mono
    rintro (_ | np) w' ⟨q', hr⟩
    · exact ⟨q', hr.finish h hth ha hx⟩
    · exact ⟨q', hr.finish h hth ha hx⟩
  | collect t hp force =>
    obtain ⟨hu, rfl⟩ := Option.ite_some_none_eq_some.mp hs
    apply Ends.bind
    apply (currentTheap_ends h hu).mono
    rintro r w₂ ⟨h₂, hr⟩
    cases r with
    | none => exact .ret ⟨q, h₂⟩
    | some th =>
      apply (ThreadHeap.collect_ends h₂.sound).mono
      rintro _ w' ⟨q', h', hshrinks, -⟩
      exact ⟨q', hshrinks.idle h₂ (hr th rfl).2 h'⟩
  | collectRetired t hp force =>
    obtain ⟨hin, rfl⟩ := Option.ite_some_none_eq_some.mp hs
    apply (ThreadHeap.collectRetired_ends h.sound).mono
    rintro _ w' ⟨q', h', hshrinks⟩
    exact ⟨q', hshrinks.idle h hin h'⟩
  | reclaim t hp b =>
    obtain ⟨hin, rfl⟩ := Option.ite_some_none_eq_some.mp hs
    have hth : (⟨t, hp⟩ : TheapPtr) ∈ w.InUse := hin
    apply (h.tryReclaim_ends hth).mono
    rintro (_ | p) w' h' <;> exact h'
  | newHeap =>
    cases hs
    apply (newHeap_ends h).mono
    rintro (_ | hp) w' h' <;> exact h'
  | deleteHeap t hp =>
    obtain ⟨⟨-, hmem⟩, rfl⟩ := Option.ite_some_none_eq_some.mp hs
    exact deleteHeap_ends h hmem
  | destroyHeap t hp =>
    obtain ⟨⟨-, hmem⟩, rfl⟩ := Option.ite_some_none_eq_some.mp hs
    exact destroyHeap_ends h hmem
  | exit t registryFirst =>
    obtain ⟨-, rfl⟩ := Option.ite_some_none_eq_some.mp hs
    exact exitThread_ends h
  | pass msecs =>
    cases hs
    exact .ret ⟨q, h.pass⟩

/-- **The run lemma**: with no operation running, the invariant holds. -/
theorem reachable_idle {c : Config ProcAct Unit ProcOp ProcOp.Res Process}
    (h : processSystem.Reachable Process.Init System.anyMove c) (hc : c.Quiescent) :
    ∃ q, Idle c.mem q := by
  have hrun : Serial processSystem (processMachine true) True (fun w => ∃ q, Idle w q)
      (fun o _ r w' => ∃ q', Idle (w'.finish o r) q') c := by
    apply System.Reachable.serial (fun _ _ _ _ _ _ _ _ _ h => h) _ _ _ h
    · exact fun w hw => ⟨_, hw.idle⟩
    · rintro o w w₁ ⟨q, hidle⟩ hstart
      exact hidle.op_ends hstart
    · exact fun o w w₁ r w' _ _ hpost => hpost
  exact hrun.idle (hc ())

/-! ## What is read off a state -/

/-- The pages of a queue, from its first page on. -/
def Process.queue (w : Process) (th : TheapPtr) (b : ℕ) : List PagePtr :=
  walk w.next (w.count th b) (w.first th b)

theorem Sound.queue_eq {H : Option PagePtr} {T : Set (ℕ × ℕ)} (h : Sound w q D H T)
    (th : TheapPtr) (b : ℕ) : w.queue th b = q th b := by
  have hq := h.queues th b
  unfold Process.queue
  rw [hq.count]
  exact walk_eq hq.dlist.forward

/-- A page serves a request for 600000 bytes, the first of the process. -/
theorem exists_huge : ∃ c, processSystem.Reachable Process.Init System.anyMove c ∧ c.Quiescent ∧
    c.mem.HasTheap 0 0 ∧ c.mem.registryRefused = false ∧ c.mem.queue ⟨0, 0⟩ miBinHuge ≠ [] := by
  have hrun : (processSystem.run (Move.call () (.alloc 0 0 600000) 988 4)
      ⟨.blank true, fun _ => none⟩).any (fun c => (c.thread ()).isNone &&
        decide (c.mem.HasTheap 0 0) && !c.mem.registryRefused &&
          !(c.mem.queue ⟨0, 0⟩ miBinHuge).isEmpty) = true := by
    decide +kernel
  obtain ⟨c, hc, htest⟩ := System.exists_run hrun
  simp only [Bool.and_eq_true, Option.isNone_iff_eq_none, decide_eq_true_eq, Bool.not_eq_true',
    List.isEmpty_eq_false_iff] at htest
  obtain ⟨⟨⟨hidle, hth⟩, hrefused⟩, hne⟩ := htest
  have hinit : processSystem.Reachable Process.Init System.anyMove ⟨.blank true, fun _ => none⟩ :=
    .init (Process.blank_init true)
  exact ⟨c, hinit.run hc, fun _ => hidle, hth, hrefused, hne⟩

end MimallocRs
