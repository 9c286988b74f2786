import MimallocRs.Process.Destroyed
import MimallocRs.Foundations.BlockStore

/-!
# The process as a store of blocks

What the allocator is for, without pages, theaps and arenas: a store (`BlockStore`) in which each
pointer that has been handed out has the cells from it on, as many as `usable_size` says. `ProcOp.Spec`
says what each operation does to the store: an allocation gives a new pointer a block of enough cells
that touches no other, or does nothing; a free takes one pointer back; a reallocation keeps its
pointer or exchanges it; `Heap::destroy` takes some pointers back; and collecting, reclaiming, the
end of a thread and the passing of time do nothing. Every run of a process is a run of the store
(`process_refines`).
-/

namespace MimallocRs

open Interleave Prog

variable {refuses : Bool} {panics : Prop} {S : Set (PagePtr × Blk)} {D : Set TheapPtr}
  {H : Option PagePtr} {T : Set (ℕ × ℕ)} {w w₁ w' : Process} {q q' : Queues} {th : TheapPtr}
  {t hp size : ℕ} {a np : Ptr} {x : PagePtr × Blk} {s s' : BlockStore Ptr Ptr} {P : Set Ptr}

/-- The `n` cells from an address on. -/
def span (a : Ptr) (n : ℕ) : Set Ptr := {c | c.arena = a.arena ∧ a.off ≤ c.off ∧ c.off < a.off + n}

theorem span_mono {m n : ℕ} (h : m ≤ n) : span a m ⊆ span a n := by
  rintro c ⟨harena, hle, hlt⟩
  exact ⟨harena, hle, by omega⟩

namespace Process

/-- The block of a pointer that has been handed out. -/
def block (w : Process) (a : Ptr) : Option (Set Ptr) := (w.given a).map fun _ => span a (w.usable a)

/-- The store consists of the blocks that have been handed out. -/
def Stored (w : Process) (s : BlockStore Ptr Ptr) : Prop := s.block = w.block

/-- Pointers that have been handed out, and are not taken back, have the bytes that they had. -/
def KeepsUsable (w w' : Process) : Prop :=
  ∀ a, w.given a ≠ none → w'.given a ≠ none → w'.usable a = w.usable a

theorem block_eq_none (h : w.given a = none) : w.block a = none := by
  unfold block
  rw [h]
  rfl

theorem block_eq_some (h : w.given a ≠ none) : w.block a = some (span a (w.usable a)) := by
  obtain ⟨hp, hgiven⟩ := Option.ne_none_iff_exists'.mp h
  unfold block
  rw [hgiven]
  rfl

/-- A pointer that is kept has the block that it had. -/
theorem KeepsUsable.block_eq (h : w.KeepsUsable w') (hg : w'.given a = w.given a) :
    w'.block a = w.block a := by
  by_cases ha : w.given a = none
  · rw [block_eq_none ha, block_eq_none (hg.trans ha)]
  · have ha' : w'.given a ≠ none := by rwa [hg]
    rw [block_eq_some ha, block_eq_some ha', h a ha ha']

end Process

/-! ## What the operations do to the store -/

/-- A request for `size` bytes has been answered. -/
def ProcOp.Serves (size : ℕ) (s s' : BlockStore Ptr Ptr) : Option Ptr → Prop
  | none => s' = s
  | some a => s.block a = none ∧ ∃ A, span a size ⊆ A ∧ ∃ h, s' = s.give a A h

/-- A request to resize the block of `a` to `size` bytes has been answered. -/
def ProcOp.Resizes (a : Ptr) (size : ℕ) (s s' : BlockStore Ptr Ptr) : Option Ptr → Prop
  | none => s' = s
  | some np =>
    if np = a then s' = s ∧ ∃ A, s.block a = some A ∧ span a size ⊆ A
    else s.block np = none ∧ ∃ A, span np size ⊆ A ∧ ∃ h, s' = (s.without {a}).give np A h

/-- What an operation that returns `r` does to the store. -/
def ProcOp.Spec : (o : ProcOp) → o.Res → BlockStore Ptr Ptr → BlockStore Ptr Ptr → Prop
  | .alloc _ _ size, r, s, s' | .allocAligned _ _ size _, r, s, s'
  | .allocZeroed _ _ size, r, s, s' => ProcOp.Serves size s s' r
  | .free _ a, _, s, s' => s' = s.without {a}
  | .realloc _ a newSize, r, s, s' | .reallocAligned _ a newSize _, r, s, s' =>
    ProcOp.Resizes a newSize s s' r
  | .destroyHeap .., _, s, s' => ∃ P, s' = s.without P
  | _, _, s, s' => s' = s

namespace Process.Stored

/-- Nothing has happened to the pointers. -/
theorem same (hs : w.Stored s) (hs' : w'.Stored s') (hg : w'.given = w.given)
    (hk : w.KeepsUsable w') : s' = s := by
  ext1
  funext a
  rw [hs, hs', hk.block_eq (congrFun hg a)]

/-- A new pointer has been handed out. -/
theorem served (hs : w.Stored s) (hs' : w'.Stored s') (hfresh : w.given a = none)
    (hg : w'.given = Function.update w.given a (some hp)) (hk : w.KeepsUsable w')
    (hsize : size ≤ w'.usable a) : ProcOp.Serves size s s' (some a) := by
  have ha : w'.given a ≠ none := by simp [hg]
  refine ⟨by rw [hs, block_eq_none hfresh], _, span_mono hsize, ?_⟩
  apply BlockStore.eq_give
  · rw [hs', block_eq_some ha]
  · intro b hb
    rw [hs, hs']
    apply hk.block_eq
    rw [hg, Function.update_of_ne hb]

/-- Pointers have been taken back. -/
theorem without (hs : w.Stored s) (hs' : w'.Stored s') (hP : ∀ a ∈ P, w'.given a = none)
    (hothers : ∀ a, a ∉ P → w'.given a = w.given a) (hk : w.KeepsUsable w') :
    s' = s.without P := by
  apply BlockStore.eq_without
  · intro a ha
    rw [hs', block_eq_none (hP a ha)]
  · intro a ha
    rw [hs, hs', hk.block_eq (hothers a ha)]

/-- A pointer has been exchanged for another one. -/
theorem moved (hs : w.Stored s) (hs' : w'.Stored s') (hne : np ≠ a) (hfresh : w.given np = none)
    (hg : w'.given = Function.update (Function.update w.given a none) np (some hp))
    (hk : w.KeepsUsable w') (hsize : size ≤ w'.usable np) : ProcOp.Resizes a size s s' (some np) := by
  have hnp : w'.given np ≠ none := by simp [hg]
  show if np = a then _ else _
  rw [if_neg hne]
  refine ⟨by rw [hs, block_eq_none hfresh], _, span_mono hsize, ?_⟩
  apply BlockStore.eq_give
  · rw [hs', block_eq_some hnp]
  · intro b hb
    by_cases hba : b = a
    · subst hba
      have hnone : w'.given b = none := by rw [hg, Function.update_of_ne hb, Function.update_self]
      rw [hs', block_eq_none hnone, BlockStore.without_of_mem (Set.mem_singleton b)]
    · have hba' : b ∉ ({a} : Set Ptr) := hba
      rw [BlockStore.without_of_notMem hba', hs, hs']
      apply hk.block_eq
      rw [hg, Function.update_of_ne hb, Function.update_of_ne hba]

end Process.Stored

/-! ## What the operations keep -/

/-- The pointers that are not taken back are in blocks that are kept. -/
theorem Idle.keepsUsable {D' : Set TheapPtr} (h : Idle w q) (h' : Sound w' q' D' none ∅)
    (hk : KeepsPage S w w')
    (hS : ∀ a x, w.given a ≠ none → w'.given a ≠ none → w.InBlock a x → x ∈ S) :
    w.KeepsUsable w' := by
  intro a ha ha'
  obtain ⟨x, hx⟩ := h.given.inBlock a ha
  exact hk.usable_eq h.sound h' hx (hS a x ha ha' hx)

theorem Process.KeepsUsable.trans {w'' : Process} (h : w.KeepsUsable w') (h' : w'.KeepsUsable w'')
    (hg : w'.given = w.given) : w.KeepsUsable w'' := by
  intro a ha ha''
  have ha' : w'.given a ≠ none := by rwa [hg]
  rw [h' a ha' ha'', h a ha ha']

/-- A pointer that is handed out had not been handed out before. -/
theorem Idle.given_none (h : Idle w q) (hsound : Sound w' q' D none ∅) (hk : KeepsPage S w w')
    (hS : w.given a ≠ none → ∀ y, w.InBlock a y → y ∈ S) (hx : w'.InBlock a x)
    (hfresh : ¬ w.Live x) : w.given a = none := by
  by_contra ha
  exact h.fresh hsound hk (hS ha) ha hfresh hx

/-- Nothing has happened to the pointers. -/
structure Process.Untouched (w w' : Process) : Prop where
  given : w'.given = w.given
  kept : w.KeepsUsable w'

theorem Idle.untouched {A : Set TheapPtr} (h : Idle w q) (h' : Sound w' q' D none ∅)
    (hs : Steps Set.univ A w q w' q') : w.Untouched w' :=
  ⟨hs.given, h.keepsUsable h' hs.toKeepsPage fun _ _ _ _ _ => Set.mem_univ _⟩

/-- A pointer has been handed out, if one has been returned. -/
structure Process.HandsOut (size : ℕ) (w : Process) (r : Option Ptr) (w' : Process) : Prop where
  untouched : w.Untouched w'
  fresh : ∀ a, r = some a → w.given a = none
  enough : ∀ a, r = some a → size ≤ w'.usable a

theorem Hands.handsOut {r : Option Ptr} (hh : Hands w.InUse th size w q r w' q') (h : Idle w q) :
    w.HandsOut size r w' := by
  have hsteps : Steps Set.univ {th} w q w' q' := hh.steps rfl
  refine ⟨h.untouched hh.sound hsteps, fun a ha => ?_, fun a ha => ?_⟩
  · obtain ⟨x, hfresh, hx, -⟩ := hh.handed a ha
    exact h.given_none hh.sound hsteps.toKeepsPage (fun _ _ _ => Set.mem_univ _) hx hfresh
  · obtain ⟨x, -, hx, hsize⟩ := hh.handed a ha
    rw [hh.sound.usable_eq hx]
    unfold Process.Rest
    omega

theorem currentTheap_untouched (h : Idle w q) :
    ProcEnds refuses panics (currentTheap t hp) w fun _ w' => Idle w' q → w.Untouched w' := by
  have done : ∀ {w'}, KeepsPage Set.univ w w' → w'.given = w.given → Idle w' q →
      w.Untouched w' := fun hk hg h' =>
    ⟨hg, h.keepsUsable h'.sound hk fun _ _ _ _ _ => Set.mem_univ _⟩
  simp only [currentTheap, fetch, store, Prog.bind_eq, Prog.pure_eq, Prog.perform_bind]
  split
  · exact Ends.ret (done .refl rfl)
  · apply ProcEnds.fetch
    split
    · exact Ends.ret (done .refl rfl)
    · refine ProcEnds.asks (fun _ => rfl) (fun _ => Ends.ret (done .refl rfl)) ?_
      apply ProcEnds.store
      apply Ends.ret
      exact done (KeepsPage.of_rfl rfl rfl rfl fun _ _ h => h) rfl

/-- An allocation from a heap. -/
theorem allocFromHeap_handsOut {f : TheapPtr → Prog ProcAct (Option Ptr)} (h : Idle w q)
    (hu : w.Usable t hp)
    (hf : ∀ {w}, Sound w q w.InUse none ∅ → (⟨t, hp⟩ : TheapPtr) ∈ w.InUse →
      ProcEnds refuses panics (f ⟨t, hp⟩) w fun r w' => ∃ q',
        Hands w.InUse ⟨t, hp⟩ size w q r w' q') :
    ProcEnds refuses panics (withTheap t hp f) w (w.HandsOut size) := by
  simp only [withTheap, Prog.bind_eq, Prog.pure_eq]
  apply Ends.bind
  apply ((currentTheap_ends h hu).and (currentTheap_untouched h)).mono
  rintro r w₁ ⟨⟨h₁, hr⟩, huntouched⟩
  have hsame := huntouched h₁
  cases r with
  | none => exact .ret ⟨hsame, fun _ hc => (by cases hc), fun _ hc => (by cases hc)⟩
  | some th =>
    obtain ⟨rfl, hin⟩ := hr th rfl
    apply (hf h₁.sound hin).mono
    rintro r w' ⟨q', hh⟩
    have hout := hh.handsOut h₁
    refine ⟨⟨hout.untouched.given.trans hsame.given, ?_⟩, fun a ha => ?_, hout.enough⟩
    · exact hsame.kept.trans hout.untouched.kept hsame.given
    · rw [← hsame.given]
      exact hout.fresh a ha

/-! ## What each operation does -/

theorem Process.Untouched.trans {w'' : Process} (h : w.Untouched w') (h' : w'.Untouched w'') :
    w.Untouched w'' :=
  ⟨h'.given.trans h.given, h.kept.trans h'.kept h.given⟩

/-- What is noted when an operation returns does not change the bytes of a pointer. -/
theorem Process.Untouched.withGiven (h : w.Untouched w') {g : Ptr → Option ℕ} :
    w.KeepsUsable { w' with given := g } :=
  fun a ha _ => h.kept a ha (by rwa [h.given])

theorem Process.HandsOut.serves {r : Option Ptr} (h : w.HandsOut size r w') (hs : w.Stored s)
    (hnone : r = none → w'.Stored s')
    (hsome : ∀ a, r = some a →
      Process.Stored { w' with given := Function.update w'.given a (some hp) } s') :
    ProcOp.Serves size s s' r := by
  cases r with
  | none => exact hs.same (hnone rfl) h.untouched.given h.untouched.kept
  | some a =>
    apply hs.served (hsome a rfl) (h.fresh a rfl) _ h.untouched.withGiven (h.enough a rfl)
    show Function.update w'.given a (some hp) = _
    rw [h.untouched.given]

/-- A theap is dropped. -/
theorem drop_keeps (h : Sound w q D none ∅) (hth : (⟨t, hp⟩ : TheapPtr) ∉ D) :
    ProcEnds refuses panics (ThreadHeap.drop ⟨t, hp⟩) w fun _ w' => ∃ q', Sound w' q' D none ∅ ∧
      KeepsPage Set.univ w w' ∧ w'.given = w.given := by
  apply (ThreadHeap.drop_ends h hth).mono
  rintro _ w' ⟨q', h', -, hsteps⟩
  have hsteps : Steps Set.univ {⟨t, hp⟩} w q w' q' := hsteps rfl
  exact ⟨q', h', hsteps.toKeepsPage, hsteps.given⟩

/-- The registry of a thread is dropped. -/
theorem dropRegistry_keeps (h : Sound w q D none ∅) (hD : ∀ th ∈ D, th.thread ≠ t) :
    ProcEnds refuses panics (dropRegistry t) w fun _ w' => ∃ q', Sound w' q' D none ∅ ∧
      KeepsPage Set.univ w w' ∧ w'.given = w.given := by
  simp only [dropRegistry, fetch, store, Prog.bind_eq, Prog.perform_bind]
  apply ProcEnds.fetch
  apply ProcEnds.store
  have hk : KeepsPage Set.univ w { w with theaps := Function.update w.theaps t [] } :=
    KeepsPage.of_rfl rfl rfl rfl fun _ _ h => h
  refine Ends.forEach (fun _ w' => ∃ q', Sound w' q' D none ∅ ∧ KeepsPage Set.univ w w' ∧
    w'.given = w.given) ?_ (fun _ h => h) ⟨q, { h with }, hk, rfl⟩
  rintro hp l w₁ ⟨q₁, h₁, hk₁, hg₁⟩
  apply (drop_keeps h₁ fun hc => hD _ hc rfl).mono
  rintro _ w₂ ⟨q₂, h₂, hk₂, hg₂⟩
  exact ⟨q₂, h₂, hk₁.trans hk₂, hg₂.trans hg₁⟩

/-- A thread exits. -/
theorem exitThread_untouched {registryFirst : Bool} (h : Idle w q) :
    ProcEnds refuses panics (exitThread t registryFirst) { w with exited := insert t w.exited }
      fun _ w' => w.Untouched w' := by
  have hthread : ∀ th ∈ Process.InUse { w with exited := insert t w.exited },
      th.thread ≠ t ∧ th ∈ w.InUse := by
    rintro th ⟨hruns, hmem⟩
    have hruns : th.thread ∉ insert t w.exited := hruns
    rw [Finset.mem_insert, not_or] at hruns
    exact ⟨hruns.1, hruns.2, hmem⟩
  have h₁ : Sound { w with exited := insert t w.exited } q
      (Process.InUse { w with exited := insert t w.exited }) none ∅ :=
    { h.sound.subset fun th hth => (hthread th hth).2 with }
  have hnotIn : (⟨t, 0⟩ : TheapPtr) ∉ Process.InUse { w with exited := insert t w.exited } :=
    fun hc => (hthread _ hc).1 rfl
  have finish : ∀ {w' q'}, Sound w' q' (Process.InUse { w with exited := insert t w.exited })
      none ∅ → KeepsPage Set.univ { w with exited := insert t w.exited } w' →
      w'.given = w.given → w.Untouched w' := fun h' hk hg =>
    ⟨hg, h.keepsUsable h' { hk with } fun _ _ _ _ _ => Set.mem_univ _⟩
  simp only [exitThread, Prog.bind_eq]
  split
  · apply Ends.bind
    apply (dropRegistry_keeps h₁ fun th hth => (hthread th hth).1).mono
    rintro _ w₂ ⟨q₂, h₂, hk₂, hg₂⟩
    apply (drop_keeps h₂ hnotIn).mono
    rintro _ w₃ ⟨q₃, h₃, hk₃, hg₃⟩
    exact finish h₃ (hk₂.trans hk₃) (hg₃.trans hg₂)
  · apply Ends.bind
    apply (drop_keeps h₁ hnotIn).mono
    rintro _ w₂ ⟨q₂, h₂, hk₂, hg₂⟩
    apply (dropRegistry_keeps h₂ fun th hth => (hthread th hth).1).mono
    rintro _ w₃ ⟨q₃, h₃, hk₃, hg₃⟩
    exact finish h₃ (hk₂.trans hk₃) (hg₃.trans hg₂)

/-- **`Heap::delete`** leaves the blocks of the heap to their owners. -/
theorem deleteHeap_untouched (h : Idle w q) (hmem : hp ∈ w.heaps) :
    ProcEnds refuses panics (deleteHeap t hp) { w with heaps := w.heaps.erase hp }
      fun _ w' => w.Untouched w' := by
  have hpos : hp ≠ 0 := by
    rintro rfl
    exact h.heaps.heaps_pos hmem
  simp only [deleteHeap, withTakenTheap, fetch, store, Prog.bind_eq, Prog.pure_eq,
    Prog.perform_bind]
  apply ProcEnds.fetch
  split
  · apply ProcEnds.store
    have h₂ : Sound { w with
        heaps := w.heaps.erase hp, theaps := Function.update w.theaps t ((w.theaps t).erase hp) } q
        (Process.InUse { w with
          heaps := w.heaps.erase hp
          theaps := Function.update w.theaps t ((w.theaps t).erase hp) }) none ∅ :=
      { h.sound.subset fun th hth => ((h.inUse_take hpos).mp hth).1 with }
    apply (drop_keeps h₂ fun hc => ((h.inUse_take hpos).mp hc).2 rfl).mono
    rintro _ w' ⟨q', h', hk, hg⟩
    exact ⟨hg, h.keepsUsable h' { hk with } fun _ _ _ _ _ => Set.mem_univ _⟩
  · exact Ends.ret ⟨rfl, fun _ _ _ => rfl⟩

/-- A theap shrinks. -/
theorem Shrinks.untouched (hs : Shrinks th w q w' q') (h : Idle w q)
    (h' : Sound w' q' w.InUse none ∅) : w.Untouched w' := by
  have hsteps : Steps Set.univ {th} w q w' q' := hs.steps rfl
  exact h.untouched h' hsteps

/-- What a free does to the pointers. -/
theorem freeGiven_spec (h : Idle w q) (ha : w.given a ≠ none) (hs : w.Stored s) :
    ProcEnds refuses panics (free t a) { w with given := Function.update w.given a none }
      fun _ w' => ∀ s', w'.Stored s' → s' = s.without {a} := by
  obtain ⟨x, hx⟩ := h.given.inBlock a ha
  have h₁ : Idle { w with given := Function.update w.given a none } q := h.takeBack
  have hx₁ : Process.InBlock { w with given := Function.update w.given a none } a x := { hx with }
  apply (free_ends h₁.sound hx₁).mono
  rintro _ w' ⟨q', h', hsteps, -⟩ s' hs'
  have hsteps : Steps {x}ᶜ (Owners t q) { w with given := Function.update w.given a none } q w' q' :=
    hsteps fun hc => hc rfl
  have hg : w'.given = Function.update w.given a none := hsteps.given
  apply hs.without hs'
  · rintro _ rfl
    rw [hg, Function.update_self]
  · intro b hb
    have hne : b ≠ a := hb
    rw [hg, Function.update_of_ne hne]
  · apply h.keepsUsable h' { hsteps.toKeepsPage with }
    intro b y _ hb hy
    rw [hg] at hb
    obtain ⟨hne, hgiven⟩ := given_of_update_none hb
    exact h.notIn ha hx hgiven hne hy

/-- What a reallocation does to the pointers. -/
theorem Reallocs.spec {r : Option Ptr} (hr : Reallocs w.InUse t size a x w q r w' q') (h : Idle w q)
    (ha : w.given a ≠ none) (hx : w.InBlock a x) (hs : w.Stored s)
    (hs' : (w'.finish (.realloc t a size) r).Stored s') : ProcOp.Resizes a size s s' r := by
  have stays : r = none ∨ r = some a → w.Untouched w' := by
    intro hstays
    have hsteps : Steps Set.univ (insert ⟨t, 0⟩ (Owners t q)) w q w' q' := hr.stays hstays
    exact h.untouched hr.sound hsteps
  cases r with
  | none =>
    have hsame := stays (Or.inl rfl)
    exact hs.same hs' hsame.given hsame.kept
  | some np =>
    have hs' : Process.Stored (if np = a then w' else { w' with
      given := Function.update (Function.update w'.given a none) np (some 0) }) s' := hs'
    by_cases hne : np = a
    · subst hne
      rw [if_pos rfl] at hs'
      have hsame := stays (Or.inr rfl)
      have hsteps : Steps Set.univ (insert ⟨t, 0⟩ (Owners t q)) w q w' q' := hr.stays (Or.inr rfl)
      show if np = np then _ else _
      rw [if_pos rfl]
      refine ⟨hs.same hs' hsame.given hsame.kept, _, ?_, span_mono (hr.fits rfl)⟩
      rw [hs, Process.block_eq_some ha, ← hsteps.toKeepsPage.usable_eq h.sound hr.sound hx
        (Set.mem_univ x), hr.sound.usable_eq (hx.keeps (Set.mem_univ x) hsteps.toKeepsPage)]
    · rw [if_neg hne] at hs'
      obtain ⟨hsteps, y, hfresh, hy, hsize⟩ := hr.moves np rfl hne
      have hsteps : Steps {x}ᶜ (insert ⟨t, 0⟩ (Owners t q)) w q w' q' := hsteps fun hc => hc rfl
      have others : ∀ {b}, w.given b ≠ none → b ≠ a → ∀ z, w.InBlock b z →
          z ∈ ({x}ᶜ : Set (PagePtr × Blk)) := fun hb hba _ hz => h.notIn ha hx hb hba hz
      have hnp : w.given np = none := by
        apply h.given_none hr.sound hsteps.toKeepsPage _ hy hfresh
        exact fun hgiven => others hgiven hne
      apply hs.moved hs' hne hnp
      · show Function.update (Function.update w'.given a none) np (some 0) = _
        rw [hsteps.given]
      · have hsound : Sound { w' with
            given := Function.update (Function.update w'.given a none) np (some 0) } q' w.InUse
            none ∅ := { hr.sound with }
        apply h.keepsUsable hsound { hsteps.toKeepsPage with }
        intro b z hgiven hb hz
        have hb : Function.update (Function.update w'.given a none) np (some 0) b ≠ none := hb
        have hba : b ≠ a := by
          rintro rfl
          rw [Function.update_of_ne (Ne.symm hne), Function.update_self] at hb
          exact hb rfl
        exact others hgiven hba z hz
      · show size ≤ w'.usable np
        rw [hr.sound.usable_eq hy]
        exact hsize

/-- What the end of a heap does to the pointers. -/
theorem Process.Destroyed.spec (hd : w.Destroyed ⟨t, hp⟩ w') (h : Idle w q) (hs : w.Stored s)
    (hs' : (w'.finish (.destroyHeap t hp) ()).Stored s') : ∃ P, s' = s.without P := by
  refine ⟨{a | (w'.finish (.destroyHeap t hp) ()).given a = none},
    hs.without hs' (fun _ ha => ha) ?_ ?_⟩
  · intro a ha
    have ha : ¬ (if w'.given a = some hp ∨ w'.lookup a = none then none else w'.given a) = none := ha
    show (if w'.given a = some hp ∨ w'.lookup a = none then none else w'.given a) = w.given a
    by_cases hgone : w'.given a = some hp ∨ w'.lookup a = none
    · rw [if_pos hgone] at ha
      exact (ha rfl).elim
    · rw [if_neg hgone, hd.given]
  · intro a ha ha'
    have ha' : (if w'.given a = some hp ∨ w'.lookup a = none then none else w'.given a) ≠ none := ha'
    have hlookup : w'.lookup a ≠ none := by
      intro hnone
      rw [if_pos (Or.inr hnone)] at ha'
      exact ha' rfl
    obtain ⟨x, hx⟩ := h.given.inBlock a ha
    refine (hd.kept a x hx fun b hb => hlookup ?_).2.2
    -- the slice of `a` has been released with its page
    have hslice := ((h.sound.mapped _ _ _).mp (h.sound.lookup_eq hx)).2
    exact (hd.released b x.1 hb _ hslice).1

/-- **The step lemma**: an operation does to the store what its specification says. -/
theorem Idle.op_spec {o : ProcOp} (h : Idle w q) (hstart : w.start o = some w₁)
    (hs : w.Stored s) :
    ProcEnds true True o.prog w₁ fun r w' => ∀ s', (w'.finish o r).Stored s' → o.Spec r s s' := by
  have untouched : ∀ {w' s'}, w.Untouched w' → w'.Stored s' → s' = s := fun hu hs' =>
    hs.same hs' hu.given hu.kept
  cases o with
  | alloc t hp size =>
    obtain ⟨⟨hu, hsize⟩, rfl⟩ := Option.ite_some_none_eq_some.mp hstart
    apply (allocFromHeap_handsOut h hu fun h₁ hin => (ThreadHeap.alloc_ends h₁ hin hsize
      (by simp)).mono fun _ _ => Exists.imp fun _ => ThreadHeap.Allocs.hands).mono
    rintro (_ | a) w' hr s' hs'
    · exact untouched hr.untouched hs'
    · exact hr.serves hs (fun hc => by cases hc) fun _ ha => by cases ha; exact hs'
  | allocZeroed t hp size =>
    obtain ⟨⟨hu, hsize⟩, rfl⟩ := Option.ite_some_none_eq_some.mp hstart
    apply (allocFromHeap_handsOut h hu fun h₁ hin => (ThreadHeap.allocZeroed_ends h₁ hin hsize
      (by simp)).mono fun _ _ => Exists.imp fun _ => ThreadHeap.Allocs.hands).mono
    rintro (_ | a) w' hr s' hs'
    · exact untouched hr.untouched hs'
    · exact hr.serves hs (fun hc => by cases hc) fun _ ha => by cases ha; exact hs'
  | allocAligned t hp size align =>
    obtain ⟨⟨hu, hsize, halign, -⟩, rfl⟩ := Option.ite_some_none_eq_some.mp hstart
    apply (allocFromHeap_handsOut h hu fun h₁ hin => (ThreadHeap.allocAligned_ends h₁ hin hsize
      halign trivial).mono fun _ _ hh => hh.1).mono
    rintro (_ | a) w' hr s' hs'
    · exact untouched hr.untouched hs'
    · exact hr.serves hs (fun hc => by cases hc) fun _ ha => by cases ha; exact hs'
  | free t a =>
    obtain ⟨⟨-, hgiven⟩, rfl⟩ := Option.ite_some_none_eq_some.mp hstart
    exact freeGiven_spec h (Option.isSome_iff_ne_none.mp hgiven) hs
  | realloc t a size =>
    obtain ⟨⟨hruns, hgiven, hsize⟩, rfl⟩ := Option.ite_some_none_eq_some.mp hstart
    have ha := Option.isSome_iff_ne_none.mp hgiven
    obtain ⟨x, hx⟩ := h.given.inBlock a ha
    apply (realloc_ends h.sound hx ⟨hruns, Or.inl rfl⟩ hsize trivial).mono
    rintro r w' ⟨q', hr⟩ s' hs'
    exact hr.spec h ha hx hs hs'
  | reallocAligned t a size align =>
    obtain ⟨⟨hruns, hgiven, hsize, halign, -⟩, rfl⟩ := Option.ite_some_none_eq_some.mp hstart
    have ha := Option.isSome_iff_ne_none.mp hgiven
    obtain ⟨x, hx⟩ := h.given.inBlock a ha
    apply (reallocAligned_ends h.sound hx ⟨hruns, Or.inl rfl⟩ hsize halign trivial).mono
    rintro (_ | np) w' ⟨q', hr⟩ s' hs'
    · exact hr.spec h ha hx hs hs'
    · exact hr.spec h ha hx hs hs'
  | collect t hp force =>
    obtain ⟨hu, rfl⟩ := Option.ite_some_none_eq_some.mp hstart
    apply Ends.bind
    apply ((currentTheap_ends h hu).and (currentTheap_untouched h)).mono
    rintro r w₂ ⟨⟨h₂, hr⟩, huntouched⟩
    cases r with
    | none => exact .ret fun s' => untouched (huntouched h₂)
    | some th =>
      apply (ThreadHeap.collect_ends h₂.sound).mono
      rintro _ w' ⟨q', h', hshrinks, -⟩ s'
      exact untouched ((huntouched h₂).trans (hshrinks.untouched h₂ h'))
  | collectRetired t hp force =>
    obtain ⟨hin, rfl⟩ := Option.ite_some_none_eq_some.mp hstart
    apply (ThreadHeap.collectRetired_ends h.sound).mono
    rintro _ w' ⟨q', h', hshrinks⟩ s'
    exact untouched (hshrinks.untouched h h')
  | reclaim t hp b =>
    obtain ⟨hin, rfl⟩ := Option.ite_some_none_eq_some.mp hstart
    apply (ThreadHeap.tryReclaim_ends h.sound).mono
    rintro (_ | p) w' hr s'
    · have hsteps : Steps Set.univ {⟨t, hp⟩} w q w' q := hr.2.1
      exact untouched (h.untouched hr.1 hsteps)
    · have hsteps : Steps Set.univ {⟨t, hp⟩} w q w' (pushTo q ⟨t, hp⟩ b p) := hr.2.1 rfl
      exact untouched (h.untouched hr.1 hsteps)
  | newHeap =>
    cases hstart
    simp only [ProcOp.prog, newHeap, fetch, store, Prog.bind_eq, Prog.pure_eq, Prog.perform_bind]
    refine ProcEnds.asks (fun _ => rfl) (fun _ => Ends.ret fun s' => untouched ⟨rfl, fun _ _ _ => rfl⟩) ?_
    apply ProcEnds.fetch
    apply ProcEnds.store
    exact Ends.ret fun s' => untouched ⟨rfl, fun _ _ _ => rfl⟩
  | deleteHeap t hp =>
    obtain ⟨⟨-, hmem⟩, rfl⟩ := Option.ite_some_none_eq_some.mp hstart
    exact (deleteHeap_untouched h hmem).mono fun _ _ hu s' => untouched hu
  | destroyHeap t hp =>
    obtain ⟨⟨-, hmem⟩, rfl⟩ := Option.ite_some_none_eq_some.mp hstart
    exact (destroyHeap_destroyed h hmem).mono fun _ _ hd s' hs' => hd.spec h hs hs'
  | exit t registryFirst =>
    obtain ⟨-, rfl⟩ := Option.ite_some_none_eq_some.mp hstart
    exact (exitThread_untouched h).mono fun _ _ hu s' => untouched hu
  | pass msecs =>
    cases hstart
    exact .ret fun s' => untouched ⟨rfl, fun _ _ _ => rfl⟩

/-! ## Runs -/

/-- A pointer that has been handed out stands for cells of its own. -/
theorem Idle.block_apart {b : Ptr} {A B : Set Ptr} (h : Idle w q) (ha : w.block a = some A)
    (hb : w.block b = some B) (hne : a ≠ b) : Disjoint A B := by
  have given : ∀ {a A}, w.block a = some A → w.given a ≠ none ∧ A = span a (w.usable a) := by
    intro a A ha
    have hgiven : w.given a ≠ none := by
      intro hnone
      rw [Process.block_eq_none hnone] at ha
      cases ha
    rw [Process.block_eq_some hgiven] at ha
    exact ⟨hgiven, (Option.some.inj ha).symm⟩
  obtain ⟨hga, rfl⟩ := given ha
  obtain ⟨hgb, rfl⟩ := given hb
  obtain ⟨x, hx⟩ := h.given.inBlock a hga
  obtain ⟨y, hy⟩ := h.given.inBlock b hgb
  have hxy : x ≠ y := by
    rintro rfl
    exact hne (h.given.apart b a x hgb hga hy hx)
  -- the cells of a pointer are cells of its block
  have inBlock : ∀ {a x c}, w.InBlock a x → c ∈ span a (w.usable a) →
      c.arena = (w.desc x.1).arena ∧ c.off ∈ w.blockRange x := by
    rintro a x c hx ⟨harena, hle, hlt⟩
    have hstart := hx.le
    rw [h.sound.usable_eq hx] at hlt
    unfold Process.Rest at hlt
    exact ⟨harena.trans hx.arena, by omega, by omega⟩
  rw [Set.disjoint_left]
  intro c hca hcb
  obtain ⟨harena, hoff⟩ := inBlock hx hca
  obtain ⟨harena', hoff'⟩ := inBlock hy hcb
  exact Set.disjoint_left.mp
    (h.sound.blockRange_disjoint hx.live hy.live hxy (harena.symm.trans harena')) hoff hoff'

/-- The store of a process between operations. -/
def Idle.store (h : Idle w q) : BlockStore Ptr Ptr where
  block := w.block
  apart := h.block_apart

/-- The stores that operations lead to from the empty one. -/
inductive ProcOp.Leads : BlockStore Ptr Ptr → Prop
  | empty : Leads .empty
  | op {o : ProcOp} {r : o.Res} {s s' : BlockStore Ptr Ptr} (h : Leads s) (ho : o.Spec r s s') :
    Leads s'

/-- **A process is a store of blocks.** In every state that a run reaches, the pointers that have
been handed out stand for the blocks of a store that the specification leads to, and each operation
that may be started there does to it what its specification says. -/
theorem process_refines {c : Config ProcAct Unit ProcOp ProcOp.Res Process}
    (h : processSystem.Reachable Process.Init System.anyMove c) (hc : c.Quiescent) :
    ∃ s, c.mem.Stored s ∧ ProcOp.Leads s ∧ ∀ o w, c.mem.start o = some w →
      ProcEnds true True o.prog w fun r w' =>
        ∃ s', (w'.finish o r).Stored s' ∧ o.Spec r s s' := by
  have hrun : Serial processSystem (processMachine true) True
      (fun w => ∃ q, Idle w q ∧ ∃ s, w.Stored s ∧ ProcOp.Leads s)
      (fun o w r w' => ∃ q', Idle (w'.finish o r) q' ∧
        ∃ s, (w'.finish o r).Stored s ∧ ProcOp.Leads s) c := by
    apply System.Reachable.serial (fun _ _ _ _ _ _ _ _ _ h => h) _ _ _ h
    · refine fun w hw => ⟨_, hw.idle, .empty, ?_, .empty⟩
      funext a
      exact (Process.block_eq_none (by rw [hw.given])).symm
    · rintro o w w₁ ⟨q, hidle, s, hs, hleads⟩ hstart
      apply ((hidle.op_ends hstart).and (hidle.op_spec hstart hs)).mono
      rintro r w' ⟨⟨q', hidle'⟩, hspec⟩
      exact ⟨q', hidle', hidle'.store, rfl, hleads.op (hspec _ rfl)⟩
    · exact fun o w w₁ r w' _ _ hpost => hpost
  obtain ⟨q, hidle, s, hs, hleads⟩ := hrun.idle (hc ())
  refine ⟨s, hs, hleads, fun o w hstart => ?_⟩
  apply ((hidle.op_ends hstart).and (hidle.op_spec hstart hs)).mono
  rintro r w' ⟨⟨q', hidle'⟩, hspec⟩
  exact ⟨hidle'.store, rfl, hspec _ rfl⟩

/-- After the first request of a process the store has a block. -/
theorem process_refines_first : ∃ s, ProcOp.Leads s ∧ ∃ a, s.block a ≠ none := by
  have hcalls : (processSystem.runCalls 4 1000 [((), .alloc 0 0 600000)] (.blank true)).any
      (fun w => (w.given ⟨0, 0⟩).isSome) = true := by
    decide +kernel
  obtain ⟨w, hw, htest⟩ := System.exists_runCalls hcalls
  have hreach : processSystem.Reachable Process.Init System.anyMove ⟨w, fun _ => none⟩ :=
    System.Reachable.runCalls (.init (Process.blank_init true)) hw
  obtain ⟨s, hs, hleads, -⟩ := process_refines hreach fun _ => rfl
  refine ⟨s, hleads, ⟨0, 0⟩, ?_⟩
  rw [hs, Process.block_eq_some (Option.isSome_iff_ne_none.mp htest)]
  exact Option.some_ne_none _

end MimallocRs
