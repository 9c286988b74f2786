import MimallocRs.Process.Sweep

/-!
# Functions that hand out nothing

`w.Fewer w'` says that no page and no live block has been added and that no page has moved. It holds of
what a function does whose events hand out no block (`Fewer.of_every`): freeing and tidying up after
a free.
-/

namespace MimallocRs

open Interleave Prog

variable {refuses : Bool} {panics : Prop} {w w' w'' : Process} {p : PagePtr} {blk : Blk} {α : Type}
  {Q : α → Process → Prop}

/-- An event that hands out no block. -/
def PageAct.Loses {β : Type} : PageAct β → Prop
  | .pop _ => False
  | _ => True

namespace Process

/-- Nothing has been added and no page has moved. -/
structure Fewer (w w' : Process) : Prop where
  pages : w'.pages ⊆ w.pages
  desc : w'.desc = w.desc
  live : ∀ p, (w'.page p).live ⊆ (w.page p).live

theorem Fewer.refl : w.Fewer w := ⟨subset_rfl, rfl, fun _ => subset_rfl⟩

theorem Fewer.trans (h : w.Fewer w') (h' : w'.Fewer w'') : w.Fewer w'' :=
  ⟨h'.pages.trans h.pages, h'.desc.trans h.desc, fun p => (h'.live p).trans (h.live p)⟩

theorem Fewer.of_rfl (hpages : w'.pages = w.pages) (hdesc : w'.desc = w.desc)
    (hpage : w'.page = w.page) : w.Fewer w' :=
  ⟨hpages ▸ subset_rfl, hdesc, fun _ => hpage ▸ subset_rfl⟩

/-- The block `x` has been freed. -/
structure Frees (x : PagePtr × Blk) (w w' : Process) : Prop extends w.Fewer w' where
  freed : x.2 ∉ (w'.page x.1).live

theorem Frees.trans {x : PagePtr × Blk} (h : Frees x w w') (h' : w'.Fewer w'') : Frees x w w'' :=
  ⟨h.toFewer.trans h', fun hmem => h.freed (h'.live x.1 hmem)⟩

/-- A page has changed. -/
theorem Fewer.setPage {m : LivePage} (h : m.live ⊆ (w.page p).live) : w.Fewer (w.setPage p m) := by
  refine ⟨subset_rfl, rfl, fun p' => ?_⟩
  by_cases heq : p' = p
  · rwa [heq, w.setPage_page]
  · rw [w.setPage_of_ne m heq]

theorem Frees.setPage {m : LivePage} (h : m.live = (w.page p).live.erase blk) :
    Frees (p, blk) w (w.setPage p m) := by
  have hsub : m.live ⊆ (w.page p).live := by
    rw [h]
    exact Finset.erase_subset ..
  refine ⟨.setPage hsub, ?_⟩
  show blk ∉ ((w.setPage p m).page p).live
  rw [w.setPage_page, h]
  exact Finset.notMem_erase _ _

end Process

open Process

/-- A theap that shrinks hands out nothing. -/
theorem Shrinks.fewer {th : TheapPtr} {q q' : Queues} (h : Shrinks th w q w' q') : w.Fewer w' :=
  ⟨h.pages, h.desc, fun p => (h.live p).le⟩

theorem LivePage.exec_live {β : Type} {e : PageAct β} (he : e.Loses) {m m' : LivePage} {r : β}
    (h : m.exec e = some (r, m')) : m'.live ⊆ m.live := by
  cases e with
  | cas weak e n =>
    have h : (if m.page.xthreadFree = e then _ else _) = some (r, m') := h
    split at h
    · cases h
      obtain ⟨_ | b, _⟩ := n
      · exact subset_rfl
      · exact Finset.erase_subset ..
    · cases h
      exact subset_rfl
  | casId e n =>
    have h : (if m.page.xthreadId = e then _ else _) = some (r, m') := h
    split at h
    · cases h
      exact subset_rfl
    · cases h
      exact subset_rfl
  | freeLocal b =>
    cases h
    exact Finset.erase_subset ..
  | pop b => exact he.elim
  | register => cases h
  | unregister => cases h
  | release => cases h
  | _ =>
    cases h
    exact subset_rfl

/-- An event that hands out no block and adds no page. -/
def ProcAct.Loses {β : Type} : ProcAct β → Prop
  | .store f _ => ∀ w : Process, w.Fewer (f w)
  | .page _ e => e.Loses
  | _ => True

theorem Process.exec_fewer {β : Type} {e : ProcAct β} (he : e.Loses) {choice : ℕ} {r : β}
    (h : w.exec refuses e choice = some (r, w')) : w.Fewer w' := by
  -- what the operating system may refuse
  have asked : ∀ {w₁ w₂ : Process} {r₁ r₂ : β}, w.Fewer w₁ → w.Fewer w₂ →
      (if refuses ∧ choice = 0 then some (r₁, w₁) else some (r₂, w₂)) = some (r, w') →
        w.Fewer w' := by
    intro w₁ w₂ r₁ r₂ h₁ h₂ heq
    split at heq
    · cases heq
      exact h₁
    · cases heq
      exact h₂
  cases e with
  | fetch f =>
    cases h
    exact .refl
  | store f k =>
    cases h
    exact he w
  | metadata e =>
    obtain ⟨⟨r', m⟩, -, heq⟩ := Option.map_eq_some_iff.mp h
    cases heq
    exact .of_rfl rfl rfl rfl
  | arena i e =>
    obtain ⟨a, -, h⟩ := Option.bind_eq_some_iff.mp h
    obtain ⟨⟨r', m⟩, -, heq⟩ := Option.map_eq_some_iff.mp h
    cases heq
    exact .of_rfl rfl rfl rfl
  | registry i b e =>
    obtain ⟨a, -, h⟩ := Option.bind_eq_some_iff.mp h
    obtain ⟨⟨r', v⟩, -, heq⟩ := Option.map_eq_some_iff.mp h
    cases heq
    exact .of_rfl rfl rfl rfl
  | page p e =>
    obtain ⟨⟨r', m⟩, hex, heq⟩ := Option.map_eq_some_iff.mp h
    cases heq
    exact .setPage (LivePage.exec_live he hex)
  | mapRegistry i k =>
    refine asked ?_ ?_ h
    · exact .of_rfl rfl rfl rfl
    · exact .of_rfl rfl rfl rfl
  | register i idx n p k =>
    refine asked ?_ ?_ h
    · exact .refl
    · exact .of_rfl rfl rfl rfl
  | zalloc k =>
    refine asked ?_ ?_ h
    · exact .refl
    · exact .refl
  | fault => cases h

/-- What a program leaves whose events hand out nothing. -/
theorem Process.Fewer.of_every {f : Prog ProcAct α} (h : ProcEnds refuses panics f w Q)
    (hf : f.Every ProcAct.Loses) :
    ProcEnds refuses panics f w fun r w' => Q r w' ∧ w.Fewer w' :=
  h.keeps (fun _ he _ _ _ _ hs hex => hs.trans (Process.exec_fewer he hex)) hf .refl

/-! ## The functions of a page -/

namespace Page

theorem capture_loses : Page.capture.Every PageAct.Loses := by
  refine ⟨fun _ => ⟨trivial, fun w => ?_⟩, fun _ => trivial⟩
  obtain ⟨_ | tf, o⟩ := w
  · trivial
  · refine ⟨trivial, fun r => ?_⟩
    cases r <;> trivial

theorem collect_loses : Page.collect.Every PageAct.Loses := by
  apply capture_loses.bind
  intro r
  cases r with
  | none => exact ⟨trivial, fun _ => trivial⟩
  | some tf =>
    refine ⟨trivial, fun _ => ⟨fun tf => ⟨trivial, fun r => ?_⟩, fun _ => ⟨trivial, fun _ => trivial⟩⟩⟩
    cases r <;> trivial

theorem isFull_loses : Page.isFull.Every PageAct.Loses := by
  refine ⟨trivial, fun r => ?_⟩
  cases r with
  | some b => trivial
  | none =>
    apply collect_loses.bind
    refine fun _ => ⟨trivial, fun r => ?_⟩
    cases r with
    | some b => trivial
    | none => exact ⟨trivial, fun _ => trivial⟩

theorem setOwner_loses {tid : ℕ} : (Page.setOwner tid).Every PageAct.Loses := by
  refine ⟨trivial, fun old => ⟨fun old => ⟨trivial, fun r => ?_⟩, fun _ => trivial⟩⟩
  cases r <;> trivial

theorem isAbandonedMapped_loses : Page.isAbandonedMapped.Every PageAct.Loses :=
  ⟨trivial, fun _ => trivial⟩

theorem unabandonIfMapped_loses : Page.unabandonIfMapped.Every PageAct.Loses := by
  apply isAbandonedMapped_loses.bind
  intro mapped
  cases mapped with
  | true => exact ⟨trivial, fun _ => trivial⟩
  | false => trivial

theorem reabandonMapped_loses : Page.reabandonMapped.Every PageAct.Loses := by
  apply isFull_loses.bind
  intro full
  cases full with
  | true => trivial
  | false =>
    apply isAbandonedMapped_loses.bind
    intro mapped
    cases mapped with
    | true => trivial
    | false => exact ⟨trivial, fun _ => setOwner_loses⟩

theorem freeTryCollectMt_loses {small : Bool} :
    (Page.freeTryCollectMt small blk).Every PageAct.Loses := by
  refine Every.iterate fun first => Every.bind ?_ fun _ => ⟨trivial, fun r => ?_⟩
  · unfold Page.collectRound
    split
    · refine ⟨trivial, fun _ => ⟨trivial, fun r => ?_⟩⟩
      cases r with
      | true => exact collect_loses
      | false => trivial
    · exact collect_loses
  · cases r with
    | true => exact unabandonIfMapped_loses.bind fun _ => ⟨trivial, fun _ => trivial⟩
    | false =>
      apply reabandonMapped_loses.bind
      refine fun _ => ⟨trivial, fun r => ?_⟩
      cases r <;> trivial

end Page

/-! ## The functions of a process -/

theorem onArena_loses {i : ℕ} {f : Arena → Prog ArenaAct α} :
    (onArena i f).Every ProcAct.Loses := by
  refine ⟨trivial, fun r => ?_⟩
  cases r with
  | none => exact ⟨trivial, fun _ => trivial⟩
  | some a => exact Every.hoist (fun _ => trivial) (f a)

theorem metaFree_loses {h size : ℕ} : (metaFree h size).Every ProcAct.Loses :=
  ⟨fun _ => .of_rfl rfl rfl rfl, fun _ => Every.hoist (fun _ => trivial) _⟩

theorem releasePageSlices_loses : (releasePageSlices p).Every ProcAct.Loses := by
  refine ⟨trivial, fun d => ⟨fun w => ?_, fun _ => onArena_loses.bind fun _ => ?_⟩⟩
  · exact ⟨Finset.erase_subset .., rfl, fun _ => subset_rfl⟩
  · split
    · cases p with
      | slice i idx => exact ⟨trivial, fun _ => trivial⟩
      | header h => exact metaFree_loses
    · trivial

theorem ensureAbandoned_loses {i : ℕ} : (Arena.ensureAbandoned i).Every ProcAct.Loses := by
  refine ⟨trivial, fun based => ?_⟩
  cases based with
  | true => trivial
  | false => exact ⟨trivial, fun _ => trivial⟩

theorem abandonPage_loses {b : ℕ} : (Subproc.abandonPage p b).Every ProcAct.Loses := by
  refine ⟨trivial, fun d => ?_⟩
  apply ensureAbandoned_loses.bind
  intro mapped
  cases mapped with
  | true => exact (Every.hoist (fun _ => trivial) _).bind fun _ => trivial
  | false => trivial

theorem pageUnabandon_loses {i j b : ℕ} : (Arena.pageUnabandon i j b).Every ProcAct.Loses := by
  refine ⟨trivial, fun based => ?_⟩
  cases based with
  | true => exact (Every.hoist (fun _ => trivial) _).bind fun _ => trivial
  | false => trivial

theorem handlePage_loses {b : ℕ} {β : Type} (e : PageAct β) (he : e.Loses) :
    (handlePage p b e).Every ProcAct.Loses := by
  cases e with
  | register => exact abandonPage_loses
  | unregister => exact ⟨trivial, fun _ => pageUnabandon_loses⟩
  | release => exact releasePageSlices_loses
  | pop b => exact he.elim
  | _ => exact ⟨trivial, fun _ => trivial⟩

end MimallocRs
