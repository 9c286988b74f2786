import MimallocRs.Process.Fewer
import MimallocRs.Process.Ops
import MimallocRs.Foundations.Interleave.Once

/-!
# Functions that hand out one block

`w.blocks` are the blocks that are live in a process, in pages of whatever state. A function that
allocates has at most one event that adds a block, and it then returns one (`Prog.Once`); all other
functions have none (`Prog.Every`).
-/

namespace MimallocRs

open Interleave Prog

variable {refuses : Bool} {panics : Prop} {w w' : Process} {p : PagePtr} {th : TheapPtr} {α : Type}
  {Q : α → Process → Prop} {t hp size : ℕ}

namespace Process

/-- The blocks that are live. -/
def blocks (w : Process) : Set (PagePtr × Blk) := {x | x.2 ∈ (w.page x.1).live}

theorem Fewer.blocks (h : w.Fewer w') : w'.blocks ⊆ w.blocks := fun x hx => h.live x.1 hx

theorem blocks_congr (h : w'.page = w.page) : w'.blocks ⊆ w.blocks := by
  unfold blocks
  rw [h]

/-- Blocks of one page have changed. -/
theorem blocks_update {m : LivePage} (h : m.live ⊆ (w.page p).live) :
    blocks { w with page := Function.update w.page p m } ⊆ w.blocks :=
  Fewer.blocks (Fewer.setPage h)

/-- A block of one page has been added. -/
theorem blocks_insert {m : LivePage} {b : Blk} (h : m.live ⊆ insert b (w.page p).live) :
    blocks { w with page := Function.update w.page p m } ⊆ insert (p, b) w.blocks := by
  rintro ⟨p', b'⟩ hx
  have hx : b' ∈ (Function.update w.page p m p').live := hx
  by_cases hp : p' = p
  · subst hp
    rw [Function.update_self] at hx
    obtain rfl | hx := Finset.mem_insert.mp (h hx)
    · exact Or.inl rfl
    · exact Or.inr hx
  · rw [Function.update_of_ne hp] at hx
    exact Or.inr hx

end Process

/-- An event that adds no block. -/
def ProcAct.AddsNone {β : Type} : ProcAct β → Prop
  | .store f _ => ∀ w : Process, (f w).blocks ⊆ w.blocks
  | .page _ e => e.Loses
  | _ => True

/-- An event on a page that adds at most one block. -/
def PageAct.AddsOne {β : Type} : PageAct β → Prop
  | .pop _ => True
  | _ => False

/-- An event that adds at most one block. -/
def ProcAct.AddsOne {β : Type} : ProcAct β → Prop
  | .store f _ => ∀ w : Process, ∃ x, (f w).blocks ⊆ insert x w.blocks
  | .page _ e => e.AddsOne
  | _ => False

/-- An event that has no answer. -/
def ProcAct.Faults {β : Type} : ProcAct β → Prop
  | .fault => True
  | _ => False

theorem ProcAct.Loses.addsNone {β : Type} {e : ProcAct β} (h : e.Loses) : e.AddsNone := by
  cases e with
  | store f k => exact fun w => (h w).blocks
  | page p e => exact h
  | _ => trivial

theorem Process.exec_addsNone {β : Type} {e : ProcAct β} (he : e.AddsNone) {choice : ℕ} {r : β}
    (h : w.exec refuses e choice = some (r, w')) : w'.blocks ⊆ w.blocks := by
  have loses : e.Loses → w'.blocks ⊆ w.blocks := fun hl => (Process.exec_fewer hl h).blocks
  cases e with
  | store f k =>
    cases h
    exact he w
  | page p e => exact loses he
  | _ => exact loses trivial

theorem Process.exec_faults {β : Type} {e : ProcAct β} (he : e.Faults) {choice : ℕ} :
    w.exec refuses e choice = none := by
  cases e with
  | fault => rfl
  | _ => exact he.elim

theorem Process.exec_addsOne {β : Type} {e : ProcAct β} (he : e.AddsOne) {choice : ℕ} {r : β}
    (h : w.exec refuses e choice = some (r, w')) : ∃ x, w'.blocks ⊆ insert x w.blocks := by
  cases e with
  | store f k =>
    cases h
    exact he w
  | page p e =>
    cases e with
    | pop b =>
      cases h
      exact ⟨(p, b), blocks_insert subset_rfl⟩
    | _ => exact he.elim
  | _ => exact he.elim

/-- What a program leaves that adds no block. -/
theorem ProcEnds.addsNone {f : Prog ProcAct α} (h : ProcEnds refuses panics f w Q)
    (hf : f.Every ProcAct.AddsNone) :
    ProcEnds refuses panics f w fun r w' => Q r w' ∧ w'.blocks ⊆ w.blocks :=
  h.keeps (fun _ he _ _ _ _ hs hex => (Process.exec_addsNone he hex).trans hs) hf subset_rfl

/-- What a program leaves that adds at most one block, which it returns. -/
theorem ProcEnds.addsOne {f : Prog ProcAct α} {R : α → Prop} (h : ProcEnds refuses panics f w Q)
    (hf : f.Once ProcAct.Faults ProcAct.AddsOne ProcAct.AddsNone R) :
    ProcEnds refuses panics f w fun r w' =>
      Q r w' ∧ (w'.blocks ⊆ w.blocks ∨ (∃ x, w'.blocks ⊆ insert x w.blocks) ∧ R r) :=
  h.once (I := fun w' => w'.blocks ⊆ w.blocks) (J := fun w' => ∃ x, w'.blocks ⊆ insert x w.blocks)
    (fun _ he _ _ => Process.exec_faults he)
    (fun _ he _ _ _ _ hs hex => (Process.exec_addsNone he hex).trans hs)
    (fun _ he _ _ _ _ hs hex => (Process.exec_addsOne he hex).imp fun _ hx =>
      hx.trans (Set.insert_subset_insert hs))
    (fun _ he _ _ _ _ hs hex => hs.imp fun _ hx => (Process.exec_addsNone he hex).trans hx) hf
    subset_rfl

theorem addsNone_of_loses {f : Prog ProcAct α} (h : f.Every ProcAct.Loses) :
    f.Every ProcAct.AddsNone :=
  h.mono fun _ he => he.addsNone

theorem onPage_addsNone {f : Prog PageAct α} (h : f.Every PageAct.Loses) :
    (onPage p f).Every ProcAct.AddsNone :=
  h.renamed (φ := ProcAct.page p) fun _ he => he

/-! ## Slices and metadata -/

theorem onMetadata_addsNone {f : Prog MetaAct α} : (onMetadata f).Every ProcAct.AddsNone :=
  Every.hoist (fun _ => trivial) f

theorem onArena_addsNone {i : ℕ} {f : Arena → Prog ArenaAct α} :
    (onArena i f).Every ProcAct.AddsNone :=
  addsNone_of_loses onArena_loses

theorem metaZalloc_addsNone : (metaZalloc size).Every ProcAct.AddsNone := by
  apply onMetadata_addsNone.bind
  intro r
  cases r with
  | none => trivial
  | some h => exact ⟨fun _ => Process.blocks_congr rfl, fun _ => trivial⟩

theorem Page.claimOwnership_loses : Page.claimOwnership.Every PageAct.Loses := by
  refine Every.iterate fun _ => ⟨trivial, fun cur => ?_⟩
  simp only [Prog.ret_bind]
  split
  · trivial
  · refine ⟨trivial, fun r => ?_⟩
    cases r <;> trivial

namespace Subproc

theorem addArena_addsNone {r : Arena.Created} : (addArena r).Every ProcAct.AddsNone := by
  refine ⟨trivial, fun idx => ?_⟩
  simp only [Prog.ret_bind]
  split
  · trivial
  · exact ⟨fun _ => Process.blocks_congr rfl, fun _ => ⟨fun _ => Process.blocks_congr rfl, fun _ => trivial⟩⟩

theorem reserveArena_addsNone {n : ℕ} {commit : Bool} :
    (reserveArena n commit).Every ProcAct.AddsNone := by
  apply onMetadata_addsNone.bind
  intro r
  cases r with
  | none => trivial
  | some r =>
    refine ⟨fun _ => Process.blocks_congr rfl, fun _ => addArena_addsNone.bind fun idx => ?_⟩
    cases idx with
    | some i => trivial
    | none => exact ⟨fun _ => Process.blocks_congr rfl, fun _ => onMetadata_addsNone.bind fun _ => trivial⟩

theorem allocSlices_addsNone {n tseq : ℕ} {commit : Bool} :
    (allocSlices n commit tseq).Every ProcAct.AddsNone := by
  refine ⟨trivial, fun count => ⟨trivial, fun cursor => ?_⟩⟩
  refine (Every.firstSome (fun k => ?_) _).bind fun found => ?_
  · refine ⟨trivial, fun a => ?_⟩
    cases a with
    | none => trivial
    | some a =>
      refine (Every.hoist (fun _ => trivial) _).bind fun r => ?_
      rcases r with _ | ⟨idx, _, isZero⟩
      · trivial
      · dsimp only
        split
        · exact ⟨fun _ => Process.blocks_congr rfl, fun _ => trivial⟩
        · trivial
  · cases found with
    | some r => trivial
    | none =>
      apply reserveArena_addsNone.bind
      intro i
      cases i with
      | none => trivial
      | some i =>
        apply onArena_addsNone.bind
        rintro (_ | ⟨idx, _, isZero⟩)
        · trivial
        · exact ⟨fun _ => Process.blocks_congr rfl, fun _ => trivial⟩

theorem tryPurge_addsNone {force : Bool} : (tryPurge force).Every ProcAct.AddsNone := by
  refine ⟨trivial, fun count => Every.forEach (fun i => ?_) _⟩
  refine ⟨trivial, fun a => ?_⟩
  cases a with
  | none => trivial
  | some a => exact (Every.hoist (fun _ => trivial) _).bind fun _ => trivial

/-! ## Theaps -/

theorem reclaimPage_addsNone {b tseq : ℕ} : (reclaimPage b tseq).Every ProcAct.AddsNone := by
  have claimBit : ∀ {i c j}, (Bitmap.claimBit (fun e => ProcAct.registry i b e)
      (fun idx => onPage (.slice i idx) Page.claimOwnership) c j).Every ProcAct.AddsNone := by
    intro i c j
    refine (Every.hoist (fun _ => trivial) _).bind fun r => ?_
    cases r with
    | false => trivial
    | true =>
      apply (onPage_addsNone Page.claimOwnership_loses).bind
      intro r
      cases r with
      | false => trivial
      | true => exact (Every.hoist (fun _ => trivial) _).bind fun _ => trivial
  refine ⟨trivial, fun count => Every.firstSome (fun i => ?_) _⟩
  refine ⟨trivial, fun a => ?_⟩
  cases a with
  | none => trivial
  | some a =>
    refine Every.bind (p := Arena.reclaimAbandoned i b tseq) ⟨trivial, fun based => ?_⟩ fun r => ?_
    · cases based with
      | false => trivial
      | true =>
        refine ⟨trivial, fun a => ?_⟩
        cases a with
        | none => exact ⟨trivial, fun _ => trivial⟩
        | some a =>
          refine Every.firstSome (fun k => (Every.hoist (fun _ => trivial) _).bind fun r => ?_) _
          cases r with
          | false => trivial
          | true =>
            generalize List.range chunkBits = l
            exact Every.firstSome (fun _ => claimBit) l
    · cases r with
      | none => trivial
      | some idx => exact ⟨fun _ => Process.blocks_congr rfl, fun _ => trivial⟩

end Subproc

namespace ThreadHeap

theorem nextTseq_addsNone : (nextTseq th).Every ProcAct.AddsNone := by
  refine ⟨trivial, fun t => ?_⟩
  simp only [Prog.ret_bind]
  exact ⟨fun _ => Process.blocks_congr rfl, fun _ => trivial⟩

theorem newPage_addsNone {b bs slices : ℕ} : (newPage th b bs slices).Every ProcAct.AddsNone := by
  apply nextTseq_addsNone.bind
  refine fun tseq => ⟨trivial, fun eager => Subproc.allocSlices_addsNone.bind ?_⟩
  rintro (_ | ⟨i, idx, isZero⟩)
  · trivial
  · refine ⟨fun w => Process.blocks_update (Finset.empty_subset _), fun _ => ⟨trivial, fun r => ?_⟩⟩
    cases r with
    | true => exact ⟨fun _ => Process.blocks_congr rfl, fun _ => trivial⟩
    | false => exact onArena_addsNone.bind fun _ => trivial

theorem collectRetired_addsNone {force : Bool} :
    (collectRetired th force).Every ProcAct.AddsNone := by
  refine ⟨trivial, fun lo => ⟨trivial, fun hi => (Every.iterate ?_).bind fun r =>
    ⟨fun _ => Process.blocks_congr rfl, fun _ => Subproc.tryPurge_addsNone⟩⟩⟩
  rintro ⟨b, min, max⟩
  dsimp only
  split
  · trivial
  · refine ⟨trivial, fun first => ?_⟩
    cases first with
    | none => trivial
    | some p =>
      refine ⟨trivial, fun expire => ?_⟩
      simp only [Prog.ret_bind]
      split
      · trivial
      · refine ⟨trivial, fun allFree => ?_⟩
        cases allFree with
        | false => exact ⟨fun _ => Process.blocks_congr rfl, fun _ => trivial⟩
        | true =>
          refine ⟨fun _ => Process.blocks_congr rfl, fun _ => ?_⟩
          dsimp only
          split
          · exact ⟨fun _ => Process.blocks_congr rfl, fun _ => ⟨fun _ => Process.blocks_congr rfl, fun _ =>
              (addsNone_of_loses releasePageSlices_loses).bind fun _ => trivial⟩⟩
          · trivial

theorem tryReclaim_addsNone {b : ℕ} : (tryReclaim th b).Every ProcAct.AddsNone := by
  apply nextTseq_addsNone.bind
  intro tseq
  apply Subproc.reclaimPage_addsNone.bind
  intro r
  cases r with
  | none => trivial
  | some p =>
    exact (onPage_addsNone Page.setOwner_loses).bind fun _ => ⟨trivial, fun _ =>
      ⟨fun _ => Process.blocks_congr rfl, fun _ => (onPage_addsNone Page.collect_loses).bind fun _ =>
        ⟨fun _ => Process.blocks_congr rfl, fun _ => trivial⟩⟩⟩

theorem findInQueue_addsNone {cur : Option PagePtr} :
    (findInQueue cur).Every ProcAct.AddsNone := by
  apply Every.iterate
  intro cur
  cases cur with
  | none => trivial
  | some p =>
    apply (onPage_addsNone Page.isFull_loses).bind
    intro full
    cases full with
    | true => exact ⟨trivial, fun _ => trivial⟩
    | false =>
      refine ⟨trivial, fun expire => ?_⟩
      simp only [Prog.ret_bind]
      split
      · exact ⟨fun _ => Process.blocks_congr rfl, fun _ => trivial⟩
      · trivial

theorem findFreePage_addsNone {b : ℕ} : (findFreePage th b).Every ProcAct.AddsNone := by
  refine ⟨trivial, fun first => findInQueue_addsNone.bind fun r => ?_⟩
  cases r with
  | some p => trivial
  | none => exact tryReclaim_addsNone

/-! ## Allocating -/

theorem serve_returns {wsize : ℕ} {blk : Blk} :
    (serve th wsize p blk).Then ProcAct.Faults ProcAct.AddsNone (· ≠ none) := by
  have read : ∀ f : Process → Ptr, (Prog.act (.fetch f) fun a => .ret (some a) :
      Prog ProcAct (Option Ptr)).Then ProcAct.Faults ProcAct.AddsNone (· ≠ none) := fun f =>
    .act trivial fun _ => Option.some_ne_none _
  unfold serve
  split
  · exact .act (fun _ => Process.blocks_congr rfl) fun _ => read _
  · exact read _

end ThreadHeap

/-- A function that adds at most one block, and returns one if it adds it. -/
abbrev AddsOne (f : Prog ProcAct (Option α)) : Prop :=
  f.Once ProcAct.Faults ProcAct.AddsOne ProcAct.AddsNone (· ≠ none)

theorem Page.alloc_once : Page.alloc.Once (fun _ => False) PageAct.AddsOne PageAct.Loses (· ≠ none) := by
  have pop : ∀ b, (Prog.act (.pop b) fun _ => .ret (some b) : Prog PageAct (Option Blk)).Once
      (fun _ => False) PageAct.AddsOne PageAct.Loses (· ≠ none) := fun b =>
    .turn trivial fun _ => Option.some_ne_none _
  refine .act trivial fun r => ?_
  cases r with
  | some b => exact pop b
  | none =>
    apply Page.collect_loses.bind_once
    refine fun _ => .act trivial fun r => ?_
    cases r with
    | some b => exact pop b
    | none =>
      refine .act trivial fun _ => .act trivial fun r => ?_
      cases r with
      | some b => exact pop b
      | none => trivial

theorem onPage_alloc_addsOne : AddsOne (onPage p Page.alloc) :=
  Page.alloc_once.renamed (φ := ProcAct.page p) (fun _ he => he.elim) (fun _ he => he)
    fun _ he => he

namespace ThreadHeap

theorem allocHuge_addsOne : AddsOne (allocHuge th size) := by
  apply nextTseq_addsNone.bind_once
  refine fun tseq => .act trivial fun eager => ?_
  apply Subproc.allocSlices_addsNone.bind_once
  rintro (_ | ⟨i, idx, isZero⟩)
  · trivial
  · apply metaZalloc_addsNone.bind_once
    intro h
    cases h with
    | none => exact onArena_addsNone.bind_once fun _ => trivial
    | some h =>
      refine .act (fun w => Process.blocks_update (Finset.empty_subset _)) fun _ =>
        .act trivial fun r => ?_
      cases r with
      | false =>
        exact onArena_addsNone.bind_once fun _ =>
          (addsNone_of_loses metaFree_loses).bind_once fun _ => trivial
      | true =>
        refine .act (fun _ => Process.blocks_congr rfl) fun _ => .turn (fun w => ?_) fun _ =>
          .act trivial fun _ => Option.some_ne_none _
        exact ⟨(.header h, 0), Process.blocks_insert (by simp)⟩

/-- What is done with a page that has been found for a block. -/
theorem serveFrom_addsOne {wsize : ℕ} {f : Prog ProcAct (Option Ptr)} (hf : AddsOne f) :
    AddsOne ((onPage p Page.alloc).bind fun r =>
      match r with
      | some blk => serve th wsize p blk
      | none => f) := by
  apply onPage_alloc_addsOne.bind
  · intro r
    cases r with
    | some blk => exact serve_returns.once
    | none => exact hf
  · intro r hr
    cases r with
    | some blk => exact serve_returns
    | none => exact (hr rfl).elim

/-- Serve from the page, and otherwise from a new one. -/
theorem serveOrCreate_addsOne {wsize : ℕ} {pg : PagePtr} :
    AddsOne ((onPage pg Page.alloc).bind fun r =>
      match r with
      | some blk => serve th wsize pg blk
      | none => (newPage th (bin size) (binBlockSize (bin size))
          (pageSlicesFor (binBlockSize (bin size)))).bind fun pg =>
            match pg with
            | none => .ret none
            | some pg => (onPage pg Page.alloc).bind fun r =>
              match r with
              | some blk => serve th wsize pg blk
              | none => .ret none) := by
  apply serveFrom_addsOne
  apply newPage_addsNone.bind_once
  intro pg
  cases pg with
  | none => trivial
  | some pg => exact serveFrom_addsOne trivial

theorem allocGeneric_addsOne {wsize : ℕ} : AddsOne (allocGeneric th size wsize) := by
  unfold allocGeneric
  simp only [Prog.bind_eq, Prog.pure_eq]
  split
  · exact allocHuge_addsOne
  · apply findFreePage_addsNone.bind_once
    intro found
    cases found with
    | some pg => exact serveOrCreate_addsOne
    | none =>
      refine collectRetired_addsNone.bind_once fun _ => newPage_addsNone.bind_once fun pg => ?_
      cases pg with
      | none => trivial
      | some pg => exact serveOrCreate_addsOne

theorem alloc_addsOne : AddsOne (alloc th size) := by
  unfold alloc
  simp only [Prog.bind_eq, Prog.pure_eq]
  split
  · refine .act trivial fun direct => ?_
    cases direct with
    | none => exact allocGeneric_addsOne
    | some p =>
      apply onPage_alloc_addsOne.bind
      · intro r
        cases r with
        | some b => exact .act trivial fun _ => trivial
        | none => exact allocGeneric_addsOne
      · intro r hr
        cases r with
        | some b => exact .act trivial fun _ => Option.some_ne_none _
        | none => exact (hr rfl).elim
  · exact allocGeneric_addsOne

/-- Behind the `alloc` of `alloc_zeroed`. -/
theorem zeroAnswer_then {a : Ptr} :
    (if zeroViaPageMin < size then
      Prog.act (.fetch fun w => w.lookup a) fun r : Option PagePtr =>
        match r with
        | none => fault
        | some _ => .ret (some a)
      else .ret (some a)).Then ProcAct.Faults ProcAct.AddsNone (· ≠ none) := by
  split
  · refine .act trivial fun r => ?_
    cases r with
    | none => exact Or.inl trivial
    | some p => exact Option.some_ne_none _
  · exact Option.some_ne_none _

theorem allocZeroed_addsOne : AddsOne (allocZeroed th size) := by
  apply alloc_addsOne.bind
  · intro r
    cases r with
    | none => trivial
    | some a => exact zeroAnswer_then.once
  · intro r hr
    cases r with
    | none => exact (hr rfl).elim
    | some a => exact zeroAnswer_then

/-- Behind the `alloc` of `alloc_aligned`. -/
theorem alignAnswer_then {align : ℕ} {a : Ptr} :
    (Prog.act (.fetch fun w => w.arenas a.arena) fun r : Option Arena =>
      match r with
      | none => fault
      | some arena =>
        if alignUp (arena.start + a.off) align ≠ arena.start + a.off then
          Prog.act (.fetch fun w => w.lookup a) fun r : Option PagePtr =>
            match r with
            | none => fault
            | some p => Prog.act (.store (·.setHasInterior p) id) fun _ =>
                .ret (some ⟨a.arena, alignUp (arena.start + a.off) align - arena.start⟩)
        else .ret (some a)).Then ProcAct.Faults ProcAct.AddsNone (· ≠ none) := by
  refine .act trivial fun r => ?_
  cases r with
  | none => exact Or.inl trivial
  | some arena =>
    simp only
    split
    · refine .act trivial fun r => ?_
      cases r with
      | none => exact Or.inl trivial
      | some p =>
        exact .act (fun _ => Process.blocks_update subset_rfl) fun _ => Option.some_ne_none _
    · exact Option.some_ne_none _

theorem allocAligned_addsOne {align : ℕ} : AddsOne (allocAligned th size align) := by
  unfold allocAligned
  split
  · exact alloc_addsOne
  split
  · trivial
  apply alloc_addsOne.bind
  · intro r
    cases r with
    | none => trivial
    | some a => exact alignAnswer_then.once
  · intro r hr
    cases r with
    | none => exact (hr rfl).elim
    | some a => exact alignAnswer_then

end ThreadHeap

/-! ## Freeing, collecting and tearing down -/

theorem retirePage_addsNone : (retirePage p).Every ProcAct.AddsNone := by
  refine ⟨trivial, fun th => ⟨trivial, fun b => ⟨trivial, fun expire => ?_⟩⟩⟩
  simp only [Prog.ret_bind]
  split
  · trivial
  · refine ⟨trivial, fun len => ?_⟩
    simp only [Prog.ret_bind]
    split
    · exact ⟨trivial, fun bs => ⟨fun _ => Process.blocks_congr rfl, fun _ =>
        ⟨fun _ => Process.blocks_congr rfl, fun _ => trivial⟩⟩⟩
    · exact ⟨fun _ => Process.blocks_congr rfl, fun _ => ⟨fun _ => Process.blocks_congr rfl, fun _ =>
        addsNone_of_loses releasePageSlices_loses⟩⟩

theorem Page.setUnowned_loses : Page.setUnowned.Every PageAct.Loses := by
  refine Every.iterate fun _ => ⟨trivial, fun cur => ⟨trivial, fun r => ?_⟩⟩
  cases r <;> trivial

theorem Page.abandonOwnedPage_loses : Page.abandonOwnedPage.Every PageAct.Loses := by
  refine Page.collect_loses.bind fun _ => ⟨trivial, fun allFree => ?_⟩
  cases allFree with
  | true => exact ⟨trivial, fun _ => trivial⟩
  | false =>
    apply Page.isFull_loses.bind
    intro full
    cases full with
    | true => exact Page.setOwner_loses.bind fun _ => Page.setUnowned_loses
    | false =>
      exact ⟨trivial, fun _ => Page.setOwner_loses.bind fun _ => Page.setUnowned_loses⟩

theorem abandonOwnedPage_addsNone {b : ℕ} : (abandonOwnedPage p b).Every ProcAct.AddsNone :=
  addsNone_of_loses (Every.interp _ handlePage_loses Page.abandonOwnedPage_loses)

namespace ThreadHeap

theorem collectQueue_addsNone {force : Bool} {b : ℕ} {cur : Option PagePtr} :
    (collectQueue th force b cur).Every ProcAct.AddsNone := by
  apply Every.iterate
  intro cur
  cases cur with
  | none => trivial
  | some p =>
    refine ⟨trivial, fun next => (onPage_addsNone Page.collect_loses).bind fun _ =>
      ⟨trivial, fun allFree => ?_⟩⟩
    cases allFree with
    | false => trivial
    | true =>
      cases force with
      | true => exact ⟨fun _ => Process.blocks_congr rfl, fun _ => ⟨fun _ => Process.blocks_congr rfl,
          fun _ => (addsNone_of_loses releasePageSlices_loses).bind fun _ => trivial⟩⟩
      | false => exact retirePage_addsNone.bind fun _ => trivial

theorem collect_addsNone {force : Bool} : (collect th force).Every ProcAct.AddsNone := by
  apply Every.bind
  · refine Every.forEach (fun b => ?_) _
    exact ⟨trivial, fun first => collectQueue_addsNone⟩
  · intro _
    cases force with
    | true => exact ⟨fun _ => Process.blocks_congr rfl, fun _ => Subproc.tryPurge_addsNone⟩
    | false => exact Subproc.tryPurge_addsNone

theorem drop_addsNone : (drop th).Every ProcAct.AddsNone := by
  refine Every.forEach (fun b => ?_) _
  refine ⟨trivial, fun first => Every.iterate fun cur => ?_⟩
  cases cur with
  | none => trivial
  | some p =>
    refine ⟨trivial, fun next => ⟨fun _ => Process.blocks_congr rfl, fun _ =>
      abandonOwnedPage_addsNone.bind fun _ => ⟨fun w => ?_, fun _ => trivial⟩⟩⟩
    dsimp only
    split
    · exact Process.blocks_congr rfl
    · exact subset_rfl

end ThreadHeap

theorem currentTheap_addsNone : (currentTheap t hp).Every ProcAct.AddsNone := by
  unfold currentTheap
  split
  · trivial
  · refine ⟨trivial, fun hs => ?_⟩
    simp only [Prog.ret_bind]
    split
    · trivial
    · refine ⟨trivial, fun r => ?_⟩
      cases r with
      | true => exact ⟨fun _ => Process.blocks_congr rfl, fun _ => trivial⟩
      | false => trivial

theorem withTheap_addsOne {f : TheapPtr → Prog ProcAct (Option α)} (hf : ∀ th, AddsOne (f th)) :
    AddsOne (withTheap t hp f) := by
  apply currentTheap_addsNone.bind_once
  intro r
  cases r with
  | none => trivial
  | some th => exact hf th

theorem dropRegistry_addsNone : (dropRegistry t).Every ProcAct.AddsNone :=
  ⟨trivial, fun _ => ⟨fun _ => Process.blocks_congr rfl, fun _ =>
    Every.forEach (fun _ => ThreadHeap.drop_addsNone) _⟩⟩

theorem exitThread_addsNone {registryFirst : Bool} :
    (exitThread t registryFirst).Every ProcAct.AddsNone := by
  cases registryFirst with
  | true => exact dropRegistry_addsNone.bind fun _ => ThreadHeap.drop_addsNone
  | false => exact ThreadHeap.drop_addsNone.bind fun _ => dropRegistry_addsNone

theorem deleteHeap_addsNone : (deleteHeap t hp).Every ProcAct.AddsNone := by
  refine ⟨trivial, fun hs => ?_⟩
  simp only [Prog.ret_bind]
  split
  · exact ⟨fun _ => Process.blocks_congr rfl, fun _ => ThreadHeap.drop_addsNone⟩
  · trivial

theorem newHeap_addsNone : newHeap.Every ProcAct.AddsNone := by
  refine ⟨trivial, fun r => ?_⟩
  cases r with
  | true => exact ⟨trivial, fun _ => ⟨fun _ => Process.blocks_congr rfl, fun _ => trivial⟩⟩
  | false => trivial

end MimallocRs
