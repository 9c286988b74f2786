import MimallocRs.Process.Prog
import MimallocRs.Meta.Held

/-!
# Programs on a process

The rules for a program on a process that runs alone. A program on one page, one arena, the metadata
allocator or one registry has been specified on that part of the state, and `onPage`, `onArena`,
`onMetadata` and `onRegistry` carry the specification over: the rest of the process is as it was.
-/

namespace MimallocRs

open Interleave Prog

/-- Every execution of a program on a process comes to an end. -/
abbrev ProcEnds {α : Type} (refuses : Bool) (panics : Prop) (p : Prog ProcAct α) (w : Process)
    (Q : α → Process → Prop) : Prop :=
  Ends (processMachine refuses) () panics p w Q

namespace Process

/-- A page has been changed. -/
def setPage (w : Process) (p : PagePtr) (m : LivePage) : Process :=
  { w with page := Function.update w.page p m }

/-- The bitmaps of an arena have been changed. -/
def setArena (w : Process) (i : ℕ) (m : ArenaMem) : Process :=
  { w with arenaMem := Function.update w.arenaMem i m }

/-- The metadata allocator has been changed. -/
def setMetadata (w : Process) (m : MetaMem) : Process := { w with metadata := m }

@[simp] theorem setPage_self (w : Process) (p : PagePtr) : w.setPage p (w.page p) = w := by
  simp [setPage]

@[simp] theorem setPage_page (w : Process) (p : PagePtr) (m : LivePage) :
    (w.setPage p m).page p = m := Function.update_self ..

theorem setPage_of_ne (w : Process) {p p' : PagePtr} (m : LivePage) (h : p' ≠ p) :
    (w.setPage p m).page p' = w.page p' := Function.update_of_ne h ..

@[simp] theorem setPage_setPage (w : Process) (p : PagePtr) (m m' : LivePage) :
    (w.setPage p m).setPage p m' = w.setPage p m' := by
  simp [setPage]

@[simp] theorem setArena_self (w : Process) (i : ℕ) : w.setArena i (w.arenaMem i) = w := by
  simp [setArena]

@[simp] theorem setArena_setArena (w : Process) (i : ℕ) (m m' : ArenaMem) :
    (w.setArena i m).setArena i m' = w.setArena i m' := by
  simp [setArena]

@[simp] theorem setArena_arenaMem (w : Process) (i : ℕ) (m : ArenaMem) :
    (w.setArena i m).arenaMem i = m := Function.update_self ..

@[simp] theorem withRegistry_self (w : Process) (i b : ℕ) :
    w.withRegistry i b (w.pagesAbandoned i b) = w := by
  simp [withRegistry]

@[simp] theorem withRegistry_withRegistry (w : Process) (i b : ℕ) (v v' : Words) :
    (w.withRegistry i b v).withRegistry i b v' = w.withRegistry i b v' := by
  simp [withRegistry]

@[simp] theorem withRegistry_words (w : Process) (i b : ℕ) (v : Words) :
    (w.withRegistry i b v).pagesAbandoned i b = v := by
  simp [withRegistry]

end Process

namespace ProcEnds

variable {refuses : Bool} {panics : Prop} {w : Process} {α β : Type} {Q : α → Process → Prop}

/-- An event that has one answer, whatever the choice. -/
theorem act {e : ProcAct β} {k : β → Prog ProcAct α} {b : β} {w' : Process}
    (he : ∀ choice, w.exec refuses e choice = some (b, w')) (h : ProcEnds refuses panics (k b) w' Q) :
    ProcEnds refuses panics (.act e k) w Q := by
  apply Ends.act
  · intro choice hnone
    cases (he choice).symm.trans hnone
  · intro choice b' w'' hsome
    cases (he choice).symm.trans hsome
    exact h

theorem fetch {f : Process → β} {k : β → Prog ProcAct α} (h : ProcEnds refuses panics (k (f w)) w Q) :
    ProcEnds refuses panics (.act (.fetch f) k) w Q :=
  act (fun _ => rfl) h

theorem store {f : Process → Process} {k : Unit → Prog ProcAct α}
    (h : ProcEnds refuses panics (k ()) (f w) Q) :
    ProcEnds refuses panics (.act (.store f id) k) w Q :=
  act (fun _ => rfl) h

theorem storeTo {f : Process → Process} {k : Unit → Prog ProcAct α} (w' : Process) (hw : f w = w')
    (h : ProcEnds refuses panics (k ()) w' Q) :
    ProcEnds refuses panics (.act (.store f id) k) w Q :=
  store (hw ▸ h)

/-- An event with which the operating system may refuse a request. -/
theorem asks {e : ProcAct β} {k : β → Prog ProcAct α} {b b' : β} {w₁ w₂ : Process}
    (he : ∀ choice, w.exec refuses e choice =
      if refuses ∧ choice = 0 then some (b, w₁) else some (b', w₂))
    (hno : refuses = true → ProcEnds refuses panics (k b) w₁ Q)
    (hyes : ProcEnds refuses panics (k b') w₂ Q) : ProcEnds refuses panics (.act e k) w Q := by
  apply Ends.act
  · intro choice hnone
    have hnone := (he choice).symm.trans hnone
    split at hnone <;> cases hnone
  · intro choice b'' w' hsome
    have hsome := (he choice).symm.trans hsome
    split at hsome
    · next hrefused =>
      cases hsome
      exact hno hrefused.1
    · cases hsome
      exact hyes

/-- A program on one page. -/
theorem onPage {p : PagePtr} {q : Prog PageAct α} {R : α → LivePage → Prop}
    (h : PageEnds q (w.page p) R) (hQ : ∀ r m, R r m → Q r (w.setPage p m)) :
    ProcEnds refuses panics (onPage p q) w Q := by
  apply (Ends.embed (N := processMachine refuses) (fun _ => True) (.page p) (·.page p)
    (fun m w => w.setPage p m) (fun w m m' => w.setPage_setPage p m' m)
    (fun w m => w.setPage_page p m) (fun w => w.setPage_self p) (fun _ _ _ => trivial)
    (fun _ _ _ _ => ⟨0, rfl⟩) trivial h.weaken).mono
  rintro r w' ⟨hR, hw'⟩
  rw [hw']
  exact hQ r _ hR

/-- One event on a page. -/
theorem page {p : PagePtr} {e : PageAct β} {k : β → Prog ProcAct α} {b : β} {m : LivePage}
    (he : (w.page p).exec e = some (b, m)) (h : ProcEnds refuses panics (k b) (w.setPage p m) Q) :
    ProcEnds refuses panics (.act (.page p e) k) w Q := by
  apply act
  · intro choice
    show ((w.page p).exec e).map _ = _
    rw [he]
    rfl
  · exact h

/-- One event on a page that has just been changed. -/
theorem pageAgain {p : PagePtr} {e : PageAct β} {k : β → Prog ProcAct α} {b : β} {m m' : LivePage}
    (he : m.exec e = some (b, m')) (h : ProcEnds refuses panics (k b) (w.setPage p m') Q) :
    ProcEnds refuses panics (.act (.page p e) k) (w.setPage p m) Q := by
  apply page (m := m')
  · rw [w.setPage_page]
    exact he
  · rwa [w.setPage_setPage]

/-- A program on a page that has just been changed. -/
theorem onPageAgain {p : PagePtr} {q : Prog PageAct α} {R : α → LivePage → Prop} {m : LivePage}
    (h : PageEnds q m R) (hQ : ∀ r m', R r m' → Q r (w.setPage p m')) :
    ProcEnds refuses panics (MimallocRs.onPage p q) (w.setPage p m) Q := by
  apply onPage (R := R)
  · rwa [w.setPage_page]
  · intro r m' hR
    rw [w.setPage_setPage]
    exact hQ r m' hR

/-- A program on one of the arenas. -/
theorem arena {i : ℕ} {a : Arena} {q : Prog ArenaAct α} {R : α → ArenaMem → Prop}
    (ha : w.arenas i = some a) (h : ArenaEnds a panics q (w.arenaMem i) R)
    (hQ : ∀ r m, R r m → Q r (w.setArena i m)) :
    ProcEnds refuses panics (q.hoist (.arena i)) w Q := by
  have hexec : ∀ {β : Type} (e : ArenaAct β) (w : Process) (choice : ℕ), w.arenas i = some a →
      ∃ choice', (processMachine refuses).exec () (.arena i e) w choice =
        ((arenaMachine a).exec () e (w.arenaMem i) choice').map fun r => (r.1, w.setArena i r.2) := by
    intro β e w choice ha
    refine ⟨if refuses then choice else 0, ?_⟩
    show (w.arenas i).bind _ = _
    rw [ha]
    rfl
  apply (Ends.embed (N := processMachine refuses) (·.arenas i = some a) (.arena i) (·.arenaMem i)
    (fun m w => w.setArena i m) (fun w m m' => w.setArena_setArena i m' m)
    (fun w m => w.setArena_arenaMem i m) (fun w => w.setArena_self i) (fun _ _ h => h)
    hexec ha h).mono
  rintro r w' ⟨hR, hw'⟩
  rw [hw']
  exact hQ r _ hR

theorem onArena {i : ℕ} {a : Arena} {q : Arena → Prog ArenaAct α} {R : α → ArenaMem → Prop}
    (ha : w.arenas i = some a) (h : ArenaEnds a panics (q a) (w.arenaMem i) R)
    (hQ : ∀ r m, R r m → Q r (w.setArena i m)) :
    ProcEnds refuses panics (onArena i q) w Q := by
  simp only [MimallocRs.onArena, Prog.bind_eq, MimallocRs.fetch, Prog.perform_bind]
  apply fetch
  rw [ha]
  exact arena ha h hQ

/-- A program on the abandoned registry of an arena for one bin. -/
theorem registry {i b : ℕ} {a : Arena} {q : Prog BitAct α} {R : α → Words → Prop}
    (ha : w.arenas i = some a) (h : BitEnds a.chunkCount panics q (w.pagesAbandoned i b) R)
    (hQ : ∀ r v, R r v → Q r (w.withRegistry i b v)) :
    ProcEnds refuses panics (q.hoist (.registry i b)) w Q := by
  have hexec : ∀ {β : Type} (e : BitAct β) (w : Process) (choice : ℕ), w.arenas i = some a →
      ∃ choice', (processMachine refuses).exec () (.registry i b e) w choice =
        ((wordMachine a.chunkCount).exec () e (w.pagesAbandoned i b) choice').map fun r =>
          (r.1, w.withRegistry i b r.2) := by
    intro β e w choice ha
    refine ⟨choice, ?_⟩
    show (w.arenas i).bind _ = _
    rw [ha]
    rfl
  apply (Ends.embed (N := processMachine refuses) (·.arenas i = some a) (.registry i b)
    (·.pagesAbandoned i b) (fun v w => w.withRegistry i b v)
    (fun w v v' => w.withRegistry_withRegistry i b v' v) (fun w v => w.withRegistry_words i b v)
    (fun w => w.withRegistry_self i b) (fun _ _ h => h) hexec ha h).mono
  rintro r w' ⟨hR, hw'⟩
  rw [hw']
  exact hQ r _ hR

/-- A program on the metadata allocator. -/
theorem onMetadata {q : Prog MetaAct α} {R : α → MetaMem → Prop}
    (h : MetaEnds refuses q w.metadata R) (hQ : ∀ r m, R r m → Q r (w.setMetadata m)) :
    ProcEnds refuses panics (onMetadata q) w Q := by
  apply (Ends.hoist (N := processMachine refuses) .metadata (·.metadata)
    (fun m w => w.setMetadata m) (fun _ _ _ => rfl) (fun _ _ => rfl) (fun _ => rfl)
    (fun _ _ _ => rfl) h.weaken).mono
  rintro r w' ⟨hR, hw'⟩
  rw [hw']
  exact hQ r _ hR

/-- A program on one page, some of whose events are carried out by programs. -/
theorem handled {p : PagePtr} {bin : ℕ} {q : Prog PageAct α} {R : α → LivePage → Prop}
    (h : PageEnds q (w.page p) R) (hQ : ∀ r m, R r m → Q r (w.setPage p m)) :
    ProcEnds refuses panics (q.interp (handlePage p bin)) w Q := by
  have hevent : ∀ {β : Type} (e : PageAct β) (w : Process),
      (∀ choice, pageMachine.exec () e (w.page p) choice ≠ none) →
      ProcEnds refuses panics (handlePage p bin e) w fun b w' =>
        ∃ choice m, pageMachine.exec () e (w.page p) choice = some (b, m) ∧ w' = w.setPage p m := by
    intro β e w he
    obtain ⟨⟨b, m⟩, hm⟩ := Option.ne_none_iff_exists'.mp (he 0)
    have done : ProcEnds refuses panics (perform (.page p e)) w fun b w' =>
        ∃ choice m, pageMachine.exec () e (w.page p) choice = some (b, m) ∧ w' = w.setPage p m :=
      page hm (Ends.ret ⟨0, m, hm, rfl⟩)
    cases e with
    | register => cases hm
    | unregister => cases hm
    | release => cases hm
    | _ => exact done
  apply (Ends.interp (N := processMachine refuses) (·.page p) (fun m w => w.setPage p m)
    (fun w m m' => w.setPage_setPage p m' m) (fun w m => w.setPage_page p m)
    (fun w => w.setPage_self p) hevent h).mono
  rintro r w' ⟨hR, hw'⟩
  rw [hw']
  exact hQ r _ hR

end ProcEnds

end MimallocRs
