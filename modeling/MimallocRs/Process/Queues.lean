import MimallocRs.Process.Invariant

/-!
# Queues

A page is taken out of its queue (`PageQueue::remove`) and put in front of one
(`PageQueue::push_front`), and the direct table of a theap follows its queues. A page that has been
taken out is in hand.
-/

namespace MimallocRs

open Interleave Prog

variable {S : Set (PagePtr × Blk)} {A : Set TheapPtr} {w w' : Process} {q q' : Queues}
  {D : Set TheapPtr} {H : Option PagePtr} {T : Set (ℕ × ℕ)} {p : PagePtr} {th : TheapPtr} {b : ℕ}

/-- The queues without the page `p` in one of them. -/
def eraseFrom (q : Queues) (th : TheapPtr) (b : ℕ) (p : PagePtr) : Queues :=
  Function.update q th (Function.update (q th) b ((q th b).erase p))

/-- The queues with the page `p` in front of one of them. -/
def pushTo (q : Queues) (th : TheapPtr) (b : ℕ) (p : PagePtr) : Queues :=
  Function.update q th (Function.update (q th) b (p :: q th b))

@[simp] theorem eraseFrom_self : eraseFrom q th b p th b = (q th b).erase p := by
  simp [eraseFrom]

@[simp] theorem pushTo_self : pushTo q th b p th b = p :: q th b := by
  simp [pushTo]

theorem eraseFrom_of_ne {th' : TheapPtr} {b' : ℕ} (h : ¬ (th' = th ∧ b' = b)) :
    eraseFrom q th b p th' b' = q th' b' := by
  unfold eraseFrom
  by_cases hth : th' = th
  · subst hth
    rw [Function.update_self, Function.update_of_ne fun hb => h ⟨rfl, hb⟩]
  · rw [Function.update_of_ne hth]

theorem pushTo_of_ne {th' : TheapPtr} {b' : ℕ} (h : ¬ (th' = th ∧ b' = b)) :
    pushTo q th b p th' b' = q th' b' := by
  unfold pushTo
  by_cases hth : th' = th
  · subst hth
    rw [Function.update_self, Function.update_of_ne fun hb => h ⟨rfl, hb⟩]
  · rw [Function.update_of_ne hth]

theorem eraseFrom_others (hth : th ∈ A) : ∀ th' ∉ A, eraseFrom q th b p th' = q th' := by
  intro th' hth'
  apply Function.update_of_ne
  rintro rfl
  exact hth' hth

theorem pushTo_others (hth : th ∈ A) : ∀ th' ∉ A, pushTo q th b p th' = q th' := by
  intro th' hth'
  apply Function.update_of_ne
  rintro rfl
  exact hth' hth

theorem mem_of_mem_eraseFrom {th' : TheapPtr} {b' : ℕ} {p' : PagePtr}
    (h : p' ∈ eraseFrom q th b p th' b') : p' ∈ q th' b' := by
  by_cases heq : th' = th ∧ b' = b
  · obtain ⟨rfl, rfl⟩ := heq
    rw [eraseFrom_self] at h
    exact List.mem_of_mem_erase h
  · rwa [eraseFrom_of_ne heq] at h

theorem mem_eraseFrom_of_ne {th' : TheapPtr} {b' : ℕ} {p' : PagePtr} (hne : p' ≠ p)
    (h : p' ∈ q th' b') : p' ∈ eraseFrom q th b p th' b' := by
  by_cases heq : th' = th ∧ b' = b
  · obtain ⟨rfl, rfl⟩ := heq
    rw [eraseFrom_self]
    exact (List.mem_erase_of_ne hne).mpr h
  · rwa [eraseFrom_of_ne heq]

theorem mem_pushTo {th' : TheapPtr} {b' : ℕ} {p' : PagePtr} :
    p' ∈ pushTo q th b p th' b' ↔ p' = p ∧ th' = th ∧ b' = b ∨ p' ∈ q th' b' := by
  by_cases heq : th' = th ∧ b' = b
  · obtain ⟨rfl, rfl⟩ := heq
    simp
  · simp [pushTo_of_ne heq, heq]

namespace Queue

variable {next prev : PagePtr → Option PagePtr} {first last : Option PagePtr} {count : ℕ}
  {l : List PagePtr}

/-- A page is unlinked. -/
theorem remove (h : Queue next prev first last count l) (hp : p ∈ l) :
    Queue (Function.update ((prev p).elim next fun f => Function.update next f (next p)) p none)
      (Function.update ((next p).elim prev fun n => Function.update prev n (prev p)) p none)
      ((prev p).elim (next p) fun _ => first) ((next p).elim (prev p) fun _ => last) (count - 1)
      (l.erase p) := by
  obtain ⟨l₁, l₂, rfl⟩ := List.append_of_mem hp
  have hp₁ : p ∉ l₁ := by
    have hnodup := h.dlist.nodup
    rw [List.nodup_append] at hnodup
    exact fun hc => hnodup.2.2 p hc p List.mem_cons_self rfl
  have herase : (l₁ ++ p :: l₂).erase p = l₁ ++ l₂ := by
    rw [List.erase_append_right _ hp₁, List.erase_cons_head]
  rw [herase]
  refine ⟨h.dlist.remove, ?_, ?_⟩
  · obtain ⟨-, hprev, hnext, -⟩ := Seg.append.mp h.dlist.seg
    rw [Option.or_none] at hprev hnext
    rw [hprev, hnext, h.last]
    cases l₂ with
    | nil => simp
    | cons c l₂ => simp
  · rw [h.count]
    simp

/-- A page is linked in front. -/
theorem push (h : Queue next prev first last count l) (hp : p ∉ l) :
    Queue (Function.update next p first)
      (first.elim (Function.update prev p none) fun f =>
        Function.update (Function.update prev p none) f (some p))
      (some p) (first.elim (some p) fun _ => last) (count + 1) (p :: l) := by
  refine ⟨h.dlist.push hp, ?_, by rw [h.count, List.length_cons]⟩
  rw [h.last, h.dlist.head_eq]
  cases l with
  | nil => rfl
  | cons c l => simp

theorem congr {next' prev' : PagePtr → Option PagePtr} (h : Queue next prev first last count l)
    (hn : ∀ c ∈ l, next' c = next c) (hp : ∀ c ∈ l, prev' c = prev c) :
    Queue next' prev' first last count l :=
  ⟨h.dlist.congr hn hp, h.last, h.count⟩

end Queue

/-- The queues of the theaps hold the pages `q`, and no page is in two of them. -/
structure Linked (w : Process) (q : Queues) : Prop where
  queues : ∀ th b, Queue w.next w.prev (w.first th b) (w.last th b) (w.count th b) (q th b)
  apart : ∀ {p th b th' b'}, p ∈ q th b → p ∈ q th' b' → th' = th ∧ b' = b

namespace Linked

/-- A page is taken out of its queue, and the other queues are left alone. -/
theorem remove (h : Linked w q) (hp : p ∈ q th b) :
    Linked (w.remove th b p) (eraseFrom q th b p) := by
  refine ⟨?_, fun hp hp' => h.apart (mem_of_mem_eraseFrom hp) (mem_of_mem_eraseFrom hp')⟩
  intro th' b'
  by_cases heq : th' = th ∧ b' = b
  · obtain ⟨rfl, rfl⟩ := heq
    have hrem := (h.queues th' b').remove hp
    rw [eraseFrom_self]
    have hfirst : (w.remove th' b' p).first th' b' =
        (w.prev p).elim (w.next p) fun _ => w.first th' b' := by
      simp only [Process.remove]
      cases w.prev p <;> simp
    have hlast : (w.remove th' b' p).last th' b' =
        (w.next p).elim (w.prev p) fun _ => w.last th' b' := by
      simp only [Process.remove]
      cases w.next p <;> simp
    have hcount : (w.remove th' b' p).count th' b' = w.count th' b' - 1 := by
      simp [Process.remove]
    rw [hfirst, hlast, hcount]
    exact hrem
  · have hfirst : (w.remove th b p).first th' b' = w.first th' b' := by
      simp only [Process.remove]
      cases w.prev p with
      | none =>
        by_cases hth : th' = th
        · subst hth
          simp [Function.update_of_ne fun hb => heq ⟨rfl, hb⟩]
        · simp [Function.update_of_ne hth]
      | some f => rfl
    have hlast : (w.remove th b p).last th' b' = w.last th' b' := by
      simp only [Process.remove]
      cases w.next p with
      | none =>
        by_cases hth : th' = th
        · subst hth
          simp [Function.update_of_ne fun hb => heq ⟨rfl, hb⟩]
        · simp [Function.update_of_ne hth]
      | some f => rfl
    have hcount : (w.remove th b p).count th' b' = w.count th' b' := by
      simp only [Process.remove]
      by_cases hth : th' = th
      · subst hth
        simp [Function.update_of_ne fun hb => heq ⟨rfl, hb⟩]
      · simp [Function.update_of_ne hth]
    rw [eraseFrom_of_ne heq, hfirst, hlast, hcount]
    obtain ⟨l, m, hlm⟩ := List.append_of_mem hp
    have hdl := (h.queues th b).dlist
    rw [hlm] at hdl
    have hout : ∀ c ∈ q th' b', c ∉ l ++ p :: m := by
      intro c hc hcm
      rw [← hlm] at hcm
      exact heq (h.apart hcm hc)
    exact (h.queues th' b').congr (fun c hc => (hdl.remove_other (hout c hc)).1)
      fun c hc => (hdl.remove_other (hout c hc)).2

/-- A page that is in no queue is put in front of one, and the other queues are left alone. -/
theorem pushFront (h : Linked w q) (hp : ∀ th b, p ∉ q th b) :
    Linked (w.pushFront th b p) (pushTo q th b p) := by
  constructor
  · intro th' b'
    by_cases heq : th' = th ∧ b' = b
    · obtain ⟨rfl, rfl⟩ := heq
      have hpush := (h.queues th' b').push (hp th' b')
      rw [pushTo_self]
      have hfirst : (w.pushFront th' b' p).first th' b' = some p := by
        simp [Process.pushFront]
      have hlast : (w.pushFront th' b' p).last th' b' =
          (w.first th' b').elim (some p) fun _ => w.last th' b' := by
        simp only [Process.pushFront]
        cases w.first th' b' <;> simp
      have hcount : (w.pushFront th' b' p).count th' b' = w.count th' b' + 1 := by
        simp [Process.pushFront]
      rw [hfirst, hlast, hcount]
      exact hpush
    · have hfirst : (w.pushFront th b p).first th' b' = w.first th' b' := by
        simp only [Process.pushFront]
        by_cases hth : th' = th
        · subst hth
          simp [Function.update_of_ne fun hb => heq ⟨rfl, hb⟩]
        · simp [Function.update_of_ne hth]
      have hlast : (w.pushFront th b p).last th' b' = w.last th' b' := by
        simp only [Process.pushFront]
        cases w.first th b with
        | none =>
          by_cases hth : th' = th
          · subst hth
            simp [Function.update_of_ne fun hb => heq ⟨rfl, hb⟩]
          · simp [Function.update_of_ne hth]
        | some f => rfl
      have hcount : (w.pushFront th b p).count th' b' = w.count th' b' := by
        simp only [Process.pushFront]
        by_cases hth : th' = th
        · subst hth
          simp [Function.update_of_ne fun hb => heq ⟨rfl, hb⟩]
        · simp [Function.update_of_ne hth]
      rw [pushTo_of_ne heq, hfirst, hlast, hcount]
      have hdl := (h.queues th b).dlist
      have hother : ∀ c ∈ q th' b', c ≠ p ∧ c ∉ q th b := fun c hc =>
        ⟨fun hcp => hp th' b' (hcp ▸ hc), fun hcm => heq (h.apart hcm hc)⟩
      exact (h.queues th' b').congr
        (fun c hc => (hdl.push_other (hother c hc).1 (hother c hc).2).1)
        fun c hc => (hdl.push_other (hother c hc).1 (hother c hc).2).2
  · intro p' th₁ b₁ th₂ b₂ h₁ h₂
    rcases mem_pushTo.mp h₁ with ⟨rfl, rfl, rfl⟩ | hold₁
    · rcases mem_pushTo.mp h₂ with ⟨-, rfl, rfl⟩ | hold₂
      · exact ⟨rfl, rfl⟩
      · exact (hp _ _ hold₂).elim
    · rcases mem_pushTo.mp h₂ with ⟨rfl, -, -⟩ | hold₂
      · exact (hp _ _ hold₁).elim
      · exact h.apart hold₁ hold₂

end Linked

theorem Sound.linked (h : Sound w q D H T) : Linked w q :=
  ⟨h.queues, fun hp hp' => h.queue_unique hp hp'⟩

namespace Sound

/-- **A page is taken out of its queue.** It is in hand. -/
theorem remove (h : Sound w q D none T) (hp : p ∈ q th b)
    (hdirect : th ∈ D → ∀ i, w.pagesFreeDirect th i ≠ some p) :
    Sound (w.remove th b p) (eraseFrom q th b p) D (some p) T := by
  obtain ⟨hpages, -, hq⟩ := h.queued th b p hp
  have hnodup := (h.queues th b).dlist.nodup
  refine { h with queues := ?_, queued := ?_, held := ?_, owned := ?_, abandoned := ?_,
                  registered := ?_, inRegistry := ?_, direct := ?_ }
  · exact (h.linked.remove hp).queues
  · intro th' b' p' hp'
    obtain ⟨hp'pages, -, hq'⟩ := h.queued th' b' p' (mem_of_mem_eraseFrom hp')
    refine ⟨hp'pages, ?_, hq'⟩
    rintro ⟨⟩
    obtain ⟨rfl, rfl⟩ := h.queue_unique hp (mem_of_mem_eraseFrom hp')
    rw [eraseFrom_self] at hp'
    exact hnodup.not_mem_erase hp'
  · rintro p' ⟨⟩
    exact hpages
  · intro p' hp' hne ho
    have hmem := h.owned p' hp' (by simp) ho
    by_cases heq : w.theap p' = th ∧ (w.desc p').bin = b
    · obtain ⟨rfl, rfl⟩ := heq
      show p' ∈ eraseFrom q (w.theap p') (w.desc p').bin p (w.theap p') (w.desc p').bin
      rw [eraseFrom_self]
      exact (List.mem_erase_of_ne fun heq => hne (congrArg some heq.symm)).mpr hmem
    · show p' ∈ eraseFrom q th b p (w.theap p') (w.desc p').bin
      rwa [eraseFrom_of_ne heq]
  · exact fun p' hp' _ => h.abandoned p' hp' (by simp)
  · intro i b j hbit
    obtain ⟨p', hp', hi, hb, hj, hor⟩ := h.registered i b j hbit
    exact ⟨p', hp', hi, hb, hj, Or.inr (hor.resolve_left (by simp))⟩
  · exact fun hrefused p' hp' _ => h.inRegistry hrefused p' hp' (by simp)
  · intro th' hth' i p' hp'
    obtain ⟨hi, hmem⟩ := h.direct th' hth' i p' hp'
    refine ⟨hi, ?_⟩
    by_cases heq : th' = th ∧ bin (i * miIntptrSize) = b
    · obtain ⟨rfl, rfl⟩ := heq
      rw [eraseFrom_self]
      apply (List.mem_erase_of_ne _).mpr hmem
      rintro rfl
      exact hdirect hth' i hp'
    · rwa [eraseFrom_of_ne heq]

/-- **The page in hand is put in front of a queue.** It is in no registry. -/
theorem pushFront (h : Sound w q D (some p) T)
    (hq : Queued th b (w.theap p) (w.desc p) (w.page p)) (hreg : ¬ w.InRegistry p) :
    Sound (w.pushFront th b p) (pushTo q th b p) D none T := by
  have hout : ∀ th' b', p ∉ q th' b' := fun th' b' hp => (h.queued th' b' p hp).2.1 rfl
  refine { h with queues := ?_, queued := ?_, held := ?_, owned := ?_, abandoned := ?_,
                  registered := ?_, inRegistry := ?_, direct := ?_ }
  · exact (h.linked.pushFront hout).queues
  · intro th' b' p' hp'
    rcases mem_pushTo.mp hp' with ⟨rfl, rfl, rfl⟩ | hp'
    · exact ⟨h.held p' rfl, by simp, hq⟩
    · obtain ⟨hp'pages, -, hq'⟩ := h.queued th' b' p' hp'
      exact ⟨hp'pages, by simp, hq'⟩
  · rintro p' ⟨⟩
  · intro p' hp' _ ho
    rw [mem_pushTo]
    by_cases heq : p' = p
    · subst heq
      exact Or.inl ⟨rfl, hq.theap, hq.bin⟩
    · exact Or.inr (h.owned p' hp' (fun hc => heq (Option.some.inj hc).symm) ho)
  · intro p' hp' _ ho
    apply h.abandoned p' hp' _ ho
    rintro ⟨⟩
    exact ho hq.owned
  · intro i b j hbit
    obtain ⟨p', hp', hi, hb, hj, hor⟩ := h.registered i b j hbit
    refine ⟨p', hp', hi, hb, hj, Or.inr (hor.resolve_left ?_)⟩
    rintro ⟨⟩
    apply hreg
    unfold Process.InRegistry
    rw [hi, hb, hj]
    exact hbit
  · intro hrefused p' hp' _ ho
    apply h.inRegistry hrefused p' hp' _ ho
    rintro ⟨⟩
    exact ho hq.owned
  · intro th' hth' i p' hp'
    obtain ⟨hi, hmem⟩ := h.direct th' hth' i p' hp'
    exact ⟨hi, mem_pushTo.mpr (Or.inr hmem)⟩

/-! ## The direct table -/

theorem clearDirect (h : Sound w q D H T) : Sound (w.clearDirect th p) q D H T := by
  refine { h with direct := ?_ }
  intro th' hth' i p' hp'
  apply h.direct th' hth' i p'
  by_cases hth : th' = th
  · subst hth
    simp only [Process.clearDirect, Function.update_self] at hp'
    split at hp'
    · cases hp'
    · exact hp'
  · simpa only [Process.clearDirect, Function.update_of_ne hth] using hp'

theorem clearDirect_ne (i : ℕ) : (w.clearDirect th p).pagesFreeDirect th i ≠ some p := by
  simp only [Process.clearDirect, Function.update_self]
  split
  · simp
  · assumption

theorem setDirect {wsize : ℕ} (h : Sound w q D H T) (hw : wsize ≤ miSmallWsizeMax)
    (hp : p ∈ q th (bin (wsize * miIntptrSize))) : Sound (w.setDirect th wsize p) q D H T := by
  refine { h with direct := ?_ }
  intro th' hth' i p' hp'
  by_cases hth : th' = th
  · subst hth
    simp only [Process.setDirect, Function.update_self] at hp'
    by_cases hi : i = wsize
    · subst hi
      rw [Function.update_self] at hp'
      cases hp'
      exact ⟨hw, hp⟩
    · rw [Function.update_of_ne hi] at hp'
      exact h.direct th' hth' i p' hp'
  · simp only [Process.setDirect, Function.update_of_ne hth] at hp'
    exact h.direct th' hth' i p' hp'

end Sound

theorem Steps.remove (hth : th ∈ A) : Steps S A w q (w.remove th b p) (eraseFrom q th b p) :=
  Steps.of_rfl rfl rfl rfl (fun _ _ h => h) rfl (eraseFrom_others hth)

theorem Steps.pushFront (hth : th ∈ A) : Steps S A w q (w.pushFront th b p) (pushTo q th b p) :=
  Steps.of_rfl rfl rfl rfl (fun _ _ h => h) rfl (pushTo_others hth)

end MimallocRs
