import MimallocRs.Page.Partly

/-!
# The rounds of a claiming free

`free_try_collect_mt` on a page that its push has claimed, while other threads push. Every round but
the last ends with a failed `try_unown`. In the first round that may be for the block that the free
itself has pushed, which a partial collect leaves queued; in any other round the queue has been
collected, so that another block has been pushed in the same round. Hence there are at most two rounds
more than there are further pushes (`freeTryCollectMt_rounds`).
-/

namespace MimallocRs

open Interleave Prog Crowd

namespace Crowd

/-- The owner id says that the page is registered. -/
def Mapped (s : Crowd) : Prop :=
  s.page.xthreadId - s.page.xthreadId % (miPageFlagMask + 1) = miThreadidAbandonedMapped

instance (s : Crowd) : Decidable s.Mapped := inferInstanceAs (Decidable (_ = _))

/-- The page with another owner id. -/
def withId (s : Crowd) (id : ℕ) : Crowd := { s with page := { s.page with xthreadId := id } }

/-- A claimed page between two calls of a round: `n` blocks are live or have been pushed since the
claim, `f` rounds have ended, and the blocks `xs` are queued. -/
structure InRound (s : Crowd) (n f : ℕ) (xs : List Blk) : Prop where
  holds : ∃ fr lo, s.Holds none fr lo xs []
  owned : s.page.xthreadFree.owned = true
  listed : s.registered = true ↔ s.Mapped
  released : s.released = false
  twice : s.twice = false
  fails : s.fails = f
  total : s.live.card + s.pushed.length = n

variable {s s' : Crowd} {n f : ℕ} {xs xs' l : List Blk}

theorem InRound.goes (h : s.InRound n f xs) (hgoes : Goes s s' l)
    (hholds : ∃ fr lo, s'.Holds none fr lo xs' []) : s'.InRound n f xs' := by
  refine ⟨hholds, hgoes.owned, ?_, hgoes.released.trans h.released, hgoes.twice.trans h.twice,
    hgoes.fails.trans h.fails, ?_⟩
  · unfold Mapped
    rw [hgoes.registered, hgoes.xthreadId]
    exact h.listed
  · have hcard := hgoes.card
    have htotal := h.total
    rw [hgoes.pushed, List.length_append]
    omega

/-- An event of the owner in a round. -/
theorem InRound.act {α β : Type} {e : PageAct β} {k : β → Prog PageAct α}
    {Q : α → Crowd → Prop} (h : s.InRound n f xs)
    (hstep : ∀ s₁ l fails, Pushes s s₁ l → s₁.InRound n f (l ++ xs) →
      ∃ b s', s₁.execOwner e fails = some (b, s') ∧ CrowdEnds (k b) s' Q) :
    CrowdEnds (.act e k) s Q := by
  obtain ⟨fr, lo, hholds⟩ := h.holds
  apply CrowdEnds.act hholds h.owned
  intro s₁ l fails hpush h₁
  exact hstep s₁ l fails hpush (h.goes hpush.toGoes ⟨fr, lo, h₁⟩)

/-- While the blocks pushed so far grow from `ps` to `ps'`, at most as many blocks as there are in `xs`
come to be among the queued blocks `xs'` otherwise. -/
structure Adds (ps xs ps' xs' : List Blk) : Prop where
  pushed : ps.length ≤ ps'.length
  queued : xs'.length + ps.length ≤ xs.length + ps'.length

theorem Adds.trans {ps ps' ps'' xs'' : List Blk} (h : Adds ps xs ps' xs')
    (h' : Adds ps' xs' ps'' xs'') : Adds ps xs ps'' xs'' := by
  have hqueued := h.queued
  have hqueued' := h'.queued
  exact ⟨h.pushed.trans h'.pushed, by omega⟩

theorem Goes.adds (h : Goes s s' l) : Adds s.pushed xs s'.pushed (l ++ xs) := by
  constructor <;> rw [h.pushed, List.length_append]
  · exact Nat.le_add_left ..
  · rw [List.length_append]
    omega

/-- If no block is live, other threads push none. -/
theorem Goes.of_empty (h : Goes s s' l) (hempty : s.live = ∅) : l = [] ∧ s'.live = ∅ := by
  have hcard := h.card
  rw [hempty, Finset.card_empty] at hcard
  exact ⟨List.eq_nil_of_length_eq_zero (by omega), Finset.card_eq_zero.mp (by omega)⟩

theorem InRound.of_empty (h : s.InRound n f []) (hempty : s.live = ∅) (h' : s'.InRound n f xs')
    (hadds : Adds s.pushed [] s'.pushed xs') : s'.live = ∅ ∧ xs' = [] := by
  have htotal := h.total
  have htotal' := h'.total
  have hpushed := hadds.pushed
  have hqueued := hadds.queued
  rw [hempty, Finset.card_empty] at htotal
  rw [List.length_nil] at hqueued
  exact ⟨Finset.card_eq_zero.mp (by omega), List.eq_nil_of_length_eq_zero (by omega)⟩

/-- A collect leaves only what has been pushed since it has begun. -/
theorem Collected.inRound {old : List Blk} (h : s.InRound n f xs) (hc : s.Collected old s') :
    ∃ xs', s'.InRound n f xs' ∧ Adds s.pushed [] s'.pushed xs' := by
  obtain ⟨early, late, fr, hgoes, hholds, -⟩ := hc
  have hadds : Adds s.pushed [] s'.pushed (late ++ early ++ []) := hgoes.adds
  refine ⟨late, h.goes hgoes ⟨_, _, hholds⟩, hadds.pushed, ?_⟩
  rw [hgoes.pushed, List.length_append, List.length_append, List.length_nil]
  omega

end Crowd

namespace Page

variable {s : Crowd} {n f : ℕ} {xs : List Blk}

theorem collect_inRound (h : s.InRound n f xs) :
    CrowdEnds collect s fun _ s' => ∃ xs', s'.InRound n f xs' ∧ Adds s.pushed [] s'.pushed xs' := by
  obtain ⟨fr, lo, hholds⟩ := h.holds
  apply (collect_crowd hholds h.owned).mono
  exact fun _ s' hc => hc.inRound h

theorem collectRound_inRound {partly : Bool} {b : Blk} (h : s.InRound n f xs)
    (hb : partly = true → ∃ pre rest, xs = pre ++ b :: rest) :
    CrowdEnds (collectRound partly b) s fun _ s' => ∃ xs', s'.InRound n f xs' ∧
      s.pushed.length ≤ s'.pushed.length ∧ (partly = false → Adds s.pushed [] s'.pushed xs') := by
  unfold collectRound
  cases partly with
  | true =>
    obtain ⟨pre, rest, rfl⟩ := hb rfl
    obtain ⟨fr, lo, hholds⟩ := h.holds
    apply (collectPartly_crowd hholds h.owned).mono
    rintro _ s' ⟨l, fr', lo', xs', hgoes, h', -⟩
    refine ⟨xs', h.goes hgoes ⟨_, _, h'⟩, ?_, fun hf => by cases hf⟩
    rw [hgoes.pushed, List.length_append]
    exact Nat.le_add_left ..
  | false =>
    apply (collect_inRound h).mono
    rintro _ s' ⟨xs', h', hadds⟩
    exact ⟨xs', h', hadds.pushed, fun _ => hadds⟩

theorem isFull_inRound (h : s.InRound n f xs) :
    CrowdEnds isFull s fun _ s' => ∃ xs', s'.InRound n f xs' ∧ Adds s.pushed xs s'.pushed xs' := by
  simp only [isFull, Prog.bind_eq, Prog.pure_eq, Prog.perform_bind]
  apply h.act
  intro s₁ l₁ _ hpush₁ h₁
  refine ⟨_, _, rfl, ?_⟩
  have hadds₁ : Adds s.pushed xs s₁.pushed (l₁ ++ xs) := hpush₁.toGoes.adds
  split
  · exact .ret ⟨_, h₁, hadds₁⟩
  · apply Ends.bind
    apply (collect_inRound h₁).mono
    rintro _ s₂ ⟨xs₂, h₂, hadds₂⟩
    have hadds₂' : Adds s.pushed xs s₂.pushed xs₂ := by
      have hqueued := hadds₁.queued
      have hqueued₂ := hadds₂.queued
      rw [List.length_nil] at hqueued₂
      exact ⟨hadds₁.pushed.trans hadds₂.pushed, by have hpushed := hadds₁.pushed; omega⟩
    apply h₂.act
    intro s₃ l₃ _ hpush₃ h₃
    refine ⟨_, _, rfl, ?_⟩
    have hadds₃ := hadds₂'.trans hpush₃.toGoes.adds
    split
    · exact .ret ⟨_, h₃, hadds₃⟩
    · apply h₃.act
      intro s₄ l₄ _ hpush₄ h₄
      exact ⟨_, _, rfl, .ret ⟨_, h₄, hadds₃.trans hpush₄.toGoes.adds⟩⟩

theorem isAbandonedMapped_inRound (h : s.InRound n f xs) :
    CrowdEnds isAbandonedMapped s fun r s' => ∃ xs', s'.InRound n f xs' ∧
      Adds s.pushed xs s'.pushed xs' ∧ (r = true ↔ s'.Mapped) := by
  simp only [isAbandonedMapped, Prog.bind_eq, Prog.pure_eq, Prog.perform_bind]
  apply h.act
  intro s₁ l₁ _ hpush₁ h₁
  exact ⟨_, _, rfl, .ret ⟨_, h₁, hpush₁.toGoes.adds, beq_iff_eq⟩⟩

/-- The owner id is restamped, the flags are kept. -/
theorem setOwner_crowd {tid : ℕ} {fr lo : List Blk} (h : s.Holds none fr lo xs [])
    (ho : s.page.xthreadFree.owned = true) :
    CrowdEnds (setOwner tid) s fun _ s' => ∃ s₁ l, Goes s s₁ l ∧ s₁.Holds none fr lo (l ++ xs) [] ∧
      s' = s₁.withId (tid + s.page.xthreadId % (miPageFlagMask + 1)) := by
  simp only [setOwner, iterate, Prog.bind_eq, Prog.pure_eq, Prog.perform_bind]
  apply CrowdEnds.act h ho
  intro s₁ l₁ _ hpush₁ h₁
  refine ⟨_, _, rfl, ?_⟩
  apply Ends.loop_decreasing (fun _ (s' : Crowd) => s'.spurious) (fun old s' => ∃ l, Goes s s' l ∧
    s'.Holds none fr lo (l ++ xs) [] ∧ old = s.page.xthreadId)
  · rintro _ s₂ ⟨l₂, hgoes₂, h₂, rfl⟩
    apply CrowdEnds.act h₂ hgoes₂.owned
    intro s₃ l₃ fails hpush₃ h₃
    have hgoes₃ := hgoes₂.trans hpush₃.toGoes
    rw [← List.append_assoc] at h₃
    by_cases hspurious : fails = true ∧ 0 < s₃.spurious
    · refine ⟨_, _, if_pos hspurious, ?_⟩
      apply Ends.ret
      refine ⟨⟨_, ⟨hgoes₃.pushed, hgoes₃.card, hgoes₃.owned, ?_, hgoes₃.reserved, hgoes₃.capacity,
        hgoes₃.xthreadId, hgoes₃.registered, hgoes₃.released, hgoes₃.fails, hgoes₃.twice⟩, h₃,
        hgoes₃.xthreadId⟩, ?_⟩
      · exact (Nat.sub_le ..).trans hgoes₃.spurious
      · have hle := hpush₃.spurious
        show s₃.spurious - 1 < _
        omega
    · refine ⟨_, _, (if_neg hspurious).trans (if_pos hgoes₃.xthreadId), ?_⟩
      apply Ends.ret
      exact .ret ⟨s₃, _, hgoes₃, h₃, rfl⟩
  · exact ⟨l₁, hpush₁.toGoes, h₁, hpush₁.xthreadId⟩

/-- **A page is registered** only if it is not. -/
theorem reabandonMapped_inRound (h : s.InRound n f xs) :
    CrowdEnds reabandonMapped s fun _ s' => ∃ xs', s'.InRound n f xs' ∧
      Adds s.pushed xs s'.pushed xs' := by
  simp only [reabandonMapped, Prog.bind_eq, Prog.pure_eq, Prog.perform_bind]
  apply Ends.bind
  apply (isFull_inRound h).mono
  rintro r s₁ ⟨xs₁, h₁, hadds₁⟩
  cases r with
  | true => exact .ret ⟨xs₁, h₁, hadds₁⟩
  | false =>
    apply Ends.bind
    apply (isAbandonedMapped_inRound h₁).mono
    rintro r s₂ ⟨xs₂, h₂, hadds₂, hmapped⟩
    have hadds := hadds₁.trans hadds₂
    cases r with
    | true => exact .ret ⟨xs₂, h₂, hadds⟩
    | false =>
      apply h₂.act
      intro s₃ l₃ _ hpush₃ h₃
      refine ⟨_, _, rfl, ?_⟩
      have hnot : s₃.registered = false := by
        rw [hpush₃.registered]
        have hnot : ¬ s₂.registered = true := fun hr => by
          cases hmapped.mpr (h₂.listed.mp hr)
        simpa using hnot
      obtain ⟨fr, lo, hholds⟩ := h₃.holds
      have hregistered : Crowd.Holds { s₃ with registered := true, twice := s₃.twice || s₃.registered }
          none fr lo (l₃ ++ xs₂) [] := hholds
      apply (setOwner_crowd hregistered h₃.owned).mono
      rintro _ _ ⟨s₄, l₄, hgoes₄, h₄, rfl⟩
      have hlists := h₄.lists
      refine ⟨_, ⟨⟨fr, lo, ⟨hlists.free, hlists.localFree, hlists.queue, hlists.captured, hlists.nodup,
        hlists.lt, hlists.used, hlists.capacity_le⟩, h₄.live⟩, hgoes₄.owned, iff_of_true hgoes₄.registered ?_,
        hgoes₄.released.trans h₃.released, ?_, hgoes₄.fails.trans h₃.fails, ?_⟩,
        (hadds.trans hpush₃.toGoes.adds).trans hgoes₄.adds⟩
      · show (4 + _ % 4) - (4 + _ % 4) % 4 = 4
        omega
      · show s₄.twice = false
        rw [hgoes₄.twice]
        show (s₃.twice || s₃.registered) = false
        rw [h₃.twice, hnot]
        rfl
      · have hcard : s₄.live.card + l₄.length = s₃.live.card := hgoes₄.card
        have hpushed : s₄.pushed = l₄ ++ s₃.pushed := hgoes₄.pushed
        have htotal := h₃.total
        show s₄.live.card + s₄.pushed.length = n
        rw [hpushed, List.length_append]
        omega

/-- Ownership is given up if nothing is queued. -/
theorem tryUnown_inRound (h : s.InRound n f xs) :
    CrowdEnds tryUnown s fun r s' => ∃ xs', Adds s.pushed xs s'.pushed xs' ∧
      if r then s'.page.xthreadFree = ⟨none, false⟩ ∧ s'.twice = false ∧ s'.released = false ∧
        s'.fails = f
      else s'.InRound n (f + 1) xs' ∧ 0 < xs'.length := by
  apply h.act
  intro s₁ l₁ fails hpush₁ h₁
  obtain ⟨fr, lo, hholds⟩ := h₁.holds
  have hword := word_eq hholds h₁.owned
  have hexec := s₁.execOwner_cas ⟨none, true⟩ ⟨none, false⟩ fails
  by_cases hnil : l₁ ++ xs = []
  · rw [hnil] at hword
    exact ⟨_, _, hexec.trans (if_pos hword),
      .ret ⟨_, hpush₁.toGoes.adds, rfl, h₁.twice, h₁.released, h₁.fails⟩⟩
  · have hne : s₁.page.xthreadFree ≠ ⟨none, true⟩ := by
      rw [hword]
      intro hc
      exact hnil (List.head?_eq_none_iff.mp (congrArg Tf.block hc))
    refine ⟨_, _, hexec.trans (if_neg hne), .ret ⟨_, hpush₁.toGoes.adds, ?_⟩⟩
    exact ⟨⟨⟨fr, lo, hholds⟩, h₁.owned, h₁.listed, h₁.released, h₁.twice, congrArg (· + 1) h₁.fails,
      h₁.total⟩, List.length_pos_of_ne_nil hnil⟩

/-- How a page ends that has been released. -/
structure Gone (s : Crowd) (f m : ℕ) (s' : Crowd) : Prop where
  released : s'.released = true
  registered : s'.registered = false
  twice : s'.twice = false
  fails : s'.fails = f
  pushed : m ≤ s'.pushed.length
  live : s'.live = ∅
  queue : s'.page.xthreadFree.block = none

/-- **An empty page leaves the registry and is released.** -/
theorem unabandon_release_inRound (h : s.InRound n f []) (hempty : s.live = ∅) :
    CrowdEnds (unabandonIfMapped.bind fun _ => perform .release) s fun _ s' =>
      Gone s f s.pushed.length s' := by
  have release : ∀ (s₁ : Crowd) (fr lo : List Blk), s₁.Holds none fr lo [] [] →
      s₁.page.xthreadFree.owned = true → s₁.live = ∅ → s₁.registered = false → s₁.twice = false →
      s₁.fails = f → s.pushed.length ≤ s₁.pushed.length →
      CrowdEnds (perform .release) s₁ fun _ s' => Gone s f s.pushed.length s' := by
    intro s₁ fr lo h₁ ho hempty₁ hregistered htwice hfails hpushed
    apply CrowdEnds.act h₁ ho
    intro s₂ l _ hpush h₂
    obtain ⟨rfl, hempty₂⟩ := hpush.toGoes.of_empty hempty₁
    refine ⟨_, _, rfl, .ret ⟨rfl, hpush.registered.trans hregistered, hpush.twice.trans htwice,
      hpush.fails.trans hfails, ?_, hempty₂, congrArg Tf.block (word_eq h₂ hpush.owned)⟩⟩
    rw [hpush.pushed]
    exact hpushed
  simp only [unabandonIfMapped, Prog.bind_eq, Prog.pure_eq]
  apply Ends.bind
  apply Ends.bind
  apply (isAbandonedMapped_inRound h).mono
  rintro r s₁ ⟨xs₁, h₁, hadds₁, hmapped⟩
  obtain ⟨hempty₁, rfl⟩ := h.of_empty hempty h₁ hadds₁
  obtain ⟨fr, lo, hholds₁⟩ := h₁.holds
  cases r with
  | true =>
    apply CrowdEnds.act hholds₁ h₁.owned
    intro s₂ l₂ _ hpush₂ h₂
    obtain ⟨rfl, hempty₂⟩ := hpush₂.toGoes.of_empty hempty₁
    refine ⟨_, _, rfl, .ret (release { s₂ with registered := false } fr lo h₂ hpush₂.owned hempty₂ rfl
      (hpush₂.twice.trans h₁.twice) (hpush₂.fails.trans h₁.fails) ?_)⟩
    show _ ≤ s₂.pushed.length
    rw [hpush₂.pushed]
    exact hadds₁.pushed
  | false =>
    have hregistered : ¬ s₁.registered = true := fun hr => by cases hmapped.mpr (h₁.listed.mp hr)
    exact .ret (release s₁ fr lo hholds₁ h₁.owned hempty₁ (by simpa using hregistered) h₁.twice
      h₁.fails hadds₁.pushed)

/-- A round of `free_try_collect_mt`. -/
def tryCollectRound (small : Bool) (mtFree : Blk) (first : Bool) : Prog PageAct (Bool ⊕ Unit) := do
  collectRound (first && small) mtFree
  if ← perform .isAllFree then
    unabandonIfMapped
    perform .release
    return .inr ()
  else
    reabandonMapped
    if ← tryUnown then return .inr () else return .inl false

theorem freeTryCollectMt_eq (small : Bool) (b : Blk) :
    freeTryCollectMt small b = iterate (tryCollectRound small b) true := rfl

/-- What a claiming free leaves: the page is released, with no block left, or is not owned, with
nothing queued. -/
def Settled (s : Crowd) : Prop :=
  s.released = true ∧ s.registered = false ∧ s.live = ∅ ∧ s.page.xthreadFree.block = none ∨
    s.released = false ∧ s.page.xthreadFree = ⟨none, false⟩

/-- The state between two rounds, of which `f` have failed so far: the first one may fail without a
further push. -/
structure BeforeRound (n : ℕ) (b : Blk) (first : Bool) (f : ℕ) (s : Crowd) : Prop where
  inRound : ∃ xs, s.InRound n f xs ∧ (first = true → ∃ pre rest, xs = pre ++ b :: rest)
  fails : f + first.toNat ≤ s.pushed.length + 1

/-- **A round** settles the page, or fails. -/
theorem tryCollectRound_ends {b : Blk} {first : Bool} (h : BeforeRound n b first f s) (small : Bool) :
    CrowdEnds (tryCollectRound small b first) s fun r s' => f ≤ s'.pushed.length + 1 ∧
      s'.twice = false ∧ match r with
        | .inl first' => first' = false ∧ BeforeRound n b false (f + 1) s' ∧
            first'.toNat + s'.live.card < first.toNat + s.live.card
        | .inr _ => Settled s' := by
  obtain ⟨⟨xs, h₁, hfirst⟩, hfails⟩ := h
  simp only [tryCollectRound, Prog.bind_eq, Prog.pure_eq, Prog.perform_bind]
  apply Ends.bind
  apply (collectRound_inRound h₁ ?_).mono
  · rintro _ s₂ ⟨xs₂, h₂, hpushed₂, hadds₂⟩
    apply h₂.act
    intro s₃ l₃ _ hpush₃ h₃
    refine ⟨_, _, rfl, ?_⟩
    have hadds₃ : Adds s₂.pushed xs₂ s₃.pushed (l₃ ++ xs₂) := hpush₃.toGoes.adds
    have hpushed₃ := hadds₃.pushed
    by_cases hused : (s₃.page.used == 0) = true
    · rw [if_pos hused]
      obtain ⟨fr₃, lo₃, hholds₃⟩ := h₃.holds
      have hcount := hholds₃.used_eq
      have hnone : s₃.page.used = 0 := by simpa using hused
      have hempty : s₃.live = ∅ := Finset.card_eq_zero.mp (by omega)
      have hnil : l₃ ++ xs₂ = [] := List.eq_nil_of_length_eq_zero (by omega)
      rw [hnil] at h₃
      have hbind : (unabandonIfMapped.bind fun _ => .act .release fun _ => .ret (.inr ())) =
          (unabandonIfMapped.bind fun _ => perform .release).bind fun _ =>
            (.ret (.inr ()) : Prog PageAct (Bool ⊕ Unit)) := by
        rw [Prog.bind_assoc]
        rfl
      rw [hbind]
      apply Ends.bind
      apply (unabandon_release_inRound h₃ hempty).mono
      intro _ s' hgone
      have hpushed' := hgone.pushed
      exact .ret ⟨by omega, hgone.twice, Or.inl ⟨hgone.released, hgone.registered, hgone.live,
        hgone.queue⟩⟩
    · rw [if_neg hused]
      apply Ends.bind
      apply (reabandonMapped_inRound h₃).mono
      rintro _ s₄ ⟨xs₄, h₄, hadds₄⟩
      apply Ends.bind
      apply (tryUnown_inRound h₄).mono
      rintro r s₅ ⟨xs₅, hadds₅, hr⟩
      have hadds := (hadds₃.trans hadds₄).trans hadds₅
      have hpushed := hadds.pushed
      cases r with
      | true =>
        obtain ⟨hword, htwice, hreleased, -⟩ := hr
        exact .ret ⟨by omega, htwice, Or.inr ⟨hreleased, hword⟩⟩
      | false =>
        obtain ⟨h₅, hpos⟩ := hr
        have htotal₁ := h₁.total
        have htotal₅ := h₅.total
        -- except in the first round, what is queued has been pushed since the collect
        have hmore : first.toNat + (s₅.pushed.length - s.pushed.length) ≥ 1 := by
          cases first with
          | true => exact Nat.le_add_right 1 _
          | false =>
            have hqueued := ((hadds₂ rfl).trans hadds).queued
            rw [List.length_nil] at hqueued
            omega
        refine .ret ⟨by omega, h₅.twice, rfl, ⟨⟨xs₅, h₅, fun hc => by cases hc⟩, ?_⟩, ?_⟩
        · show f + 1 + 0 ≤ _
          omega
        · show 0 + s₅.live.card < _
          omega
  · intro hpartly
    apply hfirst
    rw [Bool.and_eq_true] at hpartly
    exact hpartly.1

/-- A page that the push of `b` has claimed. -/
structure Claimed (s : Crowd) (b : Blk) : Prop where
  holds : ∃ fr lo pre rest, s.Holds none fr lo (pre ++ b :: rest) []
  owned : s.page.xthreadFree.owned = true
  listed : s.registered = true ↔ s.Mapped
  released : s.released = false
  pushed : s.pushed = []
  fails : s.fails = 0
  twice : s.twice = false

theorem Claimed.beforeRound {b : Blk} (h : Claimed s b) : BeforeRound s.live.card b true 0 s := by
  obtain ⟨fr, lo, pre, rest, hholds⟩ := h.holds
  refine ⟨⟨_, ⟨⟨fr, lo, hholds⟩, h.owned, h.listed, h.released, h.twice, h.fails, ?_⟩,
    fun _ => ⟨pre, rest, rfl⟩⟩, ?_⟩
  · rw [h.pushed]
    rfl
  · rw [h.pushed]
    rfl

/-- The number of rounds: there is one more than have failed. -/
theorem rounds_le {b : Blk} {small first : Bool} {m : ℕ} {r : Unit} {s' : Crowd}
    (hr : Rounds crowdMachine () (tryCollectRound small b) first s m r s')
    (h : BeforeRound n b first f s) : f + m ≤ s'.pushed.length + 2 := by
  induction hr generalizing f with
  | last hlast =>
    have hround := (tryCollectRound_ends h small).result hlast
    omega
  | again hfailed _ ih =>
    obtain ⟨-, -, rfl, hbefore, -⟩ := (tryCollectRound_ends h small).result hfailed
    have hle := ih hbefore
    omega

end Page

open Page

/-- **The rounds of a claiming free.** `free_try_collect_mt` comes to an end, whatever other threads
push. It registers no page that is registered, and leaves the page unregistered and released with no
block live or queued, or not owned with nothing queued. If `k` further blocks have been pushed, it has
executed its loop body at most `k + 2` times. -/
theorem freeTryCollectMt_rounds {s : Crowd} {b : Blk} (h : Claimed s b) (small : Bool) :
    CrowdEnds (freeTryCollectMt small b) s (fun _ s' => s'.twice = false ∧ Settled s') ∧
      ∀ m s', Rounds crowdMachine () (tryCollectRound small b) true s m () s' →
        m ≤ s'.pushed.length + 2 := by
  constructor
  · rw [freeTryCollectMt_eq, iterate]
    apply Ends.loop_decreasing (fun (first : Bool) (s' : Crowd) => first.toNat + s'.live.card)
      (fun first s' => ∃ f, BeforeRound s.live.card b first f s')
    · rintro first s₁ ⟨f, h₁⟩
      apply (tryCollectRound_ends h₁ small).mono
      intro r s' hr
      obtain ⟨-, htwice, hr⟩ := hr
      cases r with
      | inl first' =>
        obtain ⟨rfl, hbefore, hless⟩ := hr
        exact ⟨⟨f + 1, hbefore⟩, hless⟩
      | inr c => exact .ret ⟨htwice, hr⟩
    · exact ⟨0, h.beforeRound⟩
  · intro m s' hr
    have hle := rounds_le hr h.beforeRound
    omega

/-- The claiming free of the block 1, while the block 2 may be pushed. -/
theorem freeTryCollectMt_rounds_three :
    CrowdEnds (freeTryCollectMt true 1) .ofThree (fun _ s' => s'.twice = false ∧ Settled s') ∧
      ∀ m s', Rounds crowdMachine () (tryCollectRound true 1) true .ofThree m () s' →
        m ≤ s'.pushed.length + 2 :=
  freeTryCollectMt_rounds ⟨⟨[], [], [], [0], Crowd.ofThree_holds⟩, rfl, by decide, rfl, rfl, rfl, rfl⟩
    true

end MimallocRs
