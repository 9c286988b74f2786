import MimallocRs.Page.Crowd

/-!
# The partial collect

`collect_partly` and `collect` of a page that is in use by other threads. A collect moves to the
owner's lists every block of the page that is not live, except for those that are pushed after it
has taken the queue (`Collected`). Whether a partial collect comes first makes no difference, and a
partial collect moves blocks from one list to another only (`collectPartly_agrees`).
-/

namespace MimallocRs

open Interleave Prog Crowd

namespace Crowd

/-- A collect has moved the blocks `old`, and those that have been pushed before it has taken the
queue, to `free`. The blocks pushed later are queued. -/
def Collected (s : Crowd) (old : List Blk) (s' : Crowd) : Prop :=
  ∃ early late fr, Goes s s' (late ++ early) ∧ s'.Holds none fr [] late [] ∧
    fr.Perm (old ++ early)

/-- Every block is still on a list, or live. -/
def Conserved (s : Crowd) (old : List Blk) (s' : Crowd) : Prop :=
  ∃ l fr lo xs, Goes s s' l ∧ s'.Holds none fr lo xs [] ∧ (fr ++ lo ++ xs).Perm (old ++ l)

end Crowd

namespace Page

variable {s : Crowd} {fr lo xs : List Blk}

/-- The head word of an owned page is that of its queue. -/
theorem word_eq {s : Crowd} {captured : Option Blk} {cap : List Blk}
    (h : s.Holds captured fr lo xs cap) (ho : s.page.xthreadFree.owned = true) :
    s.page.xthreadFree = ⟨xs.head?, true⟩ := by
  have hblock := h.lists.queue.head_eq
  cases hword : s.page.xthreadFree with
  | mk block owned =>
    rw [hword] at hblock ho
    exact congrArg₂ Tf.mk hblock ho

/-- **The queue is captured**, however often others have pushed in between. -/
theorem capture_crowd (h : s.Holds none fr lo xs []) (ho : s.page.xthreadFree.owned = true) :
    CrowdEnds capture s fun r s' => ∃ l, Goes s s' l ∧ s'.Holds r fr lo [] (l ++ xs) := by
  simp only [capture, iterate, Prog.bind_eq, Prog.pure_eq, Prog.perform_bind]
  apply Ends.loop_decreasing (fun (_ : Unit) (s' : Crowd) => s'.live.card + s'.spurious)
    (fun _ s' => ∃ l, Goes s s' l ∧ s'.Holds none fr lo (l ++ xs) [])
  · rintro _ s₁ ⟨l₁, hgoes₁, h₁⟩
    apply CrowdEnds.act h₁ hgoes₁.owned
    intro s₂ l₂ _ hpush₂ h₂
    refine ⟨_, _, rfl, ?_⟩
    have hgoes₂ := hgoes₁.trans hpush₂.toGoes
    rw [← List.append_assoc] at h₂
    have hword₂ := word_eq h₂ hgoes₂.owned
    cases hblock : s₂.page.xthreadFree.block with
    | none =>
      apply Ends.ret
      apply Ends.ret
      have hnil := h₂.lists.queue
      rw [hblock, Chain.none_iff] at hnil
      rw [hnil] at h₂
      refine ⟨_, hgoes₂, ?_⟩
      rwa [hnil]
    | some tf =>
      apply CrowdEnds.act h₂ hgoes₂.owned
      intro s₃ l₃ fails hpush₃ h₃
      have hgoes₃ := hgoes₂.trans hpush₃.toGoes
      rw [← List.append_assoc] at h₃
      have hword₃ := word_eq h₃ hgoes₃.owned
      have hcard₂ := hpush₂.card
      have hcard₃ := hpush₃.card
      have hspurious₂ := hpush₂.spurious
      have hspurious₃ := hpush₃.spurious
      by_cases hspurious : True ∧ fails = true ∧ 0 < s₃.spurious
      · refine ⟨_, _, if_pos (by simpa using hspurious), ?_⟩
        apply Ends.ret
        refine ⟨⟨_, ⟨hgoes₃.pushed, hgoes₃.card, hgoes₃.owned, ?_, hgoes₃.reserved, hgoes₃.capacity,
          hgoes₃.xthreadId, hgoes₃.registered, hgoes₃.released, hgoes₃.fails, hgoes₃.twice⟩,
          h₃⟩, ?_⟩
        · exact (Nat.sub_le ..).trans hgoes₃.spurious
        · show s₃.live.card + (s₃.spurious - 1) < _
          omega
      by_cases heq : s₃.page.xthreadFree = s₂.page.xthreadFree
      · refine ⟨_, _, (if_neg (by simpa using hspurious)).trans (if_pos heq), ?_⟩
        apply Ends.ret
        apply Ends.ret
        have hlists := h₃.lists.capture s₂.page.xthreadFree.owned
        rw [heq, hblock] at hlists
        refine ⟨_, ⟨hgoes₃.pushed, hgoes₃.card, hgoes₂.owned, hgoes₃.spurious, hgoes₃.reserved,
          hgoes₃.capacity, hgoes₃.xthreadId, hgoes₃.registered, hgoes₃.released, hgoes₃.fails,
          hgoes₃.twice⟩, hlists, fun b => ?_⟩
        have hlive := h₃.live b
        simpa using hlive
      · refine ⟨_, _, (if_neg (by simpa using hspurious)).trans (if_neg heq), ?_⟩
        apply Ends.ret
        refine ⟨⟨_, ⟨hgoes₃.pushed, hgoes₃.card, hgoes₃.owned, hgoes₃.spurious, hgoes₃.reserved,
          hgoes₃.capacity, hgoes₃.xthreadId, hgoes₃.registered, hgoes₃.released, hgoes₃.fails,
          hgoes₃.twice⟩, h₃⟩, ?_⟩
        -- the word has changed, so that a block has been pushed
        have hpos : 0 < l₃.length := by
          apply List.length_pos_of_ne_nil
          intro hnil
          rw [hnil, List.nil_append] at hword₃
          exact heq (hword₃.trans hword₂.symm)
        show s₃.live.card + s₃.spurious < _
        omega
  · exact ⟨[], .refl ho, h⟩

/-- The captured blocks are moved to `free`. -/
theorem spliceAll_crowd {tf : Blk} {l : List Blk} (h : s.Holds (some tf) fr lo xs (tf :: l))
    (ho : s.page.xthreadFree.owned = true) :
    CrowdEnds (spliceAll tf) s fun _ s' => ∃ late fr', Goes s s' late ∧
      s'.Holds none fr' lo (late ++ xs) [] ∧ fr'.Perm (fr ++ tf :: l) := by
  simp only [spliceAll, iterate, Prog.bind_eq, Prog.pure_eq, Prog.perform_bind]
  induction l generalizing s tf fr xs with
  | nil =>
    apply Ends.loop_once
    apply CrowdEnds.act h ho
    intro s₁ l₁ _ hpush h₁
    refine ⟨_, _, rfl, ?_⟩
    have hlists := h₁.lists.splice
    have hnone : (s₁.page.splice tf).1 = none := hlists.captured
    rw [hnone] at hlists ⊢
    apply Ends.ret
    apply Ends.ret
    refine ⟨l₁, tf :: fr, ?_, ⟨hlists, fun b => ?_⟩, ?_⟩
    · exact ⟨hpush.pushed, hpush.card, hpush.owned, hpush.spurious, hpush.reserved, hpush.capacity,
        hpush.xthreadId, hpush.registered, hpush.released, hpush.fails, hpush.twice⟩
    · have hlive := h₁.live b
      rw [hlive]
      simp only [List.mem_append, List.mem_cons, List.not_mem_nil]
      tauto
    · exact (List.perm_append_singleton tf fr).symm
  | cons c l ih =>
    apply Ends.loop
    apply Ends.bind
    apply CrowdEnds.act h ho
    intro s₁ l₁ _ hpush h₁
    refine ⟨_, _, rfl, ?_⟩
    have hlists := h₁.lists.splice
    have hsome := hlists.captured.head_eq
    rw [List.head?_cons] at hsome
    rw [hsome] at hlists ⊢
    apply Ends.ret
    have hgoes : Goes s { s₁ with page := (s₁.page.splice tf).2 } l₁ :=
      ⟨hpush.pushed, hpush.card, hpush.owned, hpush.spurious, hpush.reserved, hpush.capacity,
        hpush.xthreadId, hpush.registered, hpush.released, hpush.fails, hpush.twice⟩
    have hmoved : Crowd.Holds { s₁ with page := (s₁.page.splice tf).2 } (some c) (tf :: fr) lo
        (l₁ ++ xs) (c :: l) := by
      refine ⟨hlists, fun b => ?_⟩
      have hlive := h₁.live b
      rw [hlive]
      simp only [List.mem_append, List.mem_cons]
      tauto
    apply (ih hmoved hgoes.owned).mono
    rintro _ s' ⟨late, fr', hgoes', h', hperm⟩
    refine ⟨late ++ l₁, fr', hgoes.trans hgoes', ?_, hperm.trans ?_⟩
    · rwa [List.append_assoc]
    · exact List.perm_middle.symm

/-- `local_free` is put in front of `free`. -/
theorem adoptLocal_crowd (h : s.Holds none fr lo xs []) (ho : s.page.xthreadFree.owned = true) :
    CrowdEnds (perform .adoptLocal) s fun _ s' => ∃ l, Goes s s' l ∧
      s'.Holds none (lo ++ fr) [] (l ++ xs) [] := by
  apply CrowdEnds.act h ho
  intro s₁ l _ hpush h₁
  refine ⟨_, _, rfl, ?_⟩
  apply Ends.ret
  obtain ⟨hblocks, hkept⟩ := adoptLocal_blocks h₁
  exact ⟨l, ⟨hpush.pushed, hpush.card, hkept.owned.trans hpush.owned, hpush.spurious,
    hkept.reserved.trans hpush.reserved, Lists.adoptLocal_capacity.trans hpush.capacity,
    hkept.xthreadId.trans hpush.xthreadId, hpush.registered, hpush.released, hpush.fails,
    hpush.twice⟩, hblocks⟩

/-- **A collect**, while others push. -/
theorem collect_crowd (h : s.Holds none fr lo xs []) (ho : s.page.xthreadFree.owned = true) :
    CrowdEnds collect s fun _ s' => s.Collected (fr ++ lo ++ xs) s' := by
  have adopt : ∀ s₁ early late fr₁, Goes s s₁ (late ++ early) → s₁.Holds none fr₁ lo late [] →
      fr₁.Perm (fr ++ (early ++ xs)) →
      CrowdEnds (perform .adoptLocal) s₁ fun _ s' => s.Collected (fr ++ lo ++ xs) s' := by
    intro s₁ early late fr₁ hgoes h₁ hperm
    apply (adoptLocal_crowd h₁ hgoes.owned).mono
    rintro _ s' ⟨l, hgoes', h'⟩
    refine ⟨early, l ++ late, lo ++ fr₁, ?_, h', ?_⟩
    · rw [List.append_assoc]
      exact hgoes.trans hgoes'
    · rw [List.perm_iff_count]
      intro b
      have hcount := hperm.count_eq b
      simp only [List.count_append] at hcount ⊢
      omega
  simp only [collect, Prog.bind_eq, Prog.perform_bind]
  apply Ends.bind
  apply (capture_crowd h ho).mono
  rintro r s₁ ⟨l, hgoes, h₁⟩
  cases r with
  | none =>
    have hnil := h₁.lists.captured
    rw [Chain.none_iff] at hnil
    rw [hnil] at h₁
    refine adopt s₁ l [] fr hgoes h₁ ?_
    rw [hnil, List.append_nil]
  | some tf =>
    obtain ⟨l', hl', -⟩ := h₁.lists.captured.of_some
    rw [hl'] at h₁
    apply CrowdEnds.act h₁ hgoes.owned
    intro s₂ l₂ _ hpush h₂
    refine ⟨_, _, rfl, ?_⟩
    have hgoes₂ := hgoes.trans hpush.toGoes
    apply Ends.bind
    have hclear : Crowd.Holds { s₂ with page := { s₂.page with freeIsZero := false } } (some tf) fr
        lo (l₂ ++ []) (tf :: l') := ⟨h₂.lists.clearZero, h₂.live⟩
    apply (spliceAll_crowd hclear hgoes₂.owned).mono
    rintro _ s₃ ⟨late, fr', hgoes₃, h₃, hperm⟩
    refine adopt s₃ l (late ++ l₂) fr' ?_ ?_ ?_
    · have hcleared : Goes s { s₂ with page := { s₂.page with freeIsZero := false } } (l₂ ++ l) :=
        ⟨hgoes₂.pushed, hgoes₂.card, hgoes₂.owned, hgoes₂.spurious, hgoes₂.reserved, hgoes₂.capacity,
          hgoes₂.xthreadId, hgoes₂.registered, hgoes₂.released, hgoes₂.fails, hgoes₂.twice⟩
      rw [List.append_assoc]
      exact hcleared.trans hgoes₃
    · rwa [List.append_nil] at h₃
    · rw [hl']
      exact hperm

/-- **A partial collect**, while others push, loses no block and repeats none. -/
theorem collectPartly_crowd {head : Blk} {pre rest : List Blk}
    (h : s.Holds none fr lo (pre ++ head :: rest) []) (ho : s.page.xthreadFree.owned = true) :
    CrowdEnds (collectPartly head) s fun _ s' =>
      s.Conserved (fr ++ lo ++ (pre ++ head :: rest)) s' := by
  simp only [collectPartly, Prog.bind_eq, Prog.pure_eq, Prog.perform_bind]
  apply CrowdEnds.act h ho
  intro s₁ l₁ _ hpush₁ h₁
  refine ⟨_, _, rfl, ?_⟩
  rw [← List.append_assoc] at h₁
  obtain ⟨fr₁, lo₁, hlists, hperm⟩ := h₁.lists.collectBehind
  have hbehind : Crowd.Holds { s₁ with page := s₁.page.collectBehind head } none fr₁ lo₁
      (l₁ ++ pre ++ [head]) [] := by
    refine ⟨hlists, fun c => ?_⟩
    show c ∈ s₁.live ↔ c < (s₁.page.collectBehind head).capacity ∧ _
    rw [h₁.live c, Lists.collectBehind_capacity]
    have hmem := hperm.mem_iff (a := c)
    simp only [List.mem_append, List.mem_cons, List.not_mem_nil, or_false] at hmem ⊢
    tauto
  have hsame : Lists.SameFields s₁.page (s₁.page.collectBehind head) :=
    Lists.collectBehind_sameFields
  have hgoes : Goes s { s₁ with page := s₁.page.collectBehind head } l₁ :=
    ⟨hpush₁.pushed, hpush₁.card, by rw [Lists.collectBehind_xthreadFree]; exact hpush₁.owned,
      hpush₁.spurious, hsame.reserved.trans hpush₁.reserved,
      Lists.collectBehind_capacity.trans hpush₁.capacity, hsame.xthreadId.trans hpush₁.xthreadId,
      hpush₁.registered, hpush₁.released, hpush₁.fails, hpush₁.twice⟩
  apply CrowdEnds.act hbehind hgoes.owned
  intro s₂ l₂ _ hpush₂ h₂
  refine ⟨_, _, rfl, ?_⟩
  have hgoes₂ := hgoes.trans hpush₂.toGoes
  split
  · apply (collect_crowd h₂ hgoes₂.owned).mono
    rintro _ s' ⟨early, late, fr', hgoes', h', hperm'⟩
    refine ⟨late ++ early ++ (l₂ ++ l₁), fr', [], late, hgoes₂.trans hgoes', h', ?_⟩
    rw [List.perm_iff_count]
    intro b
    have hcount := hperm.count_eq b
    have hcount' := hperm'.count_eq b
    simp only [List.count_append, List.count_cons, List.count_nil] at hcount hcount' ⊢
    omega
  · apply Ends.ret
    refine ⟨l₂ ++ l₁, fr₁, lo₁, _, hgoes₂, h₂, ?_⟩
    rw [List.perm_iff_count]
    intro b
    have hcount := hperm.count_eq b
    simp only [List.count_append, List.count_cons, List.count_nil] at hcount ⊢
    omega

/-- A collect after a partial collect has the effect of a collect. -/
theorem collectPartly_then_crowd {head : Blk} {pre rest : List Blk}
    (h : s.Holds none fr lo (pre ++ head :: rest) []) (ho : s.page.xthreadFree.owned = true) :
    CrowdEnds ((collectPartly head).bind fun _ => collect) s fun _ s' =>
      s.Collected (fr ++ lo ++ (pre ++ head :: rest)) s' := by
  apply Ends.bind
  apply (collectPartly_crowd h ho).mono
  rintro _ s₁ ⟨l, fr₁, lo₁, xs₁, hgoes, h₁, hperm⟩
  apply (collect_crowd h₁ hgoes.owned).mono
  rintro _ s' ⟨early, late, fr', hgoes', h', hperm'⟩
  refine ⟨early ++ l, late, fr', ?_, h', hperm'.trans ?_⟩
  · rw [← List.append_assoc]
    exact hgoes.trans hgoes'
  · rw [List.perm_iff_count]
    intro b
    have hcount := hperm.count_eq b
    simp only [List.count_append] at hcount ⊢
    omega

end Page

/-! ## The two collects compared -/

namespace Crowd

/-- A block is on one of the owner's lists. -/
def OnOwnerLists (s : Crowd) (b : Blk) : Prop :=
  ∃ fr lo, Chain s.page.next s.page.free fr ∧ Chain s.page.next s.page.localFree lo ∧ b ∈ fr ++ lo

/-- Of the blocks that others have pushed since `s`, those of `late` are queued, and no others. -/
def Drained (s s' : Crowd) (early late : List Blk) : Prop :=
  s'.pushed = late ++ early ++ s.pushed ∧ Chain s'.page.next s'.page.xthreadFree.block late

variable {s s₁ s₂ : Crowd} {old fr lo xs : List Blk}

theorem Holds.onOwnerLists (h : s.Holds none fr lo xs []) (b : Blk) :
    s.OnOwnerLists b ↔ b ∈ fr ++ lo := by
  constructor
  · rintro ⟨fr', lo', hfr, hlo, hb⟩
    rwa [hfr.unique h.lists.free, hlo.unique h.lists.localFree] at hb
  · exact fun hb => ⟨fr, lo, h.lists.free, h.lists.localFree, hb⟩

/-- Two collects that have found the same blocks pushed leave the same blocks on the owner's lists,
and the same count. -/
theorem Collected.agree (h₁ : s.Collected old s₁) (h₂ : s.Collected old s₂) :
    ∃ early₁ late₁ early₂ late₂, s.Drained s₁ early₁ late₁ ∧ s.Drained s₂ early₂ late₂ ∧
      ((∀ b, b ∈ early₁ ↔ b ∈ early₂) →
        (∀ b, s₁.OnOwnerLists b ↔ s₂.OnOwnerLists b) ∧ s₁.page.used = s₂.page.used) := by
  obtain ⟨early₁, late₁, fr₁, hgoes₁, h₁, hperm₁⟩ := h₁
  obtain ⟨early₂, late₂, fr₂, hgoes₂, h₂, hperm₂⟩ := h₂
  refine ⟨early₁, late₁, early₂, late₂, ⟨hgoes₁.pushed, h₁.lists.queue⟩,
    ⟨hgoes₂.pushed, h₂.lists.queue⟩, fun hsame => ?_⟩
  have hnodup : ∀ {s' : Crowd} {fr' early late : List Blk}, s'.Holds none fr' [] late [] →
      fr'.Perm (old ++ early) → early.Nodup := by
    intro s' fr' early late h' hperm
    have hnd := h'.lists.nodup
    simp only [List.append_nil] at hnd
    exact (List.nodup_append.mp (hperm.nodup_iff.mp (List.nodup_append.mp hnd).1)).2.1
  have hearly : early₁.Perm early₂ :=
    (List.perm_ext_iff_of_nodup (hnodup h₁ hperm₁) (hnodup h₂ hperm₂)).mpr hsame
  have hfr : fr₁.Perm fr₂ := (hperm₁.trans (hearly.append_left old)).trans hperm₂.symm
  constructor
  · intro b
    rw [h₁.onOwnerLists, h₂.onOwnerLists, List.append_nil, List.append_nil]
    exact hfr.mem_iff
  · have hused₁ := h₁.lists.used
    have hused₂ := h₂.lists.used
    have hcap : s₁.page.capacity = s₂.page.capacity := hgoes₁.capacity.trans hgoes₂.capacity.symm
    have hlen := hfr.length_eq
    simp only [List.length_nil] at hused₁ hused₂
    omega

end Crowd

/-- **`collect_partly` agrees with `collect`.** On a page that the push of `head` has claimed, a
partial collect followed by a collect, and a collect alone, come to an end whatever other threads push;
what they leave queued has been pushed meanwhile; and if the same blocks have been pushed early enough
to be collected, they leave the same blocks on the owner's lists, and the same count of used blocks. A
partial collect alone loses no block and repeats none. -/
theorem collectPartly_agrees {s : Crowd} {fr lo pre rest : List Blk} {head : Blk}
    (h : s.Holds none fr lo (pre ++ head :: rest) []) (ho : s.page.xthreadFree.owned = true) :
    CrowdEnds (Page.collectPartly head) s (fun _ s' =>
      s.Conserved (fr ++ lo ++ (pre ++ head :: rest)) s') ∧
    CrowdEnds ((Page.collectPartly head).bind fun _ => Page.collect) s (fun _ _ => True) ∧
    CrowdEnds Page.collect s (fun _ _ => True) ∧
    ∀ s₁ s₂, Result crowdMachine () ((Page.collectPartly head).bind fun _ => Page.collect) s () s₁ →
      Result crowdMachine () Page.collect s () s₂ →
      ∃ early₁ late₁ early₂ late₂, s.Drained s₁ early₁ late₁ ∧ s.Drained s₂ early₂ late₂ ∧
        ((∀ b, b ∈ early₁ ↔ b ∈ early₂) →
          (∀ b, s₁.OnOwnerLists b ↔ s₂.OnOwnerLists b) ∧ s₁.page.used = s₂.page.used) := by
  have hthen := Page.collectPartly_then_crowd h ho
  have hcollect := Page.collect_crowd h ho
  refine ⟨Page.collectPartly_crowd h ho, hthen.mono fun _ _ _ => trivial,
    hcollect.mono fun _ _ _ => trivial, fun s₁ s₂ h₁ h₂ => ?_⟩
  exact (hthen.result h₁).agree (hcollect.result h₂)

/-- A page of three blocks: 1 has just been pushed, 0 is queued behind it, and 2 is live. -/
def Crowd.ofThree : Crowd where
  page := ⟨0, none, none, ⟨some 1, true⟩, 3, 3, 3, 16, false, fun b => if b = 1 then some 0 else none⟩
  live := {2}
  registered := false
  released := false
  spurious := 1
  pushed := []
  fails := 0
  twice := false

theorem Crowd.ofThree_holds : Crowd.ofThree.Holds none [] [] ([] ++ 1 :: [0]) [] := by
  refine ⟨⟨rfl, rfl, ⟨rfl, rfl, rfl⟩, rfl, by decide, by decide, rfl, by decide⟩, fun b => ?_⟩
  show b ∈ ({2} : Finset ℕ) ↔ b < 3 ∧ b ∉ [1, 0]
  rw [Finset.mem_singleton]
  simp only [List.mem_cons, List.not_mem_nil, or_false, not_or]
  omega

/-- The partial collect of that page. -/
theorem collectPartly_agrees_three :
    CrowdEnds (Page.collectPartly 1) .ofThree (fun _ s' => Crowd.ofThree.Conserved [1, 0] s') :=
  (collectPartly_agrees Crowd.ofThree_holds rfl).1

end MimallocRs
