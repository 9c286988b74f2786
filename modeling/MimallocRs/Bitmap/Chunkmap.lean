import MimallocRs.Bitmap.Shared
import MimallocRs.Bitmap.Words
import MimallocRs.Foundations.Interleave.Outline
import Mathlib.Data.Set.Lattice

/-!
# What the chunkmap hides

A search skips the chunks that the chunkmap does not mark. A field with a set bit is noted while
its chunk is marked, or while a running call has still to mark the chunk or to look at the field
again. The calls keep every field noted, except that the roll-back of a failed claim sets bits
without looking at the chunkmap. In the runs in which bits are only set in noted fields, no chunk
is hidden once all calls have returned (`chunkmap_hides_nothing`); a roll-back behind the back of
`chunkmap_clear_if_empty` hides a chunk (`chunkmap_hides_chunk`).
-/

namespace MimallocRs

open Interleave

variable {Tid : Type} [DecidableEq Tid] {cc : ℕ} {s : BitShared Tid} {t : Tid} {l : Loc}

/-! ## Words as sets of marks -/

theorem Loc.marks_and_not {v w : BitVec 64} : l.marks (v &&& ~~~w) = l.marks v \ l.marks w := by
  cases l with
  | map f =>
    ext c
    simp only [marks, Set.mem_ofPred_eq, Set.mem_sdiff, BitVec.getLsbD_and, BitVec.getLsbD_not,
      Bool.and_eq_true, Bool.not_eq_true', decide_eq_true_eq]
    have hc : c % 64 < 64 := Nat.mod_lt _ (by omega)
    rw [← Bool.not_eq_true]
    tauto
  | chunk c f => simp [marks]

theorem Loc.marks_or {v w : BitVec 64} : l.marks (v ||| w) = l.marks v ∪ l.marks w := by
  cases l with
  | map f =>
    ext c
    simp only [marks, Set.mem_ofPred_eq, Set.mem_union, BitVec.getLsbD_or, Bool.or_eq_true]
    tauto
  | chunk c f => simp [marks]

/-- The mask of one bit of the chunkmap marks one chunk. -/
theorem marks_fieldMask {c : ℕ} :
    (Loc.map (c / fieldBits)).marks (fieldMask (c % fieldBits) 1) = {c} := by
  ext c'
  rw [fieldBits_eq, Set.mem_singleton_iff, Loc.marks, Set.mem_ofPred_eq,
    fieldMask_getLsbD (by omega), decide_eq_true_eq]
  omega

/-! ## Noted fields -/

namespace BitShared

/-- The chunkmap marks chunk `c`, or a running call has still to mark it or to look at its field
`f` again. -/
def Noted (s : BitShared Tid) (c f : ℕ) : Prop :=
  s.Marked c ∨ ∃ t, c ∈ s.owes t ∨ (c, f) ∈ s.watch t

/-- Every field with a set bit is noted. -/
def AllNoted (cc : ℕ) (s : BitShared Tid) : Prop :=
  ∀ c f, c < cc → f < 8 → s.word (.chunk c f) ≠ 0#64 → s.Noted c f

/-- Seeing a word takes a thread's duties away only where they are done. -/
theorem AllNoted.observe (h : s.AllNoted cc) : (s.observe t l (s.word l)).AllNoted cc := by
  intro c f hc hf hw
  have marked : c ∈ l.marks (s.word l) → s.Marked c := by
    intro hm
    cases l with
    | map f' =>
      obtain ⟨rfl, hbit⟩ := hm
      exact hbit
    | chunk c' f' => cases hm
  rcases h c f hc hf hw with hm | ⟨u, hu⟩
  · exact Or.inl hm
  · by_cases hml : c ∈ l.marks (s.word l)
    · exact Or.inl (marked hml)
    · refine Or.inr ⟨u, ?_⟩
      by_cases hut : u = t
      · subst hut
        simp only [BitShared.observe, Function.update_self]
        refine hu.imp (fun ho => ⟨ho, hml⟩) fun hwatch => ⟨hwatch, hml, fun he => ?_⟩
        -- the field that was seen to be empty is another one
        cases l with
        | map f' => cases he
        | chunk c' f' =>
          obtain ⟨heq, hzero⟩ := he
          cases heq
          exact hw hzero
      · simpa [BitShared.observe, Function.update_of_ne hut] using hu

/-- An exchange keeps every field noted when it sets bits only in noted fields. -/
theorem AllNoted.exchange (h : s.AllNoted cc) {old new : BitVec 64} (hw : s.word l = old)
    (hset : ∀ c f, l = .chunk c f → new &&& ~~~old ≠ 0#64 → s.Noted c f) :
    (s.exchange t l old new).AllNoted cc := by
  intro c f hc hf hword
  have hnoted : s.Noted c f := by
    by_cases hl : Loc.chunk c f = l
    · by_cases hold : old = 0#64
      · apply hset c f hl.symm
        rw [hl, exchange_word] at hword
        rwa [hold, BitVec.not_zero, BitVec.and_allOnes]
      · exact h c f hc hf (by rwa [hl, hw])
    · rw [exchange_word_of_ne s t l old new hl] at hword
      exact h c f hc hf hword
  rcases hnoted with hm | ⟨u, hu⟩
  · by_cases hl : Loc.map (c / 64) = l
    · by_cases hnew : new.getLsbD (c % 64) = true
      · left
        rwa [Marked, hl, exchange_word]
      · -- the mark is cleared: the thread that clears it will look at the field again
        have hold : old.getLsbD (c % 64) = true := by rwa [← hw, ← hl]
        refine Or.inr ⟨t, Or.inr ?_⟩
        rw [exchange_watch, Loc.marks_and_not, ← hl]
        exact Or.inr ⟨⟨⟨rfl, hold⟩, fun h => hnew h.2⟩, hf⟩
    · left
      rwa [Marked, exchange_word_of_ne s t l old new hl]
  · refine Or.inr ⟨u, hu.imp id ?_⟩
    intro hwatch
    by_cases hut : u = t
    · subst hut
      rw [exchange_watch]
      exact Or.inl hwatch
    · rwa [exchange_watch_of_ne s t l old new hut]

end BitShared

/-! ## The outline -/

/-- An exchange that sets bits of a field happens only while the field is noted. -/
def SetsNoted {β : Type} (cc : ℕ) (e : BitAct β) (s : BitShared Tid) (choice : ℕ) : Prop :=
  match e with
  | .cas (.chunk c f) old new =>
    c < cc → s.word (.chunk c f) = old → choice = 0 → new &&& ~~~old ≠ 0#64 → s.Noted c f
  | _ => True

/-- What a running call has still to do: the chunks it is to mark and the fields it is to look at
again. -/
abbrev Due := Set ℕ × Set (ℕ × ℕ)

/-- Nothing left to do. -/
abbrev Due.done : Due := (∅, ∅)

/-- What is left to do when the word `w` has been seen at `l`. -/
def Due.seen (g : Due) (l : Loc) (w : BitVec 64) : Due :=
  (g.1 \ l.marks w, {p ∈ g.2 | p.1 ∉ l.marks w ∧ p ∉ l.empties w})

/-- What is left to do when the word `old` has been exchanged for `new` at `l`. -/
def Due.exchanged (g : Due) (l : Loc) (old new : BitVec 64) : Due :=
  (g.1, g.2 ∪ {p | p.1 ∈ l.marks (old &&& ~~~new) ∧ p.2 < 8})

variable (Tid) in
/-- Every field with a set bit is noted, in runs that set bits only in noted fields; the ghost of a
thread is what its running call has still to do. -/
def chunkmapOutline (cc : ℕ) : Outline BitAct Tid (BitShared Tid) Due where
  inv s γ := s.AllNoted cc ∧ (fun t => (s.owes t, s.watch t)) = γ
  ok _ e s choice := SetsNoted cc e s choice

/-- `Safe` for the bitmap programs, with what the call has still to do. -/
abbrev DueSafe {α : Type} (cc : ℕ) (t : Tid) (p : Prog BitAct α) (g : Due)
    (Q : α → Due → Prop) : Prop :=
  Safe (bitMachine Tid cc) (chunkmapOutline Tid cc) t p g Q

namespace DueSafe

variable {g : Due} {α : Type} {Q : α → Due → Prop}

theorem load {k : BitVec 64 → Prog BitAct α} (h : ∀ w, DueSafe cc t (k w) (g.seen l w) Q) :
    DueSafe cc t (.act (.load l) k) g Q := by
  apply Safe.act
  rintro s γ choice b s' ⟨hnoted, rfl⟩ rfl - hex
  have hex : s.exec cc t (.load l) choice = some (b, s') := hex
  simp only [BitShared.exec, Option.ite_none_right_eq_some, Option.some.injEq,
    Prod.mk.injEq] at hex
  obtain ⟨-, rfl, rfl⟩ := hex
  refine ⟨trivial, _, ⟨hnoted.observe, ?_⟩, h _⟩
  funext u
  by_cases hu : u = t
  · subst hu
    simp [BitShared.observe, Due.seen]
  · simp [BitShared.observe, Function.update_of_ne hu]

theorem cas {old new : BitVec 64} {k : Option (BitVec 64) → Prog BitAct α}
    (hdone : DueSafe cc t (k none) ((g.exchanged l old new).seen l new) Q)
    (hseen : ∀ w, DueSafe cc t (k (some w)) (g.seen l w) Q) :
    DueSafe cc t (.act (.cas l old new) k) g Q := by
  apply Safe.act
  rintro s γ choice b s' ⟨hnoted, rfl⟩ rfl hok hex
  have hex : s.exec cc t (.cas l old new) choice = some (b, s') := hex
  simp only [BitShared.exec] at hex
  split at hex
  · cases hex
  · next hl =>
    rw [not_not] at hl
    split at hex
    · next hw =>
      cases hex
      have hset : ∀ c f, l = .chunk c f → new &&& ~~~old ≠ 0#64 → s.Noted c f := by
        rintro c f rfl
        exact hok hl.1 hw.1 hw.2
      have hnew := (hnoted.exchange (t := t) hw.1 hset).observe (t := t) (l := l)
      rw [BitShared.exchange_word] at hnew
      refine ⟨trivial, _, ⟨hnew, ?_⟩, hdone⟩
      funext u
      by_cases hu : u = t
      · subst hu
        simp [BitShared.observe, BitShared.exchange, Due.seen, Due.exchanged]
      · simp [BitShared.observe, BitShared.exchange, Function.update_of_ne hu]
    · cases hex
      refine ⟨trivial, _, ⟨hnoted.observe, ?_⟩, hseen _⟩
      funext u
      by_cases hu : u = t
      · subst hu
        simp [BitShared.observe, Due.seen]
      · simp [BitShared.observe, Function.update_of_ne hu]

end DueSafe

/-! ## Programs on chunks -/

/-- The event is on a word of a chunk. -/
def BitAct.OnChunk : {β : Type} → BitAct β → Prop
  | _, .load l | _, .cas l _ _ => ∃ c f, l = .chunk c f

theorem onChunk_load (c f : ℕ) : BitAct.OnChunk (.load (.chunk c f)) := ⟨c, f, rfl⟩

theorem onChunk_cas (c f : ℕ) (old new : BitVec 64) :
    BitAct.OnChunk (.cas (.chunk c f) old new) := ⟨c, f, rfl⟩

variable {g : Due} {α : Type}

/-- A program that accesses only chunks, in a call that is to look at nothing again, leaves what it
is to mark. -/
theorem DueSafe.of_every {p : Prog BitAct α} (hp : p.Every BitAct.OnChunk) (hg : g.2 = ∅) :
    DueSafe cc t p g fun _ g' => g' = g := by
  have hseen : ∀ c f w, g.seen (.chunk c f) w = g := by
    intro c f w
    rw [Due.seen, Loc.marks, hg, Set.sdiff_empty]
    ext1
    · rfl
    · simp [hg]
  have hexchanged : ∀ c f old new, g.exchanged (.chunk c f) old new = g := by
    intro c f old new
    simp [Due.exchanged, Loc.marks]
  refine Safe.of_every (P := BitAct.OnChunk) (J := (· = g)) ?_ hp rfl
  rintro β e he s γ choice b s' hi hγ hok hex
  have keep : DueSafe cc t (.act e .ret) g (fun _ g' => g' = g) := by
    cases e with
    | load l =>
      obtain ⟨c, f, rfl⟩ := he
      exact DueSafe.load fun w => Safe.ret (hseen c f w)
    | cas l old new =>
      obtain ⟨c, f, rfl⟩ := he
      refine DueSafe.cas (Safe.ret ?_) fun w => Safe.ret (hseen c f w)
      rw [hexchanged, hseen]
  obtain ⟨ha, g', hi', hr⟩ := keep.step s γ choice b s' hi hγ hok hex
  exact ⟨ha, g', hi', hr.of_ret⟩

/-! ## The chunkmap protocol -/

theorem Due.seen_marked {c : ℕ} (howes : g.1 ⊆ {c}) (hwatch : g.2 ⊆ {p | p.1 = c})
    {w : BitVec 64} (hw : c ∈ l.marks w) : g.seen l w = Due.done := by
  ext1
  · refine Set.sdiff_eq_empty.mpr fun c' hc' => ?_
    rwa [Set.mem_singleton_iff.mp (howes hc')]
  · refine Set.eq_empty_iff_forall_notMem.mpr ?_
    rintro p ⟨hp, hm, -⟩
    have hpc : p.1 = c := hwatch hp
    exact hm (by rwa [hpc])

theorem Due.seen_subset {w : BitVec 64} : (g.seen l w).1 ⊆ g.1 ∧ (g.seen l w).2 ⊆ g.2 :=
  ⟨Set.sdiff_subset, fun _ hp => hp.1⟩

theorem Due.seen_done {w : BitVec 64} : Due.done.seen l w = Due.done := by
  simp [Due.seen, Due.done]

theorem bfSetMask_due {c : ℕ} {mask : BitVec 64} (hm : c ∈ l.marks mask) (howes : g.1 ⊆ {c})
    (hwatch : g.2 ⊆ {p | p.1 = c}) :
    DueSafe cc t (bfSetMask l mask) g fun _ g' => g' = Due.done := by
  simp only [bfSetMask, Prog.bind_eq, Prog.pure_eq, Prog.perform_bind]
  apply DueSafe.load
  intro w
  -- the word that was seen last decides what is left to do
  refine Safe.loop (fun old g' => ∃ g₀ : Due, g₀.1 ⊆ {c} ∧ g₀.2 ⊆ {p | p.1 = c} ∧
    g' = g₀.seen l old) ?_ ⟨g, howes, hwatch, rfl⟩
  rintro old _ ⟨g₀, ho₀, hw₀, rfl⟩
  have hmarked : c ∈ l.marks (old ||| mask) := by
    rw [Loc.marks_or]
    exact Or.inr hm
  split
  · next h =>
    apply Safe.ret
    apply Safe.ret
    rw [h] at hmarked
    exact Due.seen_marked ho₀ hw₀ hmarked
  · obtain ⟨ho₁, hw₁⟩ := Due.seen_subset (g := g₀) (l := l) (w := old)
    apply DueSafe.cas
    · apply Safe.ret
      apply Safe.ret
      have hclear : l.marks (old &&& ~~~(old ||| mask)) = ∅ := by
        rw [Loc.marks_and_not, Loc.marks_or, Set.sdiff_eq_empty]
        exact Set.subset_union_left
      apply Due.seen_marked
      · exact ho₁.trans ho₀
      · rw [Due.exchanged, hclear]
        rintro p (hp | hp)
        · exact hw₀ (hw₁ hp)
        · cases hp.1
      · exact hmarked
    · intro w'
      exact Safe.ret ⟨_, ho₁.trans ho₀, hw₁.trans hw₀, rfl⟩

theorem bfTryClearMask_due {c : ℕ} {mask : BitVec 64} (hm : l.marks mask = {c}) :
    DueSafe cc t (bfTryClearMask l mask) Due.done fun r g' =>
      g'.1 = ∅ ∧ g'.2 ⊆ if r then {p | p.1 = c ∧ p.2 < 8} else ∅ := by
  simp only [bfTryClearMask, Prog.bind_eq, Prog.pure_eq, Prog.perform_bind]
  apply DueSafe.load
  intro w
  rw [Due.seen_done]
  refine Safe.loop (fun _ g' => g' = Due.done) ?_ rfl
  rintro old _ rfl
  split
  · exact Safe.ret (Safe.ret ⟨rfl, Set.Subset.rfl⟩)
  · apply DueSafe.cas
    · apply Safe.ret
      apply Safe.ret
      refine ⟨Set.empty_sdiff _, ?_⟩
      rintro p ⟨hp | ⟨hp, hf⟩, -⟩
      · cases hp
      · -- what the exchange unmarks is in the mask
        rw [Loc.marks_and_not, Loc.marks_and_not, sdiff_sdiff_right_self, hm] at hp
        exact ⟨hp.2, hf⟩
    · intro w'
      rw [Due.seen_done]
      exact Safe.ret rfl

namespace Bitmap

/-- `chunkmap_set` leaves nothing to do for its chunk. -/
theorem chunkmapSet_due {c : ℕ} (howes : g.1 ⊆ {c}) (hwatch : g.2 ⊆ {p | p.1 = c}) :
    DueSafe cc t (chunkmapSet c) g fun _ g' => g' = Due.done := by
  apply Safe.bind
  apply (bfSetMask_due (by rw [marks_fieldMask]; rfl) howes hwatch).mono
  intro _ g' hg'
  exact Safe.ret hg'

/-- The recheck of a chunk looks at the fields one by one. -/
theorem isAllClear_due {c : ℕ} (howes : g.1 = ∅) (hwatch : g.2 ⊆ {p | p.1 = c ∧ p.2 < 8}) :
    DueSafe cc t (BChunk.isAllClear (.chunk c)) g fun r g' =>
      g'.1 = ∅ ∧ g'.2 ⊆ if r then ∅ else {p | p.1 = c} := by
  refine Safe.allOf (fun l g' => g'.1 = ∅ ∧ g'.2 ⊆ {p | p.1 = c ∧ p.2 ∈ l}) ?_ ?_ ⟨howes, ?_⟩
  · rintro f l g₁ ⟨ho, hw⟩
    apply DueSafe.load
    intro w
    apply Safe.ret
    have ho' : (g₁.seen (.chunk c f) w).1 = ∅ := by rw [Due.seen, ho, Set.empty_sdiff]
    by_cases hz : w = 0#64
    · rw [if_pos (by simp [hz])]
      refine ⟨ho', ?_⟩
      rintro p ⟨hp, -, hne⟩
      obtain ⟨hpc, hpl⟩ := hw hp
      refine ⟨hpc, (List.mem_cons.mp hpl).resolve_left fun hpf => hne ⟨?_, hz⟩⟩
      exact Prod.ext hpc hpf
    · rw [if_neg (by simp [hz])]
      refine ⟨ho', ?_⟩
      rintro p ⟨hp, -, -⟩
      exact (hw hp).1
  · rintro g₁ ⟨ho, hw⟩
    refine ⟨ho, fun p hp => ?_⟩
    cases (hw hp).2
  · intro p hp
    exact ⟨(hwatch hp).1, List.mem_range.mpr (hwatch hp).2⟩

/-- `chunkmap_clear_if_empty` looks again at what it has unmarked. -/
theorem chunkmapClearIfEmpty_due {c : ℕ} :
    DueSafe cc t (chunkmapClearIfEmpty c) Due.done fun _ g' => g' = Due.done := by
  simp only [chunkmapClearIfEmpty, Prog.bind_eq, Prog.pure_eq]
  apply Safe.bind
  apply (DueSafe.of_every (BChunk.isAllClear_every (onChunk_load c)) rfl).mono
  rintro r _ rfl
  cases r with
  | false => exact Safe.ret rfl
  | true =>
    apply Safe.bind
    apply (bfTryClearMask_due marks_fieldMask).mono
    rintro r g₁ ⟨ho₁, hw₁⟩
    cases r with
    | false => exact Safe.ret (Prod.ext ho₁ (Set.subset_empty_iff.mp hw₁))
    | true =>
      apply Safe.bind
      apply (isAllClear_due ho₁ hw₁).mono
      rintro r g₂ ⟨ho₂, hw₂⟩
      cases r with
      | true => exact Safe.ret (Prod.ext ho₂ (Set.subset_empty_iff.mp hw₂))
      | false =>
        apply chunkmapSet_due _ hw₂
        rw [ho₂]
        exact Set.empty_subset _

/-! ## The calls -/

/-- `set_n` marks the chunk it was to mark. -/
theorem setN_due {idx n : ℕ} :
    DueSafe cc t (setN idx n) ({idx / chunkBits}, ∅) fun _ g' => g' = Due.done := by
  simp only [setN, Prog.bind_eq, Prog.pure_eq]
  apply Safe.bind
  apply (DueSafe.of_every (BChunk.isClearN_every (onChunk_load _) _ _) rfl).mono
  rintro beforeClear _ rfl
  apply Safe.bind
  apply (DueSafe.of_every (BChunk.setN_every (onChunk_load _) (onChunk_cas _) _ _)
    rfl).mono
  rintro _ _ rfl
  apply Safe.bind
  apply (chunkmapSet_due Set.Subset.rfl (Set.empty_subset _)).mono
  intro _ g' hg'
  exact Safe.ret hg'

theorem clearN_due {idx n : ℕ} :
    DueSafe cc t (clearN idx n) Due.done fun _ g' => g' = Due.done := by
  simp only [clearN, Prog.bind_eq, Prog.pure_eq]
  apply Safe.bind
  apply (DueSafe.of_every (BChunk.tryClearN_every (onChunk_load _)
    (onChunk_cas _) _ _) rfl).mono
  rintro r _ rfl
  cases r with
  | false => exact Safe.ret rfl
  | true =>
    apply Safe.bind
    apply chunkmapClearIfEmpty_due.mono
    intro _ g' hg'
    exact Safe.ret hg'

theorem rangeTryClear_due {idx n : ℕ} :
    DueSafe cc t (rangeTryClear cc idx n) Due.done fun _ g' => g' = Due.done := by
  simp only [rangeTryClear, Prog.bind_eq, Prog.pure_eq]
  apply Safe.bind
  apply (DueSafe.of_every (clearChunks_every onChunk_load
    onChunk_cas idx n) rfl).mono
  rintro ⟨ok, done⟩ _ rfl
  cases ok with
  | true =>
    apply Safe.bind
    have hforget : DueSafe cc t (Prog.forEach (fun off =>
        if idx / chunkBits + off < cc then chunkmapClearIfEmpty (idx / chunkBits + off)
        else .ret ()) (List.range ((n + chunkBits - 1) / chunkBits + 1))) Due.done
        fun _ g' => g' = Due.done := by
      refine Safe.forEach (fun _ g' => g' = Due.done) ?_ (fun _ h => h) rfl
      rintro off l _ rfl
      split
      · exact chunkmapClearIfEmpty_due
      · exact Safe.ret rfl
    apply hforget.mono
    intro _ g' hg'
    exact Safe.ret hg'
  | false =>
    apply Safe.bind
    apply (DueSafe.of_every (rollBack_every onChunk_load
      onChunk_cas idx done) rfl).mono
    intro _ g' hg'
    exact Safe.ret hg'

theorem tryFindAndClearNHuge_due {n : ℕ} :
    DueSafe cc t (tryFindAndClearNHuge cc n) Due.done fun _ g' => g' = Due.done := by
  refine Safe.loop (fun _ g' => g' = Due.done) ?_ rfl
  rintro start _ rfl
  simp only [Prog.bind_eq, Prog.pure_eq]
  split
  · apply Safe.bind
    apply (DueSafe.of_every (rangeIsSet_every onChunk_load start n) rfl).mono
    rintro r _ rfl
    cases r with
    | false => exact Safe.ret rfl
    | true =>
      apply Safe.bind
      apply rangeTryClear_due.mono
      rintro r _ rfl
      cases r with
      | true => exact Safe.ret (Safe.ret rfl)
      | false => exact Safe.ret rfl
  · exact Safe.ret (Safe.ret rfl)

theorem findInChunk_due {n c : ℕ} :
    DueSafe cc t (findInChunk n c) Due.done fun _ g' => g' = Due.done := by
  simp only [findInChunk, Prog.bind_eq, Prog.pure_eq]
  apply Safe.bind
  have hmark : DueSafe cc t (BChunk.isSet .map c) Due.done fun _ g' => g' = Due.done := by
    apply DueSafe.load
    intro w
    exact Safe.ret Due.seen_done
  apply hmark.mono
  rintro r _ rfl
  cases r with
  | false => exact Safe.ret rfl
  | true =>
    apply Safe.bind
    apply (DueSafe.of_every (BChunk.findAndClearN_every (onChunk_load c)
      (onChunk_cas c) n) rfl).mono
    rintro r _ rfl
    cases r with
    | none => exact Safe.ret rfl
    | some b =>
      apply Safe.bind
      apply chunkmapClearIfEmpty_due.mono
      intro _ g' hg'
      exact Safe.ret hg'

theorem tryFindAndClearN_due {n tseq : ℕ} :
    DueSafe cc t (tryFindAndClearN cc n tseq) Due.done fun _ g' => g' = Due.done := by
  unfold tryFindAndClearN
  split
  · exact Safe.ret rfl
  · split
    · refine Safe.firstSome (fun _ g' => g' = Due.done) ?_ (fun _ h => h) rfl
      rintro k l _ rfl
      apply findInChunk_due.mono
      intro r g' hg'
      cases r <;> exact hg'
    · exact tryFindAndClearNHuge_due

end Bitmap

/-! ## Runs -/

/-- The chunkmap marks every chunk with a set bit, and no call is running. -/
def ChunkmapInit (cc : ℕ) (s : BitShared Tid) : Prop :=
  (∀ c f, c < cc → f < 8 → s.word (.chunk c f) ≠ 0#64 → s.Marked c) ∧
    ∀ t, s.owes t = ∅ ∧ s.watch t = ∅

/-- The moves that set bits only in noted fields. -/
def SetsOnlyNoted (cc : ℕ) (c : Config BitAct Tid BitOp BitOp.Res (BitShared Tid))
    (m : Move Tid BitOp) : Prop :=
  ∀ ⦃t choice o⦄ ⦃β : Type⦄ ⦃e : BitAct β⦄ ⦃k : β → Prog BitAct o.Res⦄, m = .step t choice →
    c.thread t = some ⟨o, .act e k⟩ → SetsNoted cc e c.mem choice

theorem bitmapSystem_start {s' : BitShared Tid} {γ : Tid → Due} {o : BitOp}
    (hi : (chunkmapOutline Tid cc).inv s γ) (hidle : γ t = Due.done)
    (hs : (bitmapSystem Tid cc).start t o s = some s') :
    ∃ g, (chunkmapOutline Tid cc).inv s' (Function.update γ t g) ∧
      DueSafe cc t (o.prog cc) g fun _ g' => g' = Due.done := by
  obtain ⟨hnoted, rfl⟩ := hi
  have keep : (chunkmapOutline Tid cc).inv s
      (Function.update (fun t => (s.owes t, s.watch t)) t Due.done) := by
    rw [← hidle, Function.update_eq_self]
    exact ⟨hnoted, rfl⟩
  cases o with
  | find n tseq =>
    cases hs
    exact ⟨Due.done, keep, Bitmap.tryFindAndClearN_due⟩
  | clearN idx n =>
    simp only [bitmapSystem] at hs
    split at hs <;> cases hs
    exact ⟨Due.done, keep, Bitmap.clearN_due⟩
  | setN idx n =>
    simp only [bitmapSystem] at hs
    split at hs <;> cases hs
    refine ⟨({idx / chunkBits}, ∅), ⟨?_, ?_⟩, Bitmap.setN_due⟩
    · intro c f hc hf hw
      rcases hnoted c f hc hf hw with hm | ⟨u, hu⟩
      · exact Or.inl hm
      · refine Or.inr ⟨u, ?_⟩
        by_cases hut : u = t
        · -- the thread was idle: it had nothing to do
          subst hut
          have ho : s.owes u = ∅ := congrArg Prod.fst hidle
          have hw : s.watch u = ∅ := congrArg Prod.snd hidle
          rw [ho, hw] at hu
          rcases hu with hu | hu <;> cases hu
        · simpa [Function.update_of_ne hut] using hu
    · funext u
      by_cases hut : u = t
      · subst hut
        have hw : s.watch u = ∅ := congrArg Prod.snd hidle
        simp [hw]
      · simp [Function.update_of_ne hut]

variable {c : Config BitAct Tid BitOp BitOp.Res (BitShared Tid)}

/-- **The chunkmap hides nothing** after a run in which bits are set only in noted fields: fields
whose chunk is marked, or is still to be marked by a running call, or which a running call that has
unmarked the chunk has still to look at again. -/
theorem chunkmap_hides_nothing
    (h : (bitmapSystem Tid cc).Reachable (ChunkmapInit cc) (SetsOnlyNoted cc) c) (hq : c.Quiescent)
    {b : ℕ} (hb : b ∈ c.mem.setBits cc) : c.mem.Marked (b / 512) := by
  have hrun : ∃ γ, (chunkmapOutline Tid cc).inv c.mem γ ∧ ∀ t, (chunkmapOutline Tid cc).Thread
      (bitMachine Tid cc) (fun _ g => g = Due.done) (fun _ _ _ g => g = Due.done) t (γ t)
      (c.thread t) := by
    refine Outline.reachable (O := chunkmapOutline Tid cc) ?_ ?_ ?_ ?_ h
    · rintro s ⟨hmarked, hidle⟩
      refine ⟨_, ⟨fun c f hc hf hw => Or.inl (hmarked c f hc hf hw), rfl⟩, fun t => ?_⟩
      exact Prod.ext (hidle t).1 (hidle t).2
    · exact fun t o s s' γ hi hidle hs => bitmapSystem_start hi hidle hs
    · intro t o r s γ hi hpost
      refine ⟨γ t, ?_, hpost⟩
      rwa [Function.update_eq_self]
    · exact fun c m hok t choice o β e k hm ht => hok hm ht
  obtain ⟨γ, ⟨hnoted, rfl⟩, hth⟩ := hrun
  have hword : c.mem.word (.chunk (b / 512) (b % 512 / 64)) ≠ 0#64 := by
    intro hz
    have hbit := hb.2
    rw [hz] at hbit
    simp at hbit
  rcases hnoted _ _ hb.1 (by omega) hword with hm | ⟨t, ht⟩
  · exact hm
  · -- no call is running, so nothing is left to do
    have hidle := hth t
    rw [hq t] at hidle
    have ho : c.mem.owes t = ∅ := congrArg Prod.fst hidle
    have hw : c.mem.watch t = ∅ := congrArg Prod.snd hidle
    rw [ho, hw] at ht
    rcases ht with ht | ht <;> cases ht

/-- The words of a bitmap in which the bits 63 and 100 are free. -/
def twoFree : Words
  | .map 0 => 1#64
  | .chunk 0 0 => 1#64 <<< 63
  | .chunk 0 1 => 1#64 <<< 36
  | _ => 0#64

theorem twoFree_init : ChunkmapInit 1 (BitShared.init twoFree : BitShared Bool) := by
  refine ⟨fun c f hc hf hw => ?_, fun t => ⟨rfl, rfl⟩⟩
  obtain rfl : c = 0 := by omega
  rfl

/-- Moves of two threads on the bitmap `twoFree`, each made from a configuration that passes the
test. -/
def twoFreeRun (test : Config BitAct Bool BitOp BitOp.Res (BitShared Bool) → Bool)
    (ms : List (Move Bool BitOp)) : Option (Config BitAct Bool BitOp BitOp.Res (BitShared Bool)) :=
  (bitmapSystem Bool 1).runChecked test ms ⟨BitShared.init twoFree, fun _ => none⟩

/-- The claim of the bits 63 and 64 fails and rolls back while the chunk is marked. -/
theorem chunkmap_hides_nothing_rollBack :
    ∃ c, twoFreeRun (fun c => (c.mem.word (.map 0)).getLsbD 0)
        (.start true (.clearN 63 2) :: List.replicate 10 (.step true 0) ++ [.finish true]) = some c ∧
      63 ∈ c.mem.setBits 1 ∧ c.mem.Marked 0 := by
  obtain ⟨c, hc⟩ : ∃ c, twoFreeRun (fun c => (c.mem.word (.map 0)).getLsbD 0)
      (.start true (.clearN 63 2) :: List.replicate 10 (.step true 0) ++ [.finish true]) =
      some c := ⟨_, rfl⟩
  have hreach : (bitmapSystem Bool 1).Reachable (ChunkmapInit 1) (SetsOnlyNoted 1) c := by
    refine System.Reachable.runChecked ?_ (.init twoFree_init) hc
    intro c m hmarked t choice o β e k _ _
    rcases e with l | ⟨_ | ⟨c', f⟩, old, new⟩
    · trivial
    · trivial
    · intro hc' _ _ _
      obtain rfl : c' = 0 := by omega
      exact Or.inl hmarked
  have hq : c.Quiescent := by
    cases hc
    intro t
    cases t <;> rfl
  have hset : 63 ∈ c.mem.setBits 1 := by
    cases hc
    exact ⟨by decide, by rfl⟩
  exact ⟨c, hc, hset, chunkmap_hides_nothing hreach hq hset⟩

/-- While a claim of the bits 63 and 64 has cleared bit 63 and is about to fail, another thread
claims bit 100, finds the chunk empty and unmarks it; then bit 63 is set again. -/
theorem chunkmap_hides_chunk :
    ¬ ∀ c, (bitmapSystem Bool 1).Reachable (ChunkmapInit 1) System.anyMove c → c.Quiescent →
      ∀ b, b ∈ c.mem.setBits 1 → c.mem.Marked (b / 512) := by
  intro h
  obtain ⟨c, hc⟩ : ∃ c, twoFreeRun (fun _ => true)
      (.start true (.clearN 63 2) :: List.replicate 4 (.step true 0) ++
        .start false (.clearN 100 1) :: List.replicate 22 (.step false 0) ++
        .finish false :: List.replicate 6 (.step true 0) ++ [.finish true]) = some c := ⟨_, rfl⟩
  have hmarked := h c (System.Reachable.runChecked (fun _ _ _ => trivial) (.init twoFree_init) hc)
    (by cases hc; intro t; cases t <;> rfl) 63 (by cases hc; exact ⟨by decide, by rfl⟩)
  cases hc
  cases hmarked

end MimallocRs
