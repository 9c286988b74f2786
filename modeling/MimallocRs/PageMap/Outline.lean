import MimallocRs.PageMap.Rules
import Mathlib.Tactic.SplitIfs

/-!
# The functions of the page map

The functions are verified from the rules for their events, in the order in which they call each
other. What each of them returns with is said of the ghost of the thread.
-/

namespace MimallocRs

open Interleave

variable {Tid : Type} [DecidableEq Tid] {topCount : ℕ} {t : Tid} {g : MapGhost}

namespace PageMap

/-- `ensure_top` returns with the published table, if with any. -/
theorem ensureTop_safe (hfree : g.phase = .free) :
    MapSafe topCount t (ensureTop topCount) g fun r g' =>
      (r = none ∧ g' = g) ∨ ∃ b, r = some b ∧ g' = { g with top := some b } := by
  have hback : ({ g with phase := .free } : MapGhost) = g := by rw [← hfree]
  simp only [ensureTop, Prog.bind_eq, Prog.perform_bind, Prog.pure_eq]
  apply MapSafe.read
  intro s choice r s' _ hv hex _ _
  cases hex
  refine ⟨rfl, trivial, ?_⟩
  cases htop : s.top with
  | some b =>
    refine ⟨{ g with top := some b }, id, rfl, ⟨hv.phase, ?_, hv.entry, hv.pages, hv.looking,
      hv.seen⟩, Safe.ret (Or.inr ⟨b, rfl, rfl⟩)⟩
    rintro _ ⟨⟩
    exact htop
  | none =>
    refine ⟨g, id, rfl, hv, ?_⟩
    apply Safe.bind
    apply MapSafe.lock.mono
    rintro _ _ rfl
    apply MapSafe.read
    intro s choice r s' _ hv hex _ _
    cases hex
    refine ⟨rfl, trivial, ?_⟩
    cases htop : s.top with
    | some b =>
      refine ⟨{ g with phase := .locked, top := some b }, id, rfl, ⟨trivial, ?_, hv.entry, hv.pages,
        hv.looking, hv.seen⟩, ?_⟩
      · rintro _ ⟨⟩
        exact htop
      · apply MapSafe.unlock (by simp)
        exact Safe.ret (Or.inr ⟨b, rfl, by simp [← hfree]⟩)
    | none =>
      refine ⟨{ g with phase := .noTop }, by simp, rfl, hv.withPhase htop, ?_⟩
      apply MapSafe.allocTop rfl
      · intro b
        apply Safe.bind
        apply Safe.mono (Q := fun _ g' => g' = { g with phase := .draft b topCount })
        · -- after `i` stores, the first `i` entries have been written
          apply Safe.forEach fun l g' => ∃ i, l = List.range' i (topCount - i) ∧ i ≤ topCount ∧
            g' = { g with phase := .draft b i }
          · rintro i l _ ⟨j, hl, hj, rfl⟩
            obtain ⟨n, hn⟩ : ∃ n, topCount - j = n + 1 := by
              cases hn : topCount - j with
              | zero =>
                rw [hn] at hl
                cases hl
              | succ n => exact ⟨n, rfl⟩
            rw [hn, List.range'_succ] at hl
            cases hl
            apply MapSafe.storeDraft rfl
            exact Safe.ret ⟨i + 1, by rw [show topCount - (i + 1) = n by omega], by omega, rfl⟩
          · rintro _ ⟨j, hl, hj, rfl⟩
            have : topCount - j = 0 := by simpa using hl
            rw [show j = topCount by omega]
          · exact ⟨0, by rw [Nat.sub_zero, List.range_eq_range'], Nat.zero_le _, rfl⟩
        · rintro _ _ rfl
          apply MapSafe.storeTop rfl
          apply MapSafe.unlock (by simp)
          exact Safe.ret (Or.inr ⟨b, rfl, by simp [← hfree]⟩)
      · apply MapSafe.unlock (by simp)
        exact Safe.ret (Or.inl ⟨rfl, hback⟩)

/-- `ensure_submap` returns with the shared submap or with the one that the entry points at. -/
theorem ensureSubmap_safe {b i : ℕ} (hfree : g.phase = .free) (hb : g.top = some b)
    (hi : i < topCount) :
    MapSafe topCount t (ensureSubmap b i) g fun r g' =>
      (r = some 0 ∧ g' = g) ∨ ∃ p, p ≠ 0 ∧ r = some p ∧ g' = { g with entry := some (i, p) } := by
  have hback : ({ g with phase := .free } : MapGhost) = g := by rw [← hfree]
  simp only [ensureSubmap, Prog.bind_eq, Prog.perform_bind, Prog.pure_eq]
  apply MapSafe.read
  intro s choice r s' htables hv hex _ _
  cases hex
  obtain ⟨p, -, hp⟩ := htables.entries b i (hv.top b hb) hi
  rw [hp]
  refine ⟨rfl, trivial, ?_⟩
  by_cases hp0 : p = 0
  · refine ⟨g, id, rfl, hv, ?_⟩
    rw [hp0, if_neg (by simp)]
    apply Safe.bind
    apply MapSafe.lock.mono
    rintro _ _ rfl
    apply MapSafe.read
    intro s choice r s' htables hv hex _ _
    cases hex
    obtain ⟨q, -, hq⟩ := htables.entries b i (hv.top b hb) hi
    rw [hq]
    refine ⟨rfl, trivial, ?_⟩
    by_cases hq0 : q = 0
    · refine ⟨{ g with phase := .vacant i }, by simp, rfl,
        hv.withPhase ⟨hi, b, hv.top b hb, hq0 ▸ hq⟩, ?_⟩
      rw [hq0, if_neg (by simp)]
      apply MapSafe.allocSub rfl
      · intro p hp0
        apply MapSafe.publish rfl
        · exact hb
        · apply MapSafe.unlock (by simp)
          exact Safe.ret (Or.inr ⟨p, hp0, rfl, by simp [← hfree]⟩)
      · apply MapSafe.unlock (by simp)
        exact Safe.ret (Or.inl ⟨rfl, hback⟩)
    · refine ⟨{ g with phase := .locked, entry := some (i, q) }, id, rfl, ⟨trivial, hv.top, ?_,
        hv.pages, hv.looking, hv.seen⟩, ?_⟩
      · rintro _ _ ⟨⟩
        exact ⟨hi, hq0, b, hv.top b hb, hq⟩
      · rw [if_pos (by simpa using hq0)]
        apply MapSafe.unlock (by simp)
        exact Safe.ret (Or.inr ⟨q, hq0, rfl, by simp [← hfree]⟩)
  · refine ⟨{ g with entry := some (i, p) }, id, rfl, ⟨hv.phase, hv.top, ?_, hv.pages, hv.looking,
      hv.seen⟩, ?_⟩
    · rintro _ _ ⟨⟩
      exact ⟨hi, hp0, b, hv.top b hb, hp⟩
    · rw [if_pos (by simpa using hp0)]
      exact Safe.ret (Or.inr ⟨p, hp0, rfl, rfl⟩)

/-- A thread that has a call on the range of `n` slices from `u` and knows the page of each. -/
structure OnRange (u n : ℕ) (page : ℕ → ℕ) (g : MapGhost) : Prop where
  phase : g.phase = .free
  looking : g.looking = none
  range : g.range = some (u, n)
  pages : ∀ j < n, g.pages (u + j) = page j

theorem OnRange.congr {u n : ℕ} {page page' : ℕ → ℕ} (h : OnRange u n page g)
    (hpage : ∀ j < n, page j = page' j) : OnRange u n page' g :=
  ⟨h.phase, h.looking, h.range, fun j hj => (h.pages j hj).trans (hpage j hj)⟩

/-- The page of one slice of the range is stored, in the submap that its entry points at. -/
theorem OnRange.store {α : Type} {Q : α → MapGhost → Prop} {u n m p new : ℕ} {page : ℕ → ℕ}
    {k : Unit → Prog MapAct α} (hg : OnRange u n page g) (hm : m < n)
    (hentry : g.entry = some ((u + m) / subCount, p))
    (h : ∀ g', g'.top = g.top → OnRange u n (fun j => if j = m then new else page j) g' →
      MapSafe topCount t (k ()) g' Q) :
    MapSafe topCount t (.act (.storeSub (some p) ((u + m) % subCount) new) k) g Q := by
  apply MapSafe.storeSub hg.phase hentry hg.range ⟨by simp, by simpa using hm⟩
  apply h
  · rfl
  · refine ⟨hg.phase, hg.looking, hg.range, fun j hj => ?_⟩
    show Function.update g.pages (u + m) new (u + j) = _
    by_cases hjm : j = m
    · rw [hjm, Function.update_self, if_pos rfl]
    · rw [Function.update_of_ne (by omega), if_neg hjm, hg.pages j hj]

/-- `unregister` unmaps the first `m` slices of a range. -/
theorem unregister_safe {addr m n : ℕ} {page : ℕ → ℕ} (hg : OnRange (sliceIndex addr) n page g)
    (hm : m ≤ n) :
    MapSafe topCount t (unregister topCount addr m) g fun _ g' =>
      OnRange (sliceIndex addr) n (fun j => if j < m then 0 else page j) g' := by
  simp only [unregister, Prog.bind_eq, Prog.perform_bind, Prog.pure_eq]
  apply MapSafe.read
  intro s choice r s' htables hv hex _ _
  cases hex
  refine ⟨rfl, trivial, ?_⟩
  -- nothing is found where there is no table
  have hvalue : ∀ j < n, s.value topCount (sliceIndex addr + j) = page j := by
    intro j hj
    rw [← hg.pages j hj]
    exact hv.pages _ hg.range _ ⟨by simp, by simpa using hj⟩
  cases htop : s.top with
  | none =>
    refine ⟨g, id, rfl, hv, Safe.ret (hg.congr fun j hj => ?_)⟩
    have hzero := (hvalue j hj).symm.trans (PageMem.value_of_noTop htop)
    rw [hzero, ite_self]
  | some b =>
    have hbeyond : ∀ j < n, topCount ≤ (sliceIndex addr + j) / subCount → page j = 0 :=
      fun j hj hle => (hvalue j hj).symm.trans (PageMem.value_of_le hle)
    refine ⟨{ g with top := some b }, id, rfl, ⟨hv.phase, ?_, hv.entry, hv.pages, hv.looking,
      hv.seen⟩, ?_⟩
    · rintro _ ⟨⟩
      exact htop
    · -- the first `k` slices have been unmapped
      apply Safe.loop fun k g' => k ≤ m ∧ g'.top = some b ∧
        OnRange (sliceIndex addr) n (fun j => if j < k then 0 else page j) g'
      · rintro k g' ⟨hk, hb, hg'⟩
        split
        · next hkm =>
          split
          · next hle =>
            refine Safe.ret (Safe.ret (hg'.congr fun j hj => ?_))
            by_cases hjk : j < k
            · rw [if_pos hjk, if_pos (by omega)]
            · have hmono : (sliceIndex addr + k) / subCount ≤ (sliceIndex addr + j) / subCount :=
                Nat.div_le_div_right (by omega)
              rw [if_neg hjk, hbeyond j hj (Nat.le_trans hle hmono), ite_self]
          · next hlt =>
            have hlt : (sliceIndex addr + k) / subCount < topCount := Nat.not_le.mp hlt
            have hcovers : Covers (sliceIndex addr, n) (sliceIndex addr + k) :=
              ⟨by simp, by simp; omega⟩
            apply MapSafe.read
            intro s choice r s' htables hv hex _ _
            cases hex
            have htop : s.top = some b := hv.top b hb
            obtain ⟨p, -, hp⟩ := htables.entries b _ htop hlt
            rw [hp]
            refine ⟨rfl, trivial, ?_⟩
            by_cases hp0 : p = 0
            · refine ⟨g', id, rfl, hv, ?_⟩
              rw [hp0, if_pos rfl]
              have hzero : page k = 0 := by
                have hval := hv.pages _ hg'.range _ hcovers
                rw [hg'.pages k (by omega), if_neg (Nat.lt_irrefl k),
                  PageMem.value_of_entry htop hlt hp, hp0, htables.shared] at hval
                exact hval.symm
              refine Safe.ret ⟨hkm, hb, hg'.congr fun j _ => ?_⟩
              by_cases hjk : j = k
              · rw [hjk, hzero, ite_self, ite_self]
              · split_ifs <;> omega
            · refine ⟨{ g' with entry := some ((sliceIndex addr + k) / subCount, p) }, id, rfl,
                ⟨hv.phase, hv.top, ?_, hv.pages, hv.looking, hv.seen⟩, ?_⟩
              · rintro _ _ ⟨⟩
                exact ⟨hlt, hp0, b, htop, hp⟩
              · rw [if_neg (by simpa using hp0)]
                apply OnRange.store (m := k)
                · exact ⟨hg'.phase, hg'.looking, hg'.range, hg'.pages⟩
                · exact Nat.lt_of_lt_of_le hkm hm
                · rfl
                · intro g'' htop'' hg''
                  refine Safe.ret ⟨hkm, htop''.trans hb, hg''.congr fun j _ => ?_⟩
                  split_ifs <;> omega
        · next hkm =>
          have hk : k = m := by omega
          subst hk
          exact Safe.ret (Safe.ret hg')
      · exact ⟨Nat.zero_le m, rfl, hg.phase, hg.looking, hg.range, fun j hj =>
          (hg.pages j hj).trans (if_neg (Nat.not_lt_zero j)).symm⟩

/-- `register` maps all slices of an unmapped range or none. -/
theorem register_safe {addr n page : ℕ} (hg : OnRange (sliceIndex addr) n (fun _ => 0) g) :
    MapSafe topCount t (register topCount addr n page) g fun r g' =>
      OnRange (sliceIndex addr) n (fun _ => if r then page else 0) g' := by
  simp only [register, Prog.bind_eq, Prog.pure_eq]
  apply Safe.bind
  apply (ensureTop_safe hg.phase).mono
  rintro r g' (⟨rfl, rfl⟩ | ⟨b, rfl, rfl⟩)
  · exact Safe.ret hg
  · -- the first `k` slices have been mapped
    apply Safe.loop fun k g' => k ≤ n ∧ g'.top = some b ∧
      OnRange (sliceIndex addr) n (fun j => if j < k then page else 0) g'
    · rintro k g' ⟨hk, hb, hg'⟩
      -- a failure takes back what has been mapped
      have hfail : ∀ g'', g''.top = some b →
          OnRange (sliceIndex addr) n (fun j => if j < k then page else 0) g'' →
          MapSafe topCount t ((unregister topCount addr k).bind fun _ =>
            .ret (.inr false : ℕ ⊕ Bool)) g'' fun r g' => Sum.elim
              (fun k => k ≤ n ∧ g'.top = some b ∧
                OnRange (sliceIndex addr) n (fun j => if j < k then page else 0) g')
              (fun c => MapSafe topCount t (.ret c) g' fun r g' =>
                OnRange (sliceIndex addr) n (fun _ => if r then page else 0) g') r := by
        intro g'' _ hg''
        apply Safe.bind
        apply (unregister_safe hg'' hk).mono
        intro _ g'' hg''
        refine Safe.ret (Safe.ret (hg''.congr fun j hj => ?_))
        by_cases hjk : j < k
        · rw [if_pos hjk]
          rfl
        · rw [if_neg hjk, if_neg hjk]
          rfl
      split
      · next hkn =>
        split
        · next hlt =>
          apply Safe.bind
          apply (ensureSubmap_safe hg'.phase hb hlt).mono
          rintro r g'' (⟨rfl, rfl⟩ | ⟨p, hp0, rfl, rfl⟩)
          · rw [if_pos rfl]
            exact hfail g'' hb hg'
          · rw [if_neg (by simpa using hp0)]
            apply OnRange.store (m := k)
            · exact ⟨hg'.phase, hg'.looking, hg'.range, hg'.pages⟩
            · exact hkn
            · rfl
            · intro g'' htop'' hg''
              refine Safe.ret ⟨hkn, htop''.trans hb, hg''.congr fun j _ => ?_⟩
              split_ifs <;> omega
        · exact hfail g' hb hg'
      · next hkn =>
        have hk : k = n := by omega
        refine Safe.ret (Safe.ret (hg'.congr fun j hj => ?_))
        rw [if_pos (by omega)]
        rfl
    · exact ⟨Nat.zero_le n, rfl, hg.phase, hg.looking, hg.range, fun j hj =>
        (hg.pages j hj).trans (if_neg (Nat.not_lt_zero j)).symm⟩

end PageMap

end MimallocRs
