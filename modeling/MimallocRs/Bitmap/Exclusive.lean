import MimallocRs.Bitmap.Claiming

/-!
# No bit is held twice and none is lost

Over any number of threads and any interleaving of the accesses to the words of a bitmap, the bits
that were free at first are at every moment divided between the set bits, the ranges that threads
hold and the bits that running calls have cleared for the time being
(`bitmap_bits_conserved`). A call that returns without a claim has put back all it cleared.
-/

namespace MimallocRs

open Interleave

variable {Tid : Type} [DecidableEq Tid] {cc : ℕ} {free₀ : Set ℕ} {s : BitShared Tid} {t : Tid}

/-! ## Taking a range over and giving it back -/

namespace BitShared

omit [DecidableEq Tid] in
/-- The books of a bitmap that no thread has used. -/
theorem Books.init {word : Words} : (BitShared.init word : BitShared Tid).Books cc (bitsOf cc word) := by
  have hshare : (BitShared.init word : BitShared Tid).share = fun _ => ∅ := by
    funext t
    simp [share, heldBits, BitShared.init]
  refine ⟨?_, fun _ => Set.empty_disjoint _, fun _ => List.Pairwise.nil⟩
  rw [hshare]
  exact Ledger.init

/-- A thread's bits are moved between its running call and its ranges. -/
theorem Books.move (h : s.Books cc free₀) {taken : Set ℕ} {held : List (ℕ × ℕ)} {word owes watch}
    (hword : word = s.word)
    (hshare : taken ∪ {j | ∃ r ∈ held, j ∈ bitRange r.1 r.2} = s.share t)
    (hd : Disjoint taken {j | ∃ r ∈ held, j ∈ bitRange r.1 r.2})
    (hr : held.Pairwise fun r r' => Disjoint (bitRange r.1 r.2) (bitRange r'.1 r'.2)) :
    Books cc free₀ ⟨word, Function.update s.held t held, Function.update s.taken t taken, owes,
      watch⟩ := by
  subst hword
  have hall : share ⟨s.word, Function.update s.held t held, Function.update s.taken t taken, owes,
      watch⟩ = s.share := by
    funext u
    by_cases hu : u = t
    · subst hu
      simp only [share, heldBits, Function.update_self]
      exact hshare
    · simp [share, heldBits, Function.update_of_ne hu]
  refine ⟨?_, ?_, ?_⟩
  · rw [hall]
    exact h.ledger
  · intro u
    by_cases hu : u = t
    · subst hu
      simp only [heldBits, Function.update_self]
      exact hd
    · simpa [heldBits, Function.update_of_ne hu] using h.taken_held u
  · intro u
    by_cases hu : u = t
    · subst hu
      simp only [Function.update_self]
      exact hr
    · simpa [Function.update_of_ne hu] using h.ranges u

/-- A range is given back to the running call of the thread that holds it. -/
theorem Books.giveBack (h : s.Books cc free₀) {idx n : ℕ} {s' : BitShared Tid}
    (hs : s.giveBack t idx n = some s') :
    s'.Books cc free₀ ∧ s'.taken = Function.update s.taken t (s.taken t ∪ bitRange idx n) := by
  unfold BitShared.giveBack at hs
  split at hs
  · next hmem =>
    cases hs
    have hperm := List.perm_cons_erase hmem
    have hpw := hperm.pairwise (h.ranges t) fun h => h.symm
    rw [List.pairwise_cons] at hpw
    have hheld : s.heldBits t =
        bitRange idx n ∪ {j | ∃ r ∈ (s.held t).erase (idx, n), j ∈ bitRange r.1 r.2} := by
      ext j
      simp only [heldBits, Set.mem_ofPred_eq, Set.mem_union, hperm.mem_iff, List.mem_cons,
        exists_eq_or_imp]
    have hrest : Disjoint (bitRange idx n)
        {j | ∃ r ∈ (s.held t).erase (idx, n), j ∈ bitRange r.1 r.2} := by
      rw [Set.disjoint_right]
      rintro j ⟨r, hr, hj⟩
      exact Set.disjoint_right.mp (hpw.1 r hr) hj
    have htaken := h.taken_held t
    rw [hheld, Set.disjoint_union_right] at htaken
    refine ⟨h.move rfl ?_ ?_ hpw.2, rfl⟩
    · rw [share, hheld, Set.union_assoc]
    · exact htaken.2.union_left hrest
  · cases hs

/-- The running call of a thread has taken exactly the range that it now reports. -/
theorem Books.keep (h : s.Books cc free₀) {idx n : ℕ} (ht : s.taken t = bitRange idx n) :
    (s.keep t idx n).Books cc free₀ ∧ (s.keep t idx n).taken = Function.update s.taken t ∅ := by
  have htaken : s.taken t \ bitRange idx n = ∅ := by rw [ht, Set.sdiff_self]
  have hd := h.taken_held t
  rw [ht] at hd
  refine ⟨h.move rfl ?_ ?_ ?_, by rw [BitShared.keep, htaken]⟩
  · rw [htaken, Set.empty_union, share, ht]
    ext j
    simp [heldBits]
  · rw [htaken]
    exact Set.empty_disjoint _
  · refine List.pairwise_cons.mpr ⟨?_, h.ranges t⟩
    intro r hr
    have hsub : bitRange r.1 r.2 ⊆ s.heldBits t := fun j hj => ⟨r, hr, hj⟩
    exact hd.mono_right hsub

end BitShared

/-! ## Runs -/

/-- What a call that is about to return has taken: the range it has claimed, if any. -/
def claimPost (_ : Tid) (o : BitOp) (r : o.Res) (g : Set ℕ) : Prop :=
  g = match o.claimed r with
    | some (idx, n) => bitRange idx n
    | none => ∅

theorem claimSystem_start {s' : BitShared Tid} {γ : Tid → Set ℕ} {o : BitOp}
    (hi : (claimOutline Tid cc free₀).inv s γ) (hidle : γ t = ∅)
    (hs : (claimSystem Tid cc).start t o s = some s') :
    ∃ g, (claimOutline Tid cc free₀).inv s' (Function.update γ t g) ∧
      ClaimSafe cc free₀ t (o.prog cc) g (claimPost t o) := by
  obtain ⟨hbooks, rfl⟩ := hi
  have keep : (claimOutline Tid cc free₀).inv s (Function.update s.taken t ∅) := by
    rw [← hidle, Function.update_eq_self]
    exact ⟨hbooks, rfl⟩
  cases o with
  | find n tseq =>
    cases hs
    refine ⟨∅, keep, Bitmap.tryFindAndClearN_safe.mono fun r g hg => ?_⟩
    cases r with
    | none => exact hg
    | some idx => exact hg.1.trans (Set.empty_union _)
  | clearN idx n =>
    simp only [claimSystem] at hs
    split at hs <;> cases hs
    refine ⟨∅, keep, Bitmap.clearN_safe.mono fun r g hg => ?_⟩
    cases r with
    | false => exact hg
    | true => exact hg.1.trans (Set.empty_union _)
  | setN idx n =>
    obtain ⟨hbooks', htaken⟩ := hbooks.giveBack hs
    refine ⟨s.taken t ∪ bitRange idx n, ⟨hbooks', htaken⟩, ?_⟩
    rw [hidle]
    exact Bitmap.setN_safe ⟨rfl, Set.empty_disjoint _⟩

theorem claimSystem_finish {γ : Tid → Set ℕ} {o : BitOp} {r : o.Res}
    (hi : (claimOutline Tid cc free₀).inv s γ) (hpost : claimPost t o r (γ t)) :
    ∃ g, (claimOutline Tid cc free₀).inv ((claimSystem Tid cc).finish t o r s)
      (Function.update γ t g) ∧ g = ∅ := by
  obtain ⟨hbooks, rfl⟩ := hi
  cases hr : o.claimed r with
  | some p =>
    simp only [claimPost, hr] at hpost
    simp only [claimSystem, hr]
    exact ⟨∅, hbooks.keep hpost, rfl⟩
  | none =>
    simp only [claimPost, hr] at hpost
    simp only [claimSystem, hr]
    refine ⟨∅, ⟨hbooks, ?_⟩, rfl⟩
    rw [← hpost, Function.update_eq_self]

variable {c : Config BitAct Tid BitOp BitOp.Res (BitShared Tid)} {word : Words}

/-- The books of a bitmap balance in every reachable configuration. -/
theorem claimSystem_reachable
    (h : (claimSystem Tid cc).Reachable (· = BitShared.init word) System.anyMove c) :
    ∃ γ, (claimOutline Tid cc (bitsOf cc word)).inv c.mem γ ∧
      ∀ t, (claimOutline Tid cc (bitsOf cc word)).Thread
        (bitMachine Tid cc) (fun _ g => g = ∅) claimPost t (γ t) (c.thread t) := by
  refine Outline.reachable (O := claimOutline Tid cc _) ?_ ?_ ?_ ?_ h
  · rintro _ rfl
    exact ⟨fun _ => ∅, ⟨.init, rfl⟩, fun _ => rfl⟩
  · exact fun t o s s' γ hi hidle hs => claimSystem_start hi hidle hs
  · exact fun t o r s γ hi hpost => claimSystem_finish hi hpost
  · exact fun _ _ _ _ _ _ _ _ _ _ _ => trivial

/-! ## The conservation theorem -/

/-- **The bits of a bitmap are conserved.** In every reachable configuration the initially free
bits are the set bits, the bits that threads hold and the bits that running calls have cleared, and
these are pairwise disjoint; two claimed ranges do not meet. A thread without a running call has
cleared nothing, and a call about to return has cleared exactly the range it has claimed, if
any. -/
theorem bitmap_bits_conserved
    (h : (claimSystem Tid cc).Reachable (· = BitShared.init word) System.anyMove c) :
    (∀ b, b ∈ bitsOf cc word ↔
      b ∈ c.mem.setBits cc ∨ (∃ t, b ∈ c.mem.heldBits t) ∨ ∃ t, b ∈ c.mem.taken t) ∧
    (∀ t, Disjoint (c.mem.setBits cc) (c.mem.heldBits t) ∧
      Disjoint (c.mem.setBits cc) (c.mem.taken t)) ∧
    (∀ t u, Disjoint (c.mem.taken t) (c.mem.heldBits u)) ∧
    (∀ t u, t ≠ u → Disjoint (c.mem.heldBits t) (c.mem.heldBits u) ∧
      Disjoint (c.mem.taken t) (c.mem.taken u)) ∧
    (∀ t, (c.mem.held t).Pairwise fun r r' =>
      Disjoint (bitRange r.1 r.2) (bitRange r'.1 r'.2)) ∧
    (∀ t, c.thread t = none → c.mem.taken t = ∅) ∧
    ∀ t o r, c.thread t = some ⟨o, .ret r⟩ →
      c.mem.taken t = match o.claimed r with
        | some (idx, n) => bitRange idx n
        | none => ∅ := by
  obtain ⟨γ, ⟨hbooks, rfl⟩, hth⟩ := claimSystem_reachable h
  have hfree := hbooks.ledger.pool_share
  have hshare := hbooks.ledger.share_share
  simp only [BitShared.share, Set.disjoint_union_right, Set.disjoint_union_left] at hfree hshare
  refine ⟨fun b => ?_, fun t => ⟨(hfree t).2, (hfree t).1⟩, fun t u => ?_, fun t u htu => ?_,
    hbooks.ranges, fun t ht => ?_, fun t o r ht => ?_⟩
  · rw [hbooks.ledger.covers b]
    simp only [BitShared.share, Set.mem_union, exists_or]
    tauto
  · by_cases htu : t = u
    · rw [← htu]
      exact hbooks.taken_held t
    · exact (hshare t u htu).2.1
  · exact ⟨(hshare t u htu).2.2, (hshare t u htu).1.1⟩
  · have hidle := hth t
    rwa [ht] at hidle
  · have hrun := hth t
    rw [ht] at hrun
    have hpost : claimPost t o r (c.mem.taken t) := Safe.of_ret hrun
    exact hpost

/-- The words of a bitmap whose first three bits are free. -/
def threeFree : Words
  | .map 0 => 1#64
  | .chunk 0 0 => 7#64
  | _ => 0#64

/-- A thread claims one of three free bits. -/
theorem bitmap_bits_conserved_find :
    ∃ c, (claimSystem Bool 1).run
        (.start true (.find 1 0) :: List.replicate 5 (.step true 0) ++ [.finish true])
        ⟨BitShared.init threeFree, fun _ => none⟩ = some c ∧
      c.mem.held true = [(0, 1)] ∧ c.mem.taken true = ∅ := by
  obtain ⟨c, hc⟩ : ∃ c, (claimSystem Bool 1).run
      (.start true (.find 1 0) :: List.replicate 5 (.step true 0) ++ [.finish true])
      ⟨BitShared.init threeFree, fun _ => none⟩ = some c := ⟨_, rfl⟩
  have hreach : (claimSystem Bool 1).Reachable (· = BitShared.init threeFree) System.anyMove c :=
    System.reachable_of_run (by rfl) hc
  have hidle := (bitmap_bits_conserved hreach).2.2.2.2.2.1
  refine ⟨c, hc, ?_, hidle true ?_⟩ <;>
  · cases hc
    rfl

end MimallocRs
