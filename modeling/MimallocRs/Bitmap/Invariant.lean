import MimallocRs.Bitmap.Shared
import MimallocRs.Foundations.Interleave.Outline
import MimallocRs.Foundations.Ledger

/-!
# The books of a bitmap

`BitShared.Books cc free₀ s` says that the bits `free₀` are divided between the bitmap, where they
are set, and the threads, and that the share of a thread is divided between its running call and
the ranges it holds. `claimOutline` is the outline with this invariant: the ghost of a thread is
what its running call has taken. An exchange of a word keeps the books when the bits it sets are
among those the call has taken (`BitShared.Books.exchange`).
-/

namespace MimallocRs

open Interleave

namespace BitShared

variable {Tid : Type} {cc : ℕ} {s : BitShared Tid} {t : Tid} {l : Loc} {old new : BitVec 64}

/-- The bits of a thread: those its running call has taken and those it holds. -/
def share (s : BitShared Tid) (t : Tid) : Set ℕ := s.taken t ∪ s.heldBits t

/-- The bits of `free₀` are divided between the bitmap and the threads, and the share of a thread
between its running call and its ranges. -/
structure Books (cc : ℕ) (free₀ : Set ℕ) (s : BitShared Tid) : Prop where
  ledger : Ledger free₀ (s.setBits cc) s.share
  taken_held : ∀ t, Disjoint (s.taken t) (s.heldBits t)
  ranges : ∀ t, (s.held t).Pairwise fun r r' => Disjoint (bitRange r.1 r.2) (bitRange r'.1 r'.2)

variable [DecidableEq Tid]

/-- The set bits after a word has been exchanged. -/
theorem setBits_exchange (hl : l.Valid cc) (hw : s.word l = old) :
    (s.exchange t l old new).setBits cc =
      (s.setBits cc \ l.bits (old &&& ~~~new)) ∪ l.bits (new &&& ~~~old) := by
  subst hw
  exact bitsOf_update hl

/-- **An exchange keeps the books** when the bits it sets are among those the call has taken. -/
theorem Books.exchange {free₀ : Set ℕ} (h : s.Books cc free₀) (hl : l.Valid cc)
    (hw : s.word l = old) (hset : l.bits (new &&& ~~~old) ⊆ s.taken t) :
    (s.exchange t l old new).Books cc free₀ := by
  have hpool : l.bits (old &&& ~~~new) ⊆ s.setBits cc := by
    rw [Loc.bits_and_not, ← hw]
    exact Set.sdiff_subset.trans (bits_subset_bitsOf hl)
  have hledger := (h.ledger.take (i := t) hpool).give (i := t) (A := l.bits (new &&& ~~~old)) (by
    rw [Function.update_self]
    exact hset.trans (Set.subset_union_left.trans Set.subset_union_left))
  have hheld : Disjoint (l.bits (new &&& ~~~old)) (s.heldBits t) := (h.taken_held t).mono_left hset
  have hcleared : Disjoint (l.bits (old &&& ~~~new)) (s.heldBits t) :=
    ((h.ledger.pool_share t).mono_left hpool).mono_right Set.subset_union_right
  refine ⟨?_, ?_, h.ranges⟩
  · rw [setBits_exchange hl hw]
    convert hledger using 1
    funext u
    by_cases hu : u = t
    · subst hu
      rw [Function.update_self, Function.update_self, share, share, exchange_taken,
        exchange_heldBits, Set.union_right_comm (s.taken u) (s.heldBits u),
        Set.union_sdiff_distrib (s := s.taken u ∪ _), hheld.symm.sdiff_eq_left]
    · simp [share, BitShared.exchange, heldBits, Function.update_of_ne hu]
  · have htaken := Function.forall_update_iff (a := t) (b := (s.exchange t l old new).taken t)
      s.taken (p := fun u A => Disjoint A (s.heldBits u))
    rw [exchange_taken] at htaken
    apply htaken.mpr
    refine ⟨?_, fun u _ => h.taken_held u⟩
    exact ((h.taken_held t).union_left hcleared).mono_left Set.sdiff_subset

end BitShared

/-! ## The outline -/

variable (Tid : Type) [DecidableEq Tid]

/-- The books balance, and the ghost of a thread is what its running call has taken. -/
def claimOutline (cc : ℕ) (free₀ : Set ℕ) : Outline BitAct Tid (BitShared Tid) (Set ℕ) where
  inv s γ := s.Books cc free₀ ∧ s.taken = γ

variable {Tid}

/-- `Safe` for the bitmap programs, with what the call has taken. -/
abbrev ClaimSafe {α : Type} (cc : ℕ) (free₀ : Set ℕ) (t : Tid) (p : Prog BitAct α) (g : Set ℕ)
    (Q : α → Set ℕ → Prop) : Prop :=
  Safe (bitMachine Tid cc) (claimOutline Tid cc free₀) t p g Q

namespace ClaimSafe

variable {cc : ℕ} {free₀ : Set ℕ} {t : Tid} {g : Set ℕ} {l : Loc} {α : Type}
variable {Q : α → Set ℕ → Prop}

omit [DecidableEq Tid] in
/-- No bit of a word of the bitmap has been taken. -/
theorem disjoint_bits {s : BitShared Tid} (h : s.Books cc free₀) (hl : l.Valid cc) :
    Disjoint (s.taken t) (l.bits (s.word l)) :=
  ((h.ledger.pool_share t).mono_left (bits_subset_bitsOf hl)).symm.mono_left
    Set.subset_union_left

theorem load {k : BitVec 64 → Prog BitAct α}
    (h : ∀ w, l.Valid cc → Disjoint g (l.bits w) → ClaimSafe cc free₀ t (k w) g Q) :
    ClaimSafe cc free₀ t (.act (.load l) k) g Q := by
  apply Safe.act
  rintro s γ choice b s' ⟨hbooks, rfl⟩ rfl - hex
  have hex : s.exec cc t (.load l) choice = some (b, s') := hex
  simp only [BitShared.exec, Option.ite_none_right_eq_some, Option.some.injEq,
    Prod.mk.injEq] at hex
  obtain ⟨hl, rfl, rfl⟩ := hex
  refine ⟨trivial, s.taken t, ?_, h _ hl (disjoint_bits hbooks hl)⟩
  rw [Function.update_eq_self]
  exact ⟨⟨hbooks.ledger, hbooks.taken_held, hbooks.ranges⟩, rfl⟩

theorem cas {old new : BitVec 64} {k : Option (BitVec 64) → Prog BitAct α}
    (hset : l.bits (new &&& ~~~old) ⊆ g)
    (hdone : l.Valid cc → Disjoint g (l.bits old) →
      ClaimSafe cc free₀ t (k none) ((g ∪ l.bits (old &&& ~~~new)) \ l.bits (new &&& ~~~old)) Q)
    (hseen : ∀ w, Disjoint g (l.bits w) → ClaimSafe cc free₀ t (k (some w)) g Q) :
    ClaimSafe cc free₀ t (.act (.cas l old new) k) g Q := by
  apply Safe.act
  rintro s γ choice b s' ⟨hbooks, rfl⟩ rfl - hex
  have hex : s.exec cc t (.cas l old new) choice = some (b, s') := hex
  simp only [BitShared.exec] at hex
  split at hex
  · cases hex
  · next hl =>
    rw [not_not] at hl
    split at hex
    · next hw =>
      cases hex
      have hdis : Disjoint (s.taken t) (l.bits old) := by
        rw [← hw.1]
        exact disjoint_bits hbooks hl
      have hnew := hbooks.exchange hl hw.1 hset
      exact ⟨trivial, _, ⟨⟨hnew.ledger, hnew.taken_held, hnew.ranges⟩, rfl⟩, hdone hl hdis⟩
    · cases hex
      refine ⟨trivial, s.taken t, ?_, hseen _ (disjoint_bits hbooks hl)⟩
      rw [Function.update_eq_self]
      exact ⟨⟨hbooks.ledger, hbooks.taken_held, hbooks.ranges⟩, rfl⟩

end ClaimSafe

end MimallocRs
