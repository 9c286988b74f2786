import Mathlib.Data.Set.Card
import Mathlib.Order.CompletePartialOrder
import Mathlib.Logic.Function.Basic

/-!
# Stores of blocks

A store gives blocks to names. A block is a set of cells, and no two names have a cell in common. A
name may be given a block that touches no other (`BlockStore.give`), and names may be taken back
(`BlockStore.without`). What a client may rely on is that nothing else happens to a block: it is the
same as long as its name is not taken back, whatever is done with other names (`give_of_ne`,
`without_of_notMem`).
-/

universe u v

/-- Blocks for names, no two of which share a cell. -/
@[ext]
structure BlockStore (Name : Type u) (Cell : Type v) where
  block : Name → Option (Set Cell)
  apart : ∀ {a b A B}, block a = some A → block b = some B → a ≠ b → Disjoint A B

namespace BlockStore

variable {Name : Type u} {Cell : Type v} {s s' : BlockStore Name Cell} {a b : Name}
  {A B : Set Cell} {P : Set Name}

/-- The store that has given out nothing. -/
def empty : BlockStore Name Cell where
  block _ := none
  apart := by
    intro a b A B ha
    cases ha

/-- The block `A` touches no block but that of `a`. -/
def Fits (s : BlockStore Name Cell) (a : Name) (A : Set Cell) : Prop :=
  ∀ b B, s.block b = some B → b ≠ a → Disjoint A B

/-- The name `a` is given the block `A`. -/
def give [DecidableEq Name] (s : BlockStore Name Cell) (a : Name) (A : Set Cell)
    (h : s.Fits a A) : BlockStore Name Cell where
  block := Function.update s.block a (some A)
  apart := by
    intro b c B C hb hc hne
    by_cases hba : b = a
    · subst hba
      rw [Function.update_self] at hb
      rw [Function.update_of_ne hne.symm] at hc
      cases hb
      exact h c C hc hne.symm
    · rw [Function.update_of_ne hba] at hb
      by_cases hca : c = a
      · subst hca
        rw [Function.update_self] at hc
        cases hc
        exact (h b B hb hba).symm
      · rw [Function.update_of_ne hca] at hc
        exact s.apart hb hc hne

open Classical in
/-- The names in `P` are taken back. -/
noncomputable def without (s : BlockStore Name Cell) (P : Set Name) : BlockStore Name Cell where
  block a := if a ∈ P then none else s.block a
  apart := by
    intro a b A B ha hb hne
    split at ha
    · cases ha
    · split at hb
      · cases hb
      · exact s.apart ha hb hne

@[simp] theorem give_self [DecidableEq Name] {h : s.Fits a A} :
    (s.give a A h).block a = some A :=
  Function.update_self ..

theorem give_of_ne [DecidableEq Name] {h : s.Fits a A} (hne : b ≠ a) :
    (s.give a A h).block b = s.block b :=
  Function.update_of_ne hne ..

@[simp] theorem without_of_mem (ha : a ∈ P) : (s.without P).block a = none := if_pos ha

theorem without_of_notMem (ha : a ∉ P) : (s.without P).block a = s.block a := if_neg ha

/-- A store in which a name has been given a block, and nothing else has happened. -/
theorem eq_give [DecidableEq Name] (ha : s'.block a = some A) (hothers : ∀ b, b ≠ a → s'.block b = s.block b) :
    ∃ h : s.Fits a A, s' = s.give a A h := by
  have hfits : s.Fits a A := by
    intro b B hb hne
    exact s'.apart ha ((hothers b hne).trans hb) hne.symm
  refine ⟨hfits, ?_⟩
  ext1
  funext b
  by_cases hb : b = a
  · rw [hb, ha, give_self]
  · rw [hothers b hb, give_of_ne hb]

/-- A store in which names have been taken back, and nothing else has happened. -/
theorem eq_without (hP : ∀ a ∈ P, s'.block a = none)
    (hothers : ∀ a, a ∉ P → s'.block a = s.block a) : s' = s.without P := by
  ext1
  funext a
  by_cases ha : a ∈ P
  · rw [hP a ha, without_of_mem ha]
  · rw [hothers a ha, without_of_notMem ha]

/-! ## The number of names -/

/-- How many names have a block. -/
noncomputable def size (s : BlockStore Name Cell) : ℕ∞ := {a | s.block a ≠ none}.encard

theorem size_give [DecidableEq Name] {h : s.Fits a A} (ha : s.block a = none) :
    (s.give a A h).size = s.size + 1 := by
  have hset : {b | (s.give a A h).block b ≠ none} = insert a {b | s.block b ≠ none} := by
    ext b
    by_cases hb : b = a
    · simp [hb]
    · simp [hb, give_of_ne hb]
  unfold size
  rw [hset]
  exact Set.encard_insert_of_notMem fun hc => hc ha

theorem size_le_without (s : BlockStore Name Cell) (a : Name) :
    s.size ≤ (s.without {a}).size + 1 := by
  have hset : {b | s.block b ≠ none} ⊆ insert a {b | (s.without {a}).block b ≠ none} := by
    intro b hb
    by_cases hba : b = a
    · exact Or.inl hba
    · refine Or.inr ?_
      show (s.without {a}).block b ≠ none
      rwa [without_of_notMem (show b ∉ ({a} : Set Name) from hba)]
  exact (Set.encard_le_encard hset).trans (Set.encard_insert_le _ _)

end BlockStore
