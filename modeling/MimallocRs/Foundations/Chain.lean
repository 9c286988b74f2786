import Mathlib.Data.List.Nodup
import Mathlib.Logic.Function.Basic

/-!
# Singly linked chains in a memory of links

`Chain next h l` says that the links `next` lead from the head pointer `h` through exactly the
cells of `l`, in order, to the end of the list. The list is determined by the head
(`Chain.unique`), a write outside the list does not change it (`Chain.update`), and a chain can
be pushed onto, popped and have another chain linked behind its last cell (`Chain.append`).
`lastOf` and `walkLength` are the bounded walks that find the last cell and the number of cells.
-/

namespace Interleave

variable {ι : Type*} {next : ι → Option ι}

/-- The links lead from `h` through the cells of `l` to the end. -/
def Chain (next : ι → Option ι) : Option ι → List ι → Prop
  | h, [] => h = none
  | h, b :: l => h = some b ∧ Chain next (next b) l

@[simp] theorem chain_nil {h : Option ι} : Chain next h [] ↔ h = none := Iff.rfl

@[simp] theorem chain_cons {h : Option ι} {b : ι} {l : List ι} :
    Chain next h (b :: l) ↔ h = some b ∧ Chain next (next b) l := Iff.rfl

namespace Chain

theorem of_some {b : ι} {l : List ι} (h : Chain next (some b) l) :
    ∃ l', l = b :: l' ∧ Chain next (next b) l' := by
  cases l with
  | nil => cases h
  | cons c l' =>
    obtain ⟨hc, h⟩ := h
    cases hc
    exact ⟨l', rfl, h⟩

@[simp] theorem none_iff {l : List ι} : Chain next none l ↔ l = [] := by
  cases l <;> simp

theorem head_eq {h : Option ι} {l : List ι} (hl : Chain next h l) : h = l.head? := by
  cases l with
  | nil => exact hl
  | cons b l => exact hl.1

/-- What is left of a chain without its first cell. -/
theorem tail {h : Option ι} {b : ι} {l : List ι} (hl : Chain next h (b :: l)) :
    Chain next l.head? l := by
  rw [← hl.2.head_eq]
  exact hl.2

/-- The cells are determined by the head. -/
theorem unique {h : Option ι} {l l' : List ι} (hl : Chain next h l) (hl' : Chain next h l') :
    l = l' := by
  induction l generalizing h l' with
  | nil =>
    rw [chain_nil] at hl
    subst hl
    exact (none_iff.mp hl').symm
  | cons b l ih =>
    obtain ⟨rfl, hl⟩ := hl
    obtain ⟨l₁, rfl, hl₁⟩ := of_some hl'
    rw [ih hl hl₁]

/-- A change of links outside the list. -/
theorem congr {next' : ι → Option ι} {h : Option ι} {l : List ι}
    (hn : ∀ b ∈ l, next' b = next b) (hl : Chain next h l) : Chain next' h l := by
  induction l generalizing h with
  | nil => exact hl
  | cons b l ih =>
    obtain ⟨rfl, hl⟩ := hl
    refine ⟨rfl, ?_⟩
    rw [hn b (by simp)]
    exact ih (fun c hc => hn c (by simp [hc])) hl

/-- What follows a cell of a chain. -/
theorem behind {h : Option ι} {l rest : List ι} {b : ι} (hl : Chain next h (l ++ b :: rest)) :
    Chain next (next b) rest := by
  induction l generalizing h with
  | nil => exact hl.2
  | cons c l ih => exact ih hl.2

variable [DecidableEq ι]

theorem update {h v : Option ι} {l : List ι} {b : ι} (hb : b ∉ l) (hl : Chain next h l) :
    Chain (Function.update next b v) h l :=
  hl.congr fun c hc => by
    have hcb : c ≠ b := by
      rintro rfl
      exact hb hc
    simp [hcb]

/-- Push a cell that is not in the list. -/
theorem push {h : Option ι} {l : List ι} {b : ι} (hb : b ∉ l) (hl : Chain next h l) :
    Chain (Function.update next b h) (some b) (b :: l) :=
  ⟨rfl, by simpa using hl.update hb⟩

/-- Link a second chain behind a cell of a first, in place of what followed it. -/
theorem append {h k : Option ι} {l rest m : List ι} {b : ι} (hl : Chain next h (l ++ b :: rest))
    (hm : Chain next k m) (hn : (l ++ [b]).Nodup) (hb : b ∉ m) :
    Chain (Function.update next b k) h (l ++ [b] ++ m) := by
  induction l generalizing h with
  | nil =>
    obtain ⟨rfl, -⟩ := hl
    exact ⟨rfl, by simpa using hm.update hb⟩
  | cons c l ih =>
    obtain ⟨rfl, hl⟩ := hl
    obtain ⟨hc, hn⟩ := List.nodup_cons.mp hn
    have hcb : c ≠ b := by
      rintro rfl
      simp at hc
    refine ⟨rfl, ?_⟩
    rw [Function.update_of_ne hcb]
    exact ih hl hn

/-- Cut a chain behind one of its cells. -/
theorem cut {h : Option ι} {l rest : List ι} {b : ι} (hl : Chain next h (l ++ b :: rest))
    (hn : (l ++ [b]).Nodup) : Chain (Function.update next b none) h (l ++ [b]) := by
  simpa using hl.append (m := []) rfl hn (by simp)

end Chain

/-! ## Bounded walks -/

/-- The last cell reached from `b` in at most `n` links. -/
def lastOf (next : ι → Option ι) : ℕ → ι → ι
  | 0, b => b
  | n + 1, b =>
    match next b with
    | none => b
    | some c => lastOf next n c

/-- The number of cells visited from `b` in at most `n` links. -/
def walkLength (next : ι → Option ι) : ℕ → ι → ℕ
  | 0, _ => 1
  | n + 1, b =>
    match next b with
    | none => 1
    | some c => walkLength next n c + 1

/-- The cells visited from `h` on, at most `n` of them. -/
def walk (next : ι → Option ι) : ℕ → Option ι → List ι
  | 0, _ => []
  | _ + 1, none => []
  | n + 1, some b => b :: walk next n (next b)

theorem walk_eq {h : Option ι} {l : List ι} (hl : Chain next h l) : walk next l.length h = l := by
  induction l generalizing h with
  | nil => rfl
  | cons b l ih =>
    obtain ⟨rfl, hl⟩ := hl
    exact congrArg (b :: ·) (ih hl)

theorem lastOf_eq {n : ℕ} {b : ι} {l : List ι} (hl : Chain next (some b) (b :: l))
    (hn : l.length ≤ n) : lastOf next n b = (b :: l).getLast (by simp) := by
  induction n generalizing b l with
  | zero =>
    obtain rfl : l = [] := List.length_eq_zero_iff.mp (by omega)
    rfl
  | succ n ih =>
    cases l with
    | nil =>
      have hb : next b = none := hl.2
      simp [lastOf, hb]
    | cons c l =>
      have hb : next b = some c := hl.2.1
      simp only [lastOf, hb]
      rw [ih ⟨rfl, hl.2.2⟩ (by simp at hn; omega)]
      simp

theorem walkLength_eq {n : ℕ} {b : ι} {l : List ι} (hl : Chain next (some b) (b :: l))
    (hn : l.length ≤ n) : walkLength next n b = l.length + 1 := by
  induction n generalizing b l with
  | zero =>
    obtain rfl : l = [] := List.length_eq_zero_iff.mp (by omega)
    rfl
  | succ n ih =>
    cases l with
    | nil =>
      have hb : next b = none := hl.2
      simp [walkLength, hb]
    | cons c l =>
      have hb : next b = some c := hl.2.1
      simp only [walkLength, hb]
      rw [ih ⟨rfl, hl.2.2⟩ (by simp at hn; omega)]
      simp

end Interleave
