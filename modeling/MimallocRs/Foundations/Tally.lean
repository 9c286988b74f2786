import Mathlib.Algebra.Order.BigOperators.Group.Finset
import Mathlib.Algebra.Order.Ring.Nat
import Mathlib.Data.Finsupp.Basic

/-!
# Adding up the numbers of parties

`Tally f n` says that the numbers `f` of any number of parties, of which finitely many are not zero,
add up to `n`. When one party changes its number, the sum changes with it (`Tally.update`).
-/

/-- The numbers of the parties add up to `n`. -/
def Tally {ι : Type*} (f : ι → ℕ) (n : ℕ) : Prop :=
  ∃ g : ι →₀ ℕ, (∀ i, g i = f i) ∧ g.sum (fun _ k => k) = n

namespace Tally

variable {ι : Type*} {f f' : ι → ℕ} {n n' k : ℕ} {i : ι}

theorem zero : Tally (fun _ : ι => 0) 0 := ⟨0, fun _ => rfl, Finsupp.sum_zero_index⟩

theorem mono (h : Tally f n) (h' : Tally f' n') (hle : ∀ i, f i ≤ f' i) : n ≤ n' := by
  obtain ⟨g, hg, rfl⟩ := h
  obtain ⟨g', hg', rfl⟩ := h'
  have hsub : g.support ⊆ g'.support := by
    intro i hi
    rw [Finsupp.mem_support_iff, hg] at hi
    rw [Finsupp.mem_support_iff, hg']
    have := hle i
    omega
  calc ∑ i ∈ g.support, g i
      ≤ ∑ i ∈ g.support, g' i := Finset.sum_le_sum fun i _ => by rw [hg, hg']; exact hle i
    _ ≤ ∑ i ∈ g'.support, g' i := Finset.sum_le_sum_of_subset hsub

theorem eq_zero (h : Tally f n) (hf : ∀ i, f i = 0) : n = 0 :=
  Nat.le_zero.mp (h.mono zero fun i => (hf i).le)

theorem congr (h : Tally f n) (hf : ∀ i, f' i = f i) : Tally f' n := by
  rwa [funext hf]

variable [DecidableEq ι]

theorem single : Tally (Function.update (fun _ : ι => 0) i k) k := by
  refine ⟨Finsupp.single i k, fun j => ?_, Finsupp.sum_single_index rfl⟩
  by_cases hj : j = i
  · subst hj
    simp
  · simp [hj]

theorem le (h : Tally f n) (i : ι) : f i ≤ n := by
  apply (single (i := i) (k := f i)).mono h
  intro j
  by_cases hj : j = i
  · subst hj
    rw [Function.update_self]
  · rw [Function.update_of_ne hj]
    exact Nat.zero_le _

/-- A party changes its number. -/
theorem update (h : Tally f n) (i : ι) (k : ℕ) : Tally (Function.update f i k) (n - f i + k) := by
  have hle := h.le i
  obtain ⟨g, hg, hn⟩ := h
  have hsum := Finsupp.sum_update_add g i k (fun _ k => k) (fun _ => rfl) (fun _ _ _ => rfl)
  rw [hn, hg i] at hsum
  refine ⟨g.update i k, fun j => ?_, by omega⟩
  rw [Finsupp.coe_update, funext hg]

/-- A party changes, and with it the number that is read off its state. -/
theorem update_of {γ : Type*} {r : γ → ℕ} {s : ι → γ} (h : Tally (fun i => r (s i)) n) (i : ι)
    (x : γ) : Tally (fun j => r (Function.update s i x j)) (n - r (s i) + r x) := by
  apply (h.update i (r x)).congr
  intro j
  by_cases hj : j = i
  · subst hj
    simp
  · simp [hj]

/-- A party changes, but not the number that is read off its state. -/
theorem keep_of {γ : Type*} {r : γ → ℕ} {s : ι → γ} (h : Tally (fun i => r (s i)) n) (i : ι)
    {x : γ} (hx : r x = r (s i)) : Tally (fun j => r (Function.update s i x j)) n := by
  have hle := h.le i
  have hnew := h.update_of i x
  rwa [hx, Nat.sub_add_cancel hle] at hnew

end Tally
