import Mathlib.Algebra.BigOperators.Intervals
import Mathlib.Tactic.Abel

/-!
# Two running sums

The first sum adds up the elements of a list, the second one adds up the values that the first one
takes. An element counts in the second sum as often as elements follow it, and once more. Lists of
the same length that differ in one place, or in two, are compared by their two sums over any ring:
`sums_eq_iff_single` and `sums_eq_iff`.
-/

namespace OsLab.RunningSums

section Sums

variable {R : Type*} [AddCommMonoid R]

/-- What one element does to the two sums. -/
def add (s : R × R) (x : R) : R × R := (s.1 + x, s.2 + (s.1 + x))

/-- Each element as often as it counts in the second sum. -/
def weighted : List R → R
  | [] => 0
  | x :: l => (l.length + 1) • x + weighted l

/-- The closed form of both sums, from any start: the start counts in the second sum once for each
element. -/
theorem foldl_add (l : List R) (s : R × R) :
    l.foldl add s = (s.1 + l.sum, s.2 + l.length • s.1 + weighted l) := by
  induction l generalizing s with
  | nil =>
    show s = (s.1 + 0, s.2 + 0 • s.1 + 0)
    rw [add_zero, zero_nsmul, add_zero, add_zero]
  | cons x l ih =>
    rw [List.foldl_cons, ih, List.sum_cons, List.length_cons]
    refine Prod.ext (add_assoc _ _ _) ?_
    show s.2 + (s.1 + x) + l.length • (s.1 + x) + weighted l =
      s.2 + (l.length + 1) • s.1 + ((l.length + 1) • x + weighted l)
    rw [nsmul_add, succ_nsmul, succ_nsmul]
    abel

/-- The first sum as a sum over the places of the list. -/
theorem sum_eq_range (l : List R) : l.sum = ∑ k ∈ Finset.range l.length, l.getD k 0 := by
  induction l with
  | nil => rfl
  | cons x l ih =>
    rw [List.length_cons, Finset.sum_range_succ', List.sum_cons, ih, add_comm]
    rfl

/-- The second sum as a sum over the places, each with the number of places from it to the end. -/
theorem weighted_eq_range (l : List R) :
    weighted l = ∑ k ∈ Finset.range l.length, (l.length - k) • l.getD k 0 := by
  induction l with
  | nil => rfl
  | cons x l ih =>
    rw [List.length_cons, Finset.sum_range_succ', weighted, ih, add_comm]
    congr 1
    apply Finset.sum_congr rfl
    intro k _
    rw [Nat.add_sub_add_right]
    rfl

end Sums

section Differences

variable {R : Type*} [AddCommGroup R] {n i j : Nat} {f g : Nat → R}

/-- Only two places count when all others agree, whatever the weights are. -/
theorem weight_sub (w : Nat → Nat) (hij : i < j) (hj : j < n)
    (hagree : ∀ k, k ≠ i → k ≠ j → f k = g k) :
    ∑ k ∈ Finset.range n, w k • f k - ∑ k ∈ Finset.range n, w k • g k =
      w i • (f i - g i) + w j • (f j - g j) := by
  rw [← Finset.sum_sub_distrib, Finset.sum_eq_add i j (Nat.ne_of_lt hij)]
  · rw [nsmul_sub, nsmul_sub]
  · intro k _ hk
    rw [hagree k hk.1 hk.2, sub_self]
  · intro hi
    exact absurd (Finset.mem_range.mpr (hij.trans hj)) hi
  · intro hj'
    exact absurd (Finset.mem_range.mpr hj) hj'

/-- One place tells the first sums apart: lists that agree elsewhere have the same sums only if they
agree there. -/
theorem sums_eq_iff_single (hi : i < n) (hagree : ∀ k, k ≠ i → f k = g k) :
    (∑ k ∈ Finset.range n, f k = ∑ k ∈ Finset.range n, g k ∧
      ∑ k ∈ Finset.range n, (n - k) • f k = ∑ k ∈ Finset.range n, (n - k) • g k) ↔
    f i = g i := by
  constructor
  · intro ⟨hfirst, _⟩
    rw [← sub_eq_zero, ← Finset.sum_sub_distrib, Finset.sum_eq_single_of_mem i
      (Finset.mem_range.mpr hi) fun k _ hk => sub_eq_zero.mpr (hagree k hk)] at hfirst
    exact sub_eq_zero.mp hfirst
  · intro heq
    have hfg : f = g := by
      funext k
      by_cases hk : k = i
      · rw [hk, heq]
      · exact hagree k hk
    rw [hfg]
    exact ⟨rfl, rfl⟩

/-- Both sums agree exactly when the two differences cancel and the first one vanishes as often as
the places are apart. -/
theorem sums_eq_iff (hij : i < j) (hj : j < n) (hagree : ∀ k, k ≠ i → k ≠ j → f k = g k) :
    (∑ k ∈ Finset.range n, f k = ∑ k ∈ Finset.range n, g k ∧
      ∑ k ∈ Finset.range n, (n - k) • f k = ∑ k ∈ Finset.range n, (n - k) • g k) ↔
    f i - g i + (f j - g j) = 0 ∧ (j - i) • (f i - g i) = 0 := by
  have hfirst := weight_sub (fun _ => 1) hij hj hagree
  simp only [one_nsmul] at hfirst
  rw [← sub_eq_zero, hfirst, ← sub_eq_zero (b := ∑ k ∈ Finset.range n, (n - k) • g k),
    weight_sub (n - ·) hij hj hagree]
  apply and_congr_right
  intro hcancel
  rw [← neg_eq_of_add_eq_zero_right hcancel, neg_nsmul, ← sub_eq_add_neg]
  have hweight : n - i = n - j + (j - i) := by omega
  rw [hweight, add_nsmul, add_sub_cancel_left]

end Differences

end OsLab.RunningSums
