import Mathlib.Data.Rat.Floor
import Mathlib.Tactic.Positivity

/-!
# Random draws

What the simulators make of `random.random()`, with the number drawn taken as a rational. The
numbers themselves are arguments of the model; what is proved here is which values
`int(random.random() * n)` can have, and that it can have each of them.
-/

namespace OsLab

/-- A number that `random.random()` may return. -/
def IsDraw (x : Rat) : Prop := 0 ≤ x ∧ x < 1

instance (x : Rat) : Decidable (IsDraw x) := inferInstanceAs (Decidable (_ ∧ _))

/-- `int(x)`, which rounds towards zero. -/
def intOfRat (x : Rat) : Int := if 0 ≤ x then ⌊x⌋ else ⌈x⌉

/-- A number that is not negative is rounded down. -/
theorem intOfRat_of_nonneg {x : Rat} (hx : 0 ≤ x) : intOfRat x = ⌊x⌋ := if_pos hx

/-- `int(random.random() * n)` is one of the numbers below `n`, because a draw is less than 1. -/
theorem intOfRat_draw_mul {x : Rat} (hx : IsDraw x) {n : Nat} (hn : 0 < n) :
    0 ≤ intOfRat (x * n) ∧ intOfRat (x * n) < n := by
  have hpos : (0 : Rat) < n := Nat.cast_pos.mpr hn
  have hnonneg : 0 ≤ x * n := mul_nonneg hx.1 hpos.le
  rw [intOfRat_of_nonneg hnonneg]
  constructor
  · exact Int.floor_nonneg.mpr hnonneg
  · rw [Int.floor_lt]
    calc x * n < 1 * n := mul_lt_mul_of_pos_right hx.2 hpos
      _ = ((n : Int) : Rat) := by rw [one_mul, Int.cast_natCast]

/-- Each of the numbers below `n` is drawn, for instance by the draw `k / n`. -/
theorem exists_intOfRat_draw_mul {n k : Nat} (hk : k < n) :
    ∃ x, IsDraw x ∧ intOfRat (x * n) = k := by
  have hpos : (0 : Rat) < n := Nat.cast_pos.mpr (by omega)
  refine ⟨k / n, ⟨by positivity, ?_⟩, ?_⟩
  · rw [div_lt_one hpos]
    exact Nat.cast_lt.mpr hk
  · rw [div_mul_cancel₀ _ hpos.ne', intOfRat_of_nonneg (Nat.cast_nonneg k)]
    exact Int.floor_natCast k

end OsLab
