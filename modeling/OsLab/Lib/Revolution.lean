import Mathlib.Algebra.Order.Floor.Semifield
import Mathlib.Algebra.Order.Field.Basic
import Mathlib.Tactic.Linarith

/-!
# A pointer that turns in steps

A pointer moves on by `r` at each tick and starts again from 0 when it reaches `c`. It need not
reach `c` exactly; what is left over is lost. Each revolution takes the same number of ticks, and
one of them brings the pointer nearer than a step to any given mark.

* **`First`**, **`NotYet`** -- the first time that something holds, and that it has not held so far.
  Where it recurs every `m` times, the wait is shorter than `m`: `First.lt_of_recurring`.
* **`turn`**, **`period`**, **`position`** -- the pointer, the ticks of a revolution, and where the
  pointer is after `n` ticks, in closed form (`turn_position`).
* **`exists_near`** -- in each revolution some tick brings the pointer nearer than a step to a mark.
* **`position_one`**, **`First.residue`** -- with steps of one the pointer meets every whole mark,
  and how long that takes is a residue.
-/

namespace OsLab.Revolution

/-! ## The first time -/

/-- `b` is the first time from `a` on at which `P` holds. -/
structure First (P : Nat → Prop) (a b : Nat) : Prop where
  le : a ≤ b
  holds : P b
  before : ∀ t, a ≤ t → t < b → ¬P t

section First

variable {P : Nat → Prop} {a b k m : Nat}

/-- The first time is not later than any other. -/
theorem First.le_of_holds (h : First P a b) (hk : a ≤ k) (hP : P k) : b ≤ k := by
  by_contra hlt
  exact h.before k hk (by omega) hP

/-- Where `P` holds once among any `m` times in a row, the first time is one of the next `m`. -/
theorem First.lt_of_recurring (h : First P a b) (hrec : ∃ k < m, P (a + k)) : b < a + m := by
  obtain ⟨k, hk, hP⟩ := hrec
  have hle := h.le_of_holds (Nat.le_add_right a k) hP
  omega

/-- From `a` on and up to `b`, `P` has not held. -/
structure NotYet (P : Nat → Prop) (a b : Nat) : Prop where
  le : a ≤ b
  before : ∀ t, a ≤ t → t < b → ¬P t

/-- At the start nothing has been missed. -/
theorem NotYet.refl (P : Nat → Prop) (a : Nat) : NotYet P a a :=
  ⟨le_refl a, fun _ hle hlt => absurd hlt (not_lt.mpr hle)⟩

/-- If it holds now and has not held before, this is the first time. -/
theorem NotYet.first (h : NotYet P a b) (hP : P b) : First P a b := ⟨h.le, hP, h.before⟩

/-- If it does not hold now either, it has still not held. -/
theorem NotYet.succ (h : NotYet P a b) (hP : ¬P b) : NotYet P a (b + 1) := by
  refine ⟨Nat.le_succ_of_le h.le, fun t hle hlt => ?_⟩
  rcases Nat.lt_succ_iff_lt_or_eq.mp hlt with hbefore | rfl
  · exact h.before t hle hbefore
  · exact hP

/-- As long as `P` has not held, fewer than `m` times have gone by. -/
theorem NotYet.lt_of_recurring (h : NotYet P a b) (hrec : ∃ k < m, P (a + k)) : b < a + m := by
  obtain ⟨k, hk, hP⟩ := hrec
  by_contra hlate
  exact h.before (a + k) (Nat.le_add_right a k) (by omega) hP

end First

/-! ## The pointer -/

section Pointer

variable {α : Type*} [Field α] [LinearOrder α] [IsStrictOrderedRing α] [FloorSemiring α]

/-- One tick. -/
def turn (r c a : α) : α := if c ≤ a + r then 0 else a + r

/-- The ticks of a revolution. -/
def period (r c : α) : Nat := ⌈c / r⌉₊

/-- Where the pointer is after `n` ticks. -/
def position (r c : α) (n : Nat) : α := (n % period r c : Nat) * r

variable {r c : α}

/-- A revolution takes at least one tick. -/
theorem period_pos (hr : 0 < r) (hc : 0 < c) : 0 < period r c :=
  Nat.ceil_pos.mpr (div_pos hc hr)

/-- A number of ticks is less than a revolution as long as the pointer has not come to `c`. -/
theorem lt_period_iff (hr : 0 < r) {k : Nat} : k < period r c ↔ k * r < c := by
  unfold period
  rw [Nat.lt_ceil, lt_div_iff₀ hr]

omit [IsStrictOrderedRing α] in
/-- The pointer starts at 0. -/
theorem position_zero (r c : α) : position r c 0 = 0 := by
  unfold position
  rw [Nat.zero_mod, Nat.cast_zero, zero_mul]

/-- A tick takes the pointer to its next position, also where it starts again from 0. -/
theorem turn_position (hr : 0 < r) (hc : 0 < c) (n : Nat) :
    turn r c (position r c n) = position r c (n + 1) := by
  have hpos := period_pos hr hc
  have hlt := Nat.mod_lt n hpos
  have hstep : ((n % period r c : Nat) : α) * r + r = ((n % period r c + 1 : Nat) : α) * r := by
    rw [Nat.cast_succ, add_mul, one_mul]
  unfold turn position
  rw [hstep]
  by_cases hlast : n % period r c + 1 < period r c
  · have hmod : (n + 1) % period r c = n % period r c + 1 := by
      rw [Nat.add_mod, Nat.mod_eq_of_lt (show 1 < period r c by omega), Nat.mod_eq_of_lt hlast]
    rw [if_neg (not_le_of_gt ((lt_period_iff hr).mp hlast)), hmod]
  · -- the last tick of the revolution
    have hmod : (n + 1) % period r c = 0 := by
      rw [← Nat.mod_add_mod, show n % period r c + 1 = period r c by omega, Nat.mod_self]
    have hover : c ≤ ((n % period r c + 1 : Nat) : α) * r := by
      by_contra hunder
      exact hlast ((lt_period_iff hr).mpr (not_le.mp hunder))
    rw [if_pos hover, hmod, Nat.cast_zero, zero_mul]

/-- In each revolution some tick brings the pointer nearer than a step to a mark that lies below
`c`. -/
theorem exists_near (hr : 0 < r) (hc : 0 < c) {mark : α} (hmark : 0 ≤ mark) (hlt : mark < c)
    (n : Nat) : ∃ k < period r c, |position r c (n + k) - mark| < r := by
  have hpos := period_pos hr hc
  -- the tick of the revolution that is the last one up to the mark
  have hnonneg : 0 ≤ mark / r := div_nonneg hmark hr.le
  have hle : (⌊mark / r⌋₊ : α) * r ≤ mark := (le_div_iff₀ hr).mp (Nat.floor_le hnonneg)
  have hgt : mark < ((⌊mark / r⌋₊ + 1 : Nat) : α) * r := by
    rw [← div_lt_iff₀ hr, Nat.cast_succ]
    exact Nat.lt_floor_add_one _
  have htick : ⌊mark / r⌋₊ < period r c := (lt_period_iff hr).mpr (lt_of_le_of_lt hle hlt)
  refine ⟨(⌊mark / r⌋₊ + (period r c - n % period r c)) % period r c, Nat.mod_lt _ hpos, ?_⟩
  have hmod : (n + (⌊mark / r⌋₊ + (period r c - n % period r c)) % period r c) % period r c =
      ⌊mark / r⌋₊ := by
    have hsum : n % period r c + (⌊mark / r⌋₊ + (period r c - n % period r c)) =
        ⌊mark / r⌋₊ + period r c := by
      have hn := Nat.mod_lt n hpos
      omega
    rw [Nat.add_mod_mod, ← Nat.mod_add_mod, hsum, Nat.add_mod_right, Nat.mod_eq_of_lt htick]
  unfold position
  rw [hmod, abs_lt]
  rw [Nat.cast_succ, add_mul, one_mul] at hgt
  constructor
  · linarith
  · linarith

/-- Steps of one come round to every number below `c`, in their order. -/
theorem position_one (c n : Nat) : position (1 : α) c n = (n % c : Nat) := by
  unfold position period
  rw [div_one, Nat.ceil_natCast, mul_one]

end Pointer

/-- How long a residue takes to come round: from `a` on it is the residue of the difference. -/
theorem First.residue {c a b : Nat} {target : Int}
    (h : First (fun n => (n : Int) % c = target) a b) :
    (b : Int) = a + (target - a) % c := by
  have htarget : (b : Int) % c = target := h.holds
  rcases Nat.eq_zero_or_pos c with hzero | hpos
  · rw [hzero, Nat.cast_zero, Int.emod_zero] at htarget ⊢
    omega
  have hle := h.le
  have hnonneg := Int.emod_nonneg (target - a) (show (c : Int) ≠ 0 by omega)
  have hlt := Int.emod_lt_of_pos (target - a) (show (0 : Int) < c by omega)
  -- the residue is met that long after `a`
  have hmeets : ((a + ((target - a) % c).toNat : Nat) : Int) % c = target := by
    have hsum : (a : Int) + (target - a) = target := by omega
    rw [Nat.cast_add, Int.toNat_of_nonneg hnonneg, Int.add_emod_emod, hsum, ← htarget,
      Int.emod_emod]
  have hbefore := h.le_of_holds (Nat.le_add_right a _) hmeets
  have hsame : ((b : Int) - a) % c = (target - a) % c := by
    rw [← htarget, Int.emod_sub_emod]
  rw [Int.emod_eq_of_lt (by omega) (by omega)] at hsame
  omega

end OsLab.Revolution
