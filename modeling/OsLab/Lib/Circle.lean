import Mathlib.Algebra.Order.Group.Unbundled.Abs
import Mathlib.Algebra.Order.Group.Int
import Mathlib.Data.Int.ModEq
import Mathlib.Data.List.Nodup

/-!
# Places on a circle

`n` places stand in a circle and are numbered from 0. From one of them all others are visited by
going up and down in turn: each is met once, and the near ones before the far ones.

* **`dist`** -- the shorter way around from one place to another.
* **`around`** -- the visit, as a list of places. Round `i` goes `offset i` steps: 1, -1, 2, -2 and
  so on, for `n - 1` rounds.
* **`mem_around_iff`**, **`around_nodup`**, **`around_sorted`** -- the visit meets every other
  place, meets none twice, and goes from near to far.
* **`dist_le_of_find?`** -- so the first place with a property is a nearest place with it.

The proofs measure places by signed steps of at most half the circle (`Half`), which are the same as
places: `Half.eq_of_emod` and `exists_half`.
-/

namespace OsLab.Circle

variable {n i j : Nat} {t x a b : Int}

/-- How far `x` is from `t`, the shorter way around. -/
def dist (n : Nat) (t x : Int) : Int := min ((x - t) % n) ((t - x) % n)

/-- The steps of round `i`: upwards in even rounds, downwards in odd ones. -/
def offset (i : Nat) : Int := if i % 2 = 0 then (i / 2 : Nat) + 1 else -((i / 2 : Nat) + 1)

/-- The place that round `i` visits. -/
def near (n : Nat) (t : Int) (i : Nat) : Int := (t + offset i) % n

/-- The places in the order of the rounds. -/
def around (n : Nat) (t : Int) : List Int := (List.range (n - 1)).map (near n t)

/-! ## Steps that go at most half around -/

/-- A number of steps that goes at most half around. -/
structure Half (n : Nat) (a : Int) : Prop where
  up : 2 * a ≤ n
  down : -n < 2 * a

/-- Two numbers of steps of at most half around that lead to the same place are the same number. -/
theorem Half.eq_of_emod (ha : Half n a) (hb : Half n b) (h : (t + a) % n = (t + b) % n) :
    a = b := by
  have hdvd : (n : Int) ∣ b - a := Int.ModEq.dvd (Int.ModEq.add_left_cancel' t h)
  have hzero := Int.eq_zero_of_abs_lt_dvd hdvd (by
    have hup := ha.up
    have hdown := ha.down
    have hup' := hb.up
    have hdown' := hb.down
    rw [abs_lt]
    omega)
  omega

/-- Steps of at most half around are the shorter way, so the distance is their number. -/
theorem Half.dist_eq (ha : Half n a) : dist n t ((t + a) % n) = |a| := by
  have hup := ha.up
  have hdown := ha.down
  unfold dist
  rw [Int.emod_sub_emod, Int.sub_emod_emod, show t + a - t = a by omega,
    show t - (t + a) = -a by omega]
  rcases lt_trichotomy a 0 with hneg | rfl | hpos
  · have hback : a % n = n + a := by
      rw [← Int.add_emod_left, Int.emod_eq_of_lt (by omega) (by omega)]
    rw [abs_of_neg hneg, Int.emod_eq_of_lt (a := -a) (by omega) (by omega), hback]
    omega
  · simp
  · have hback : (-a) % n = n - a := by
      rw [← Int.add_emod_left, Int.emod_eq_of_lt (by omega) (by omega)]
      omega
    rw [abs_of_pos hpos, Int.emod_eq_of_lt (a := a) (by omega) (by omega), hback]
    omega

/-- Every place is reached by some number of steps of at most half around. -/
theorem exists_half (ht : 0 ≤ t ∧ t < n) (hx : 0 ≤ x ∧ x < n) :
    ∃ a, Half n a ∧ x = (t + a) % n := by
  have hself : x % n = x := Int.emod_eq_of_lt hx.1 hx.2
  -- the way up, or the way down if that is shorter
  rcases lt_or_ge (n : Int) (2 * (x - t)) with hfar | hnear
  · refine ⟨x - t - n, ⟨by omega, by omega⟩, ?_⟩
    rw [show t + (x - t - n) = x - n by omega, Int.sub_emod_right, hself]
  · rcases lt_or_ge (-(n : Int)) (2 * (x - t)) with hup | hover
    · refine ⟨x - t, ⟨hnear, hup⟩, ?_⟩
      rw [show t + (x - t) = x by omega, hself]
    · refine ⟨x - t + n, ⟨by omega, by omega⟩, ?_⟩
      rw [show t + (x - t + n) = x + n by omega, Int.add_emod_right, hself]

/-! ## The rounds -/

/-- The rounds of a visit go at most half around; this is why there are `n - 1` of them. -/
theorem half_offset (hi : i < n - 1) : Half n (offset i) := by
  unfold offset
  -- a round up, a round down
  split
  · exact ⟨by omega, by omega⟩
  · exact ⟨by omega, by omega⟩

/-- The distance grows by one every second round. -/
theorem abs_offset (i : Nat) : |offset i| = (i / 2 : Nat) + 1 := by
  unfold offset
  split
  · exact abs_of_pos (by omega)
  · rw [abs_neg]
    exact abs_of_pos (by omega)

/-- No two rounds go the same way. -/
theorem offset_injective (h : offset i = offset j) : i = j := by
  unfold offset at h
  split at h
  · split at h
    · omega
    · omega
  · split at h
    · omega
    · omega

/-- The rounds make every number of steps but 0: the positive ones in the even rounds, the negative
ones in the odd rounds. -/
theorem exists_offset (ha : Half n a) (hne : a ≠ 0) : ∃ i < n - 1, offset i = a := by
  have hup := ha.up
  have hdown := ha.down
  unfold offset
  rcases lt_or_gt_of_ne hne with hneg | hpos
  · -- step down: an odd round
    refine ⟨2 * (-a).toNat - 1, by omega, ?_⟩
    rw [if_neg (by omega)]
    omega
  · -- step up: an even one
    refine ⟨2 * (a.toNat - 1), by omega, ?_⟩
    rw [if_pos (by omega)]
    omega

/-- The place of round `i` lies `i / 2 + 1` away, whichever side it is on. -/
theorem dist_near (hi : i < n - 1) : dist n t (near n t i) = (i / 2 : Nat) + 1 := by
  rw [near, (half_offset hi).dist_eq, abs_offset]

/-! ## The order of the visits -/

/-- To be visited is to be the place of some round. -/
theorem mem_around : x ∈ around n t ↔ ∃ i < n - 1, near n t i = x := by
  unfold around
  simp only [List.mem_map, List.mem_range]

/-- No place is visited twice, since different rounds go different numbers of steps of at most half
around. -/
theorem around_nodup (n : Nat) (t : Int) : (around n t).Nodup := by
  refine List.Nodup.map_on ?_ List.nodup_range
  intro i hi j hj heq
  have hi' := half_offset (List.mem_range.mp hi)
  have hj' := half_offset (List.mem_range.mp hj)
  exact offset_injective (hi'.eq_of_emod hj' heq)

/-- Every place is visited but the one that the visit starts from. -/
theorem mem_around_iff (hn : 0 < n) (ht : 0 ≤ t ∧ t < n) :
    x ∈ around n t ↔ (0 ≤ x ∧ x < n) ∧ x ≠ t := by
  rw [mem_around]
  constructor
  · intro ⟨i, hi, hx⟩
    have hlow := Int.emod_nonneg (t + offset i) (show (n : Int) ≠ 0 by omega)
    have hhigh := Int.emod_lt_of_pos (t + offset i) (show (0 : Int) < n by omega)
    refine ⟨⟨hx ▸ hlow, hx ▸ hhigh⟩, fun hsame => ?_⟩
    have hdist := dist_near (t := t) hi
    rw [hx, hsame] at hdist
    unfold dist at hdist
    rw [Int.sub_self, Int.zero_emod, min_self] at hdist
    omega
  · intro ⟨hx, hne⟩
    obtain ⟨a, ha, hxa⟩ := exists_half ht hx
    have hne' : a ≠ 0 := by
      rintro rfl
      rw [Int.add_zero, Int.emod_eq_of_lt ht.1 ht.2] at hxa
      exact hne hxa
    obtain ⟨i, hi, hoffset⟩ := exists_offset ha hne'
    refine ⟨i, hi, ?_⟩
    rw [near, hoffset, hxa]

/-- The places are visited in the order of their distance. -/
theorem around_sorted (n : Nat) (t : Int) :
    (around n t).Pairwise fun x y => dist n t x ≤ dist n t y := by
  unfold around
  rw [List.pairwise_map]
  refine List.pairwise_lt_range.imp_of_mem ?_
  intro i j hi hj hlt
  rw [dist_near (List.mem_range.mp hi), dist_near (List.mem_range.mp hj)]
  omega

/-- The first visited place with a property is as near as any visited place with it, because the
visit goes from near to far. -/
theorem dist_le_of_find? {p : Int → Bool} (hfind : (around n t).find? p = some x) {y : Int}
    (hy : y ∈ around n t) (hp : p y = true) : dist n t x ≤ dist n t y := by
  obtain ⟨hpx, before, after, hsplit, hbefore⟩ := List.find?_eq_some_iff_append.mp hfind
  have hsorted := around_sorted n t
  rw [hsplit] at hy hsorted
  rcases List.mem_append.mp hy with hearly | hlate
  · -- what is met before the find does not pass
    have hnot := hbefore y hearly
    rw [hp] at hnot
    cases hnot
  · rcases List.mem_cons.mp hlate with rfl | hlater
    · exact le_refl _
    · exact (List.pairwise_cons.mp (List.pairwise_append.mp hsorted).2.1).1 y hlater

end OsLab.Circle
