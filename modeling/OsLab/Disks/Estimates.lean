import OsLab.Disks.Accounting
import OsLab.Disks.Phases

/-!
# The estimate and what a request takes

With one degree a tick and blocks of whole degrees every angle is a residue. Both the estimate and
the time that is measured are sums of residues; they differ where a test is made in the tick of a
decision, or is not.

* **`downTo360_intCast`**, **`upTo0_intCast`** -- on whole numbers the loops of `DoSATF` find a
  residue of the circle.
* **`Place.estimate_residue`**, **`first_passes`** -- the estimate, and the first tick at a mark, as
  residues.
* **`Lies.At`** -- where the blocks of a track lie, with even divisors of the circle as zones.
* **`Row.Waited.total_other`**, **`Row.Waited.total_same`**, **`Row.WentOn.total_eq`** -- what is
  measured, by the way in which the request has come.
* **`Missed`**, **`totalTime_eq_totalEst_iff`** -- the exact condition under which the two differ.
-/

namespace OsLab.Disks

open Revolution (First)

/-! ## The loops of `DoSATF` on whole numbers -/

/-- On a whole number the loop that takes away full circles ends on a whole number of the same
residue, between the bounds that it tests. -/
theorem reduceAbove_intCast (n : Nat) {x : Int} (hx : x ≤ 360 * (n + 1)) :
    ∃ y : Int, reduceAbove n x = y ∧ y ≤ 360 ∧ (x ≤ 360 → y = x) ∧ (0 ≤ x → 0 ≤ y) ∧
      360 ∣ x - y := by
  induction n generalizing x with
  | zero => exact ⟨x, rfl, by omega, fun _ => rfl, id, by rw [Int.sub_self]; exact dvd_zero _⟩
  | succ n ih =>
    unfold reduceAbove
    split
    · rename_i habove
      have habove' : 360 < x := by exact_mod_cast habove
      obtain ⟨y, hy, hle, -, hnonneg, hdvd⟩ := ih (x := x - 360) (by push_cast at hx; omega)
      push_cast at hy
      exact ⟨y, hy, hle, by omega, fun _ => hnonneg (by omega), by omega⟩
    · rename_i hbelow
      have hbelow' : x ≤ 360 := by
        have := not_lt.mp hbelow
        exact_mod_cast this
      exact ⟨x, rfl, hbelow', fun _ => rfl, id, by rw [Int.sub_self]; exact dvd_zero _⟩

/-- On a whole number the loop that adds full circles ends on a whole number of the same residue
that is not negative. -/
theorem raiseBelow_intCast (n : Nat) {x : Int} (hx : -x ≤ 360 * n) :
    ∃ y : Int, raiseBelow n x = y ∧ 0 ≤ y ∧ (0 ≤ x → y = x) ∧ (x < 0 → y < 360) ∧
      360 ∣ x - y := by
  induction n generalizing x with
  | zero => exact ⟨x, rfl, by omega, fun _ => rfl, by omega, by rw [Int.sub_self]; exact dvd_zero _⟩
  | succ n ih =>
    unfold raiseBelow
    split
    · rename_i hbelow
      have hbelow' : x < 0 := by exact_mod_cast hbelow
      obtain ⟨y, hy, hnonneg, hsame, hlt, hdvd⟩ := ih (x := x + 360) (by push_cast at hx; omega)
      push_cast at hy
      exact ⟨y, hy, hnonneg, by omega, by omega, by omega⟩
    · rename_i hnot
      have hnot' : 0 ≤ x := by
        have := not_lt.mp hnot
        exact_mod_cast this
      exact ⟨x, rfl, hnot', fun _ => rfl, by omega, by rw [Int.sub_self]; exact dvd_zero _⟩

theorem downTo360_intCast (x : Int) :
    ∃ y : Int, downTo360 x = y ∧ y ≤ 360 ∧ (x ≤ 360 → y = x) ∧ (0 ≤ x → 0 ≤ y) ∧
      360 ∣ x - y := by
  refine reduceAbove_intCast _ ?_
  have hceil : (x : Rat) / 360 ≤ (⌈(x : Rat) / 360⌉.toNat : Int) :=
    (Int.le_ceil _).trans (Int.cast_le.mpr (Int.self_le_toNat _))
  have hle : (x : Rat) ≤ ((360 * ⌈(x : Rat) / 360⌉.toNat : Int) : Rat) := by
    push_cast at hceil ⊢
    linarith
  have hle' := Int.cast_le.mp hle
  omega

theorem upTo0_intCast (x : Int) :
    ∃ y : Int, upTo0 x = y ∧ 0 ≤ y ∧ (0 ≤ x → y = x) ∧ (x < 0 → y < 360) ∧ 360 ∣ x - y := by
  refine raiseBelow_intCast _ ?_
  have hceil : -(x : Rat) / 360 ≤ (⌈-(x : Rat) / 360⌉.toNat : Int) :=
    (Int.le_ceil _).trans (Int.cast_le.mpr (Int.self_le_toNat _))
  have hle : ((-x : Int) : Rat) ≤ ((360 * ⌈-(x : Rat) / 360⌉.toNat : Int) : Rat) := by
    push_cast at hceil ⊢
    linarith
  exact Int.cast_le.mp hle

/-! ## One degree a tick -/

/-- At one degree a tick the angle is the timer's residue. -/
theorem Drive.angle_one {v : Drive} (hrotate : v.rotateSpeed = 1) (n : Nat) :
    v.angle n = ((n % 360 : Nat) : Int) := by
  have hone := Revolution.position_one (α := Rat) 360 n
  rw [Nat.cast_ofNat] at hone
  unfold Drive.angle
  rw [hrotate, hone]
  push_cast
  rfl

/-- At one degree a tick a test finds a mark exactly in the ticks of its residue. -/
theorem passes_iff {v : Drive} (hrotate : v.rotateSpeed = 1) {target : Int} {n : Nat} :
    Passes v target n ↔ (n : Int) % 360 = target := by
  unfold Passes
  rw [Drive.angle_one hrotate, hrotate, ← Int.cast_sub, ← Int.cast_abs, ← Int.cast_one,
    Int.cast_lt, Int.abs_lt_one_iff, sub_eq_zero]
  push_cast
  rfl

/-- The first tick at a mark, from a given one on, lies behind it by the residue of the
difference. -/
theorem first_passes {v : Drive} (hrotate : v.rotateSpeed = 1) {target : Int} {a b : Nat}
    (h : First (Passes v target) a b) : (b : Int) = a + (target - a) % 360 := by
  have hresidue : First (fun n => (n : Int) % (360 : Nat) = target) a b :=
    ⟨h.le, (passes_iff hrotate).mp h.holds,
      fun t ha hb hat => h.before t ha hb ((passes_iff hrotate).mpr hat)⟩
  exact hresidue.residue

/-- The estimate is a sum of residues: the way of the arm, the wait from its end to the beginning of
the block, and the width of the block. -/
theorem Place.estimate_residue {v : Drive} {n : Nat} (p : Place) (hrotate : v.rotateSpeed = 1)
    (hpaced : Paced v n) (hangle : 0 ≤ p.angle ∧ p.angle < 360) (hoffset : p.offset ≤ 180)
    (origin begins : Nat) :
    p.estimate v origin (v.angle begins) =
      ((n * p.dist origin : Nat) +
        (p.mark (-1) - (begins + (n * p.dist origin : Nat))) % 360 + 2 * p.offset : Int) := by
  have hseek : trackWidth / v.seekSpeed * p.dist origin = ((n * p.dist origin : Nat) : Int) := by
    rw [← hpaced.ticks, mul_div_cancel_right₀ _ hpaced.seek.ne']
    push_cast
    rfl
  unfold estimate
  dsimp only
  rw [hseek, Drive.angle_one hrotate, hrotate, mul_one, div_one, div_one, ← Int.cast_add]
  obtain ⟨arrival, harrival, hle, -, hnonneg, hdvd⟩ :=
    downTo360_intCast (((begins % 360 : Nat) : Int) + (n * p.dist origin : Nat))
  rw [harrival]
  have hdiff : (p.angle : Rat) - p.offset - arrival =
      ((p.angle - p.offset - arrival : Int) : Rat) := by
    push_cast
    rfl
  rw [hdiff]
  obtain ⟨down, hdown, -, hsame, -, -⟩ := downTo360_intCast (p.angle - p.offset - arrival)
  rw [hdown]
  obtain ⟨rot, hrot, hrotNonneg, hrotSame, hrotLt, hrotDvd⟩ := upTo0_intCast down
  rw [hrot]
  have hpos := hnonneg (by omega)
  -- the head has come to at least 0, so the difference is below 360 and the second loop idles
  have hdownEq := hsame (by omega)
  have hres : rot = (p.mark (-1) - (begins + (n * p.dist origin : Nat))) % 360 := by
    unfold mark
    push_cast at hdvd ⊢
    generalize ((n : Int) * (p.dist origin : Int)) = ticks at *
    omega
  rw [← hres]
  push_cast
  ring

/-! ## Where blocks lie -/

/-- Each zone has an even number of degrees that divides the circle. -/
def EvenDivisors (zoning : Nat × Nat × Nat) : Prop :=
  ∀ zone ∈ [zoning.1, zoning.2.1, zoning.2.2], 2 ∣ zone ∧ zone ∣ 360

instance (zoning : Nat × Nat × Nat) : Decidable (EvenDivisors zoning) :=
  inferInstanceAs (Decidable (∀ zone ∈ [zoning.1, zoning.2.1, zoning.2.2], 2 ∣ zone ∧ zone ∣ 360))

/-- The blocks of a track with an even divisor as zone fill the circle exactly. -/
theorem trackLength_mul {zone n : Nat} (hzone : 2 ∣ zone ∧ zone ∣ 360)
    (h : trackLength zone = .ok n) : 2 * (zone / 2) = zone ∧ n * zone = 360 := by
  have hhalf : 2 * (zone / 2) = zone := Nat.mul_div_cancel' hzone.1
  refine ⟨hhalf, ?_⟩
  unfold trackLength at h
  dsimp only at h
  rw [hhalf] at h
  split at h
  · cases h
  rename_i hne
  obtain ⟨k, hk⟩ := hzone.2
  have hlast : (zone - 1) / zone = 0 := Nat.div_eq_of_lt (by omega)
  rw [← Except.ok.inj h, hk, Nat.add_sub_assoc (by omega), Nat.mul_add_div (by omega), hlast,
    Nat.add_zero, Nat.mul_comm]

/-- The `k`-th of the `count` blocks of a track. -/
structure Lies.At (S : Setup) (block : Block) (p : Place) (first k : Int) (count : Nat) :
    Prop where
  block : block = .int (first + k)
  nonneg : 0 ≤ k
  lt : k < count
  ends : S.layout.tracksBeginEnd p.track = .ok (first, first + count - 1)
  circle : count * (2 * p.offset) = 360
  angle : p.angle =
    (k * (2 * p.offset : Nat) + (2 * p.offset : Nat) * (p.track * S.drive.skew) + 180) % 360

theorem Lies.At.of_zone {S : Setup} {p : Place} {zone count : Nat} {first b : Int}
    (hzone : 2 ∣ zone ∧ zone ∣ 360) (hlength : trackLength zone = .ok count)
    (hends : S.layout.tracksBeginEnd p.track = .ok (first, first + count - 1))
    (hoffset : p.offset = zone / 2)
    (hangle : p.angle = Tables.angleAt zone (p.track * S.drive.skew) (b - first))
    (hge : first ≤ b) (hlt : b < first + count) :
    Lies.At S (.int b) p first (b - first) count := by
  obtain ⟨hhalf, hmul⟩ := trackLength_mul hzone hlength
  refine ⟨?_, by omega, by omega, hends, ?_, ?_⟩
  · rw [add_sub_cancel]
  · rw [hoffset, hhalf, hmul]
  · rw [hoffset]
    exact hangle

/-- Every block that has a place is the `k`-th of the blocks on its track, for some `k`. -/
theorem Lies.exists_at {S : Setup} {zoning : Nat × Nat × Nat} {block : Block} {p : Place}
    (h : Lies S block p) (hzones : EvenDivisors zoning)
    (ht : Tables.initBlockLayout zoning S.drive.skew = .ok S.tables)
    (hl : initBlockLayout zoning = .ok S.layout) :
    ∃ first k count, Lies.At S block p first k count := by
  obtain ⟨l, hl', -, -, hoffsets, hangles⟩ := Tables.initBlockLayout_ok ht
  cases Except.ok.inj (hl.symm.trans hl')
  unfold initBlockLayout at hl
  obtain ⟨outer, houter, hl⟩ := bind_eq_ok.mp hl
  obtain ⟨middle, hmiddle, hl⟩ := bind_eq_ok.mp hl
  obtain ⟨inner, hinner, hl⟩ := bind_eq_ok.mp hl
  have hlayout := (Except.ok.inj hl).symm
  obtain ⟨b, rfl, hangle⟩ := h.angle
  obtain ⟨htrack, hoffset, -⟩ := h
  obtain ⟨track, offset, angle⟩ := p
  dsimp only at hangle htrack hoffset
  rw [hangles, hlayout] at hangle
  rw [hlayout] at htrack
  rw [hoffsets] at hoffset
  unfold Layout.blockToTrackMap at htrack
  dsimp only at htrack hangle
  -- the track that has the block says in which of the three ranges it is
  split at htrack
  · cases htrack
  rename_i hnonneg
  split at htrack
  · rename_i hlt
    cases htrack
    rw [if_pos ⟨not_lt.mp hnonneg, hlt⟩] at hangle
    refine ⟨0, b - 0, outer, .of_zone (hzones _ (by simp)) houter ?_ (Option.some.inj hoffset).symm
      ?_ (by omega) (by omega)⟩
    · rw [hlayout, Int.zero_add]
      rfl
    · rw [Nat.cast_zero, Int.zero_mul, Int.sub_zero]
      exact (Option.some.inj hangle).symm
  rename_i hge
  split at htrack
  · rename_i hlt
    cases htrack
    rw [if_neg (by omega), if_pos (by omega)] at hangle
    refine ⟨outer, b - outer, middle, .of_zone (hzones _ (by simp)) hmiddle ?_
      (Option.some.inj hoffset).symm ?_ (by omega) hlt⟩
    · rw [hlayout]
      rfl
    · rw [Nat.cast_one, Int.one_mul]
      exact (Option.some.inj hangle).symm
  rename_i hge'
  split at htrack
  · rename_i hlt
    cases htrack
    rw [if_neg (by omega), if_neg (by omega), if_pos (by omega)] at hangle
    refine ⟨outer + middle, b - (outer + middle), inner, .of_zone (hzones _ (by simp)) hinner ?_
      (Option.some.inj hoffset).symm ?_ (by omega) hlt⟩
    · rw [hlayout]
      rfl
    · exact (Option.some.inj hangle).symm
  · cases htrack

theorem Lies.At.bounds {S : Setup} {block : Block} {p : Place} {first k : Int} {count : Nat}
    (h : Lies.At S block p first k count) :
    0 < p.offset ∧ p.offset ≤ 180 ∧ 0 ≤ p.angle ∧ p.angle < 360 := by
  have hcircle := h.circle
  have hpos : 0 < p.offset := by
    by_contra hzero
    rw [show p.offset = 0 by omega] at hcircle
    omega
  have hcount : 0 < count := by
    have hlt := h.lt
    have hnonneg := h.nonneg
    omega
  have hle := Nat.le_mul_of_pos_left (2 * p.offset) hcount
  rw [h.angle]
  exact ⟨hpos, by omega, Int.emod_nonneg _ (by decide), Int.emod_lt_of_pos _ (by decide)⟩

/-- On one track, a block follows exactly where the other one ends; the last block is followed by
the first. -/
theorem next_iff {S : Setup} {a b : Block} {p q : Place} {first k first' k' : Int}
    {count count' : Nat} (hp : Lies S a p) (hq : Lies S b q) (ha : Lies.At S a p first k count)
    (hb : Lies.At S b q first' k' count') (htrack : p.track = q.track) :
    S.layout.Next a b ↔ q.mark (-1) = p.mark 1 := by
  -- the track is the same, and so are its first block and its blocks' width
  have hoffset := hp.offset
  rw [htrack, hq.offset] at hoffset
  have hwidth := Option.some.inj hoffset
  have hends := ha.ends
  rw [htrack, hb.ends] at hends
  obtain ⟨hfirst, hlast⟩ := Prod.mk.inj (Except.ok.inj hends)
  have hcount : count' = count := by omega
  subst hfirst hcount
  have hcircle := ha.circle
  have hpos := ha.bounds.1
  have hk := ha.lt
  have hk' := hb.lt
  have hnonneg := ha.nonneg
  have hnonneg' := hb.nonneg
  have hnext : S.layout.Next a b ↔ k' - k - 1 = 0 ∨ k' - k - 1 = -count' := by
    constructor
    · intro ⟨track, first, last, i, j, hta, htb, htracks, hi, hj, hcases⟩
      rw [ha.block] at hi
      rw [hb.block] at hj
      cases hi
      cases hj
      cases Except.ok.inj (hp.track.symm.trans hta)
      cases Except.ok.inj (ha.ends.symm.trans htracks)
      omega
    · intro hcases
      refine ⟨p.track, first', _, first' + k, first' + k', hp.track, ?_, ha.ends, ha.block,
        hb.block, ?_⟩
      · rw [htrack]
        exact hq.track
      · omega
  -- the two edges are apart by whole blocks
  have hmarks : q.mark (-1) = p.mark 1 ↔
      (360 : Int) ∣ (k' - k - 1) * (2 * p.offset : Nat) := by
    unfold Place.mark
    rw [ha.angle, hb.angle, hwidth, htrack]
    have hsplit : (k' - k - 1) * ((2 * p.offset : Nat) : Int) =
        k' * (2 * p.offset : Nat) - k * (2 * p.offset : Nat) - (2 * p.offset : Nat) := by ring
    rw [hsplit]
    generalize k' * ((2 * p.offset : Nat) : Int) = x'
    generalize k * ((2 * p.offset : Nat) : Int) = x
    generalize ((2 * p.offset : Nat) : Int) * (q.track * S.drive.skew) = shift
    omega
  have hcircle' : (360 : Int) = count' * (2 * p.offset : Nat) := by exact_mod_cast hcircle.symm
  rw [hnext, hmarks, hcircle', Int.mul_dvd_mul_iff_right (by omega)]
  constructor
  · intro hcases
    rcases hcases with hzero | hback
    · rw [hzero]
      exact dvd_zero _
    · rw [hback]
      exact (dvd_refl _).neg_right
  · -- the multiple can only be the first or the one below, as both blocks are on the track
    intro ⟨c, hc⟩
    have hlow : -2 < c := by
      by_contra hle
      have := mul_le_mul_of_nonneg_left (not_lt.mp hle) (show (0 : Int) ≤ count' by omega)
      omega
    have hhigh : c < 1 := by
      by_contra hge
      have := mul_le_mul_of_nonneg_left (not_lt.mp hge) (show (0 : Int) ≤ count' by omega)
      omega
    rcases (show c = 0 ∨ c = -1 by omega) with rfl | rfl
    · exact Or.inl (by omega)
    · exact Or.inr (by omega)

/-! ## The time of a request -/

section Times

variable {S : Setup} {n origin : Nat} {prev : Option Row} {p : Place} {row : Row} {first k : Int}
  {count : Nat}

/-- After a seek the rotation is exact, and a transfer around the whole track takes no time: its end
mark is its beginning. -/
theorem Row.Waited.total_other (h : row.Waited S n prev p origin)
    (htimer : First (Passes S.drive (p.mark 1)) row.xferBegin row.timer)
    (hrotate : S.drive.rotateSpeed = 1) (hat : Lies.At S row.block p first k count)
    (hother : p.track ≠ origin) :
    row.totalTime = (n * p.dist origin : Nat) +
        (p.mark (-1) - (row.seekBegin + (n * p.dist origin : Nat))) % 360 + 2 * p.offset ↔
      p.offset ≠ 180 := by
  obtain ⟨hpos, hle, hnonneg, hlt⟩ := hat.bounds
  have hbegin := h.rotBegin
  have hrot := first_passes hrotate h.xferBegin
  have hxfer := first_passes hrotate htimer
  unfold lookFrom at hrot
  rw [if_neg hother] at hrot
  unfold totalTime
  unfold Place.mark at hrot hxfer ⊢
  generalize n * p.dist origin = ticks at *
  omega

/-- Without a seek the rotation is looked at one tick late, so a block that begins right under the
head waits for a whole revolution. -/
theorem Row.Waited.total_same (h : row.Waited S n prev p origin)
    (htimer : First (Passes S.drive (p.mark 1)) row.xferBegin row.timer)
    (hrotate : S.drive.rotateSpeed = 1) (hat : Lies.At S row.block p first k count)
    (hsame : p.track = origin) :
    row.totalTime = (n * p.dist origin : Nat) +
        (p.mark (-1) - (row.seekBegin + (n * p.dist origin : Nat))) % 360 + 2 * p.offset ↔
      ((row.seekBegin : Int) % 360 = p.mark (-1) ↔ p.offset = 180) := by
  obtain ⟨hpos, hle, hnonneg, hlt⟩ := hat.bounds
  have hbegin := h.rotBegin
  have hrot := first_passes hrotate h.xferBegin
  have hxfer := first_passes hrotate htimer
  unfold lookFrom at hrot
  rw [if_pos hsame] at hrot
  rw [Place.dist_self hsame, Nat.mul_zero] at hbegin ⊢
  unfold totalTime
  unfold Place.mark at hrot hxfer ⊢
  omega

/-- A transfer that goes on takes as long as the block is wide, and the estimate says the same. -/
theorem Row.WentOn.total_eq (h : row.WentOn S prev p origin)
    (htimer : First (Passes S.drive (p.mark 1)) (row.xferBegin + 1) row.timer)
    (hrotate : S.drive.rotateSpeed = 1) (hat : Lies.At S row.block p first k count)
    (hmark : (row.seekBegin : Int) % 360 = p.mark (-1)) :
    row.totalTime = (n * p.dist origin : Nat) +
      (p.mark (-1) - (row.seekBegin + (n * p.dist origin : Nat))) % 360 + 2 * p.offset := by
  obtain ⟨hpos, hle, hnonneg, hlt⟩ := hat.bounds
  have hrot := h.rotBegin
  have hxfer := h.xferBegin
  have hends := first_passes hrotate htimer
  rw [Place.dist_self h.track, Nat.mul_zero]
  unfold totalTime
  unfold Place.mark at hmark hends ⊢
  omega

end Times

/-! ## Runs -/

theorem Origin.unique {S : Setup} {prev : Option Row} {a b : Nat} (ha : Origin S prev a)
    (hb : Origin S prev b) : a = b := by
  cases prev with
  | none => exact Eq.trans ha (Eq.symm hb)
  | some row => exact Except.ok.inj (Eq.trans (Eq.symm ha) hb)

/-- The only block of a track begins and ends at one angle, because it is as wide as the circle. -/
theorem Lies.At.mark_whole {S : Setup} {block : Block} {p : Place} {first k : Int} {count : Nat}
    (h : Lies.At S block p first k count) (hoffset : p.offset = 180) :
    p.mark (-1) = 0 ∧ p.mark 1 = 0 := by
  have hangle := h.angle
  rw [hoffset] at hangle
  unfold Place.mark
  rw [hoffset]
  generalize (p.track : Int) * S.drive.skew = turns at hangle
  push_cast at hangle
  omega

namespace Machine

variable {m : Machine} {c : Config} {v : Drive} {S : Setup} {p : Place} {origin : Nat}
  {prev : Option Row} {row : Row}

/-- Where the estimate is wrong: after a seek, a block that takes up its whole track; and in
front of all others, a block that begins right under the head and takes up less than that. -/
def Missed (m : Machine) (prev : Option Row) (row : Row) : Prop :=
  ∃ p origin, Lies m.setup row.block p ∧ Origin m.setup prev origin ∧
    (p.track ≠ origin ∧ p.offset = 180 ∨
      prev = none ∧ p.track = origin ∧ p.offset ≠ 180 ∧ p.mark (-1) = 0)

/-- `Missed` in terms of the place of the block: it speaks of nothing that the run has measured. -/
theorem missed_iff (hsetup : m.setup = S) (hlies : Lies S row.block p)
    (horigin : Origin S prev origin) : m.Missed prev row ↔
      p.track ≠ origin ∧ p.offset = 180 ∨
        prev = none ∧ p.track = origin ∧ p.offset ≠ 180 ∧ p.mark (-1) = 0 := by
  unfold Missed
  rw [hsetup]
  constructor
  · intro ⟨p', origin', hlies', horigin', hcases⟩
    cases hlies.unique hlies'
    cases horigin.unique horigin'
    exact hcases
  · intro hcases
    exact ⟨p, origin, hlies, horigin, hcases⟩

/-- Where a row is right, by the way the request has come: behind a seek, on the same track, or as
the next block of a transfer. -/
theorem right_iff {n count : Nat} {first k : Int} (hcourse : row.Course S n prev p origin)
    (hrotate : S.drive.rotateSpeed = 1) (hpaced : Paced S.drive n)
    (hat : Lies.At S row.block p first k count)
    (hfirst : prev = none → (row.seekBegin : Int) % 360 = 0)
    (hnext : ∀ before, prev = some before → p.track = origin →
      (S.layout.Next before.block row.block ↔ (row.seekBegin : Int) % 360 = p.mark (-1)) ∧
        (p.offset = 180 → (row.seekBegin : Int) % 360 = p.mark (-1))) :
    (row.totalTime : Rat) = row.totalEst ↔
      ¬(p.track ≠ origin ∧ p.offset = 180 ∨
        prev = none ∧ p.track = origin ∧ p.offset ≠ 180 ∧ p.mark (-1) = 0) := by
  obtain ⟨hpos, hle, hnonneg, hlt⟩ := hat.bounds
  rw [hcourse.estimate,
    p.estimate_residue hrotate hpaced ⟨hnonneg, hlt⟩ hle origin row.seekBegin, Int.cast_inj]
  rcases hcourse.came with ⟨hwaited, htimer⟩ | ⟨hwent, htimer⟩
  · by_cases hsame : p.track = origin
    · rw [hwaited.total_same htimer hrotate hat hsame]
      cases prev with
      | none =>
        rw [hfirst rfl]
        by_cases hwide : p.offset = 180
        · -- a block of the whole track begins at 0, where the head is
          simp [hsame, hwide, (hat.mark_whole hwide).1]
        · simp [hsame, hwide, eq_comm]
      | some before =>
        -- the block does not follow, so the head is not at its beginning
        obtain ⟨hiff, hwhole⟩ := hnext before rfl hsame
        have haway : (row.seekBegin : Int) % 360 ≠ p.mark (-1) :=
          fun hmark => hwaited.apart before rfl (hiff.mpr hmark)
        have hnarrow : p.offset ≠ 180 := fun hwide => haway (hwhole hwide)
        simp [hsame, haway, hnarrow]
    · rw [hwaited.total_other htimer hrotate hat hsame]
      simp [hsame]
  · -- only behind another request
    obtain ⟨before, rfl, hfollows⟩ := hwent.next
    have hmark := (hnext before rfl hwent.track).1.mp hfollows
    exact iff_of_true (hwent.total_eq htimer hrotate hat hmark) (by simp [hwent.track])

/-- **Estimates are exact but for two kinds of requests.** Over all runs: the measured time of a row
is its estimate except where it is missed. -/
theorem totalTime_eq_totalEst_iff (hzones : EvenDivisors c.zoning) (hrotate : v.rotateSpeed = 1)
    (hseek : 0 < v.seekSpeed) (h : (program c v).Reachable m) :
    ∀ before row after, m.rows = before ++ row :: after →
      ((row.totalTime : Rat) = row.totalEst ↔ ¬m.Missed before.getLast? row) := by
  obtain ⟨t, l, ht, hl, hspeed⟩ := reachable_accepted h
  obtain ⟨n, hpaced⟩ := exists_paced (v := v) (by rw [hrotate]; exact one_pos) hseek hspeed
  have hcourses := onCourse hpaced ht hl h
  intro before row after hrows
  obtain ⟨now, hbooked⟩ := Clocked.exists_booked (reachable_clocked h)
  have hbegins := hbooked.begins hrows
  obtain ⟨p, origin, hcourse⟩ := hcourses.course_at hrows
  obtain ⟨first, k, count, hat⟩ := hcourse.lies.exists_at hzones ht hl
  rw [missed_iff hcourses.setup hcourse.lies hcourse.arm]
  refine right_iff hcourse hrotate hpaced hat ?_ ?_
  · intro hnone
    rw [hbegins, hnone]
    rfl
  · intro prevRow hprev hsame
    -- the request before has ended where its block ends
    have hmem : prevRow ∈ m.rows := by
      rw [hrows]
      exact List.mem_append_left _ (List.mem_of_getLast? hprev)
    obtain ⟨_, q, _, hcourse'⟩ := hcourses.course_of_mem hmem
    obtain ⟨_, _, _, hat'⟩ := hcourse'.lies.exists_at hzones ht hl
    have harm := hcourse.arm
    rw [hprev] at harm
    have htrack : q.track = p.track :=
      (Except.ok.inj (hcourse'.lies.track.symm.trans harm)).trans hsame.symm
    have hends : (row.seekBegin : Int) % 360 = q.mark 1 := by
      rw [hbegins, hprev]
      refine (passes_iff hrotate).mp ?_
      rcases hcourse'.came with ⟨_, htimer⟩ | ⟨_, htimer⟩
      · exact htimer.holds
      · exact htimer.holds
    rw [hends]
    refine ⟨(next_iff hcourse'.lies hcourse.lies hat' hat htrack).trans eq_comm, fun hwhole => ?_⟩
    have hoffset := hcourse'.lies.offset
    rw [htrack, hcourse.lies.offset, hwhole] at hoffset
    rw [(hat'.mark_whole (Option.some.inj hoffset).symm).2, (hat.mark_whole hwhole).1]

theorem totalTime_eq_totalEst_iff_threeBlocks :
    ∃ m, (program ⟨(30, 30, 30), .FIFO, -1, .listed ['7', ',', '2', '1'], .generated [22]⟩
        ⟨1, 40, 0⟩).Reachable m ∧
      m.rows.length = 3 ∧ ∀ before row after, m.rows = before ++ row :: after →
        ((row.totalTime : Rat) = row.totalEst ↔ ¬m.Missed before.getLast? row) := by
  obtain ⟨m, hreach, hrows⟩ := exists_run (v := ⟨1, 40, 0⟩) 135
    (c := ⟨(30, 30, 30), .FIFO, -1, .listed ['7', ',', '2', '1'], .generated [22]⟩)
    (P := fun m => decide (m.rows.length = 3)) (by decide +kernel)
  have hzones : EvenDivisors (30, 30, 30) := by decide
  exact ⟨m, hreach, of_decide_eq_true hrows,
    totalTime_eq_totalEst_iff hzones rfl (by decide) hreach⟩

/-- Block 2 of three outer blocks begins at the angle 0. -/
def underHead : Config := ⟨(120, 120, 120), .FIFO, -1, .listed ['2'], .generated []⟩

theorem underHead_late :
    EvenDivisors underHead.zoning ∧
      ∃ m, (program underHead ⟨1, 1, 0⟩).Reachable m ∧
        ∃ row ∈ m.rows, row.totalTime = 480 ∧ row.totalEst = 120 := by
  refine ⟨by decide, ?_⟩
  obtain ⟨m, hreach, hrows⟩ := exists_run (c := underHead) (v := ⟨1, 1, 0⟩) 480
    (P := fun m => m.rows.any fun row => decide (row.totalTime = 480 ∧ row.totalEst = 120))
    (by decide +kernel)
  obtain ⟨row, hrow, htimes⟩ := List.any_eq_true.mp hrows
  exact ⟨m, hreach, row, hrow, of_decide_eq_true htimes⟩

end Machine

end OsLab.Disks
