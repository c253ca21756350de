import OsLab.Disks.Ticks
import OsLab.Lib.Revolution

/-!
# Where the arm and the platter are

While the arm moves its place follows from the tick at which it started, and the angle follows from
the timer alone. A rotation and a transfer therefore end at the first tick at which the platter
passes a mark of the block.

* **`Setup`**, **`Place`**, **`Lies`** -- what does not change in a run, and where the tables have a
  block.
* **`estimate_ok`**, **`mark_eq`** -- the estimate and the two marks, as functions of the place.
* **`exists_paced`**, **`Paced.rest_add`** -- an accepted speed brings the arm over each track in a
  whole number of ticks.
* **`Turns`**, **`Turns.close_iff`**, **`seekDone_iff`** -- what the tests of `Animate` find, as
  conditions on the timer.
-/

namespace OsLab.Disks

open Revolution (First)

/-! ## Places -/

/-- What does not change in a run. -/
structure Setup where
  drive : Drive
  tables : Tables
  layout : Layout

/-- Where a block lies: its track, half its width and the angle of its middle. -/
structure Place where
  track : Nat
  offset : Nat
  angle : Int

namespace Place

/-- Where the head meets the block (for `-1`) and leaves it (for `1`). -/
def mark (p : Place) (side : Int) : Int := (p.angle + side * p.offset) % 360

def dist (p : Place) (origin : Nat) : Nat := ((origin : Int) - p.track).natAbs

/-- The estimate of `DoSATF`. -/
def estimate (p : Place) (v : Drive) (origin : Nat) (angle : Rat) : Rat :=
  let seekEst := trackWidth / v.seekSpeed * p.dist origin
  let angleAtArrival := downTo360 (angle + seekEst * v.rotateSpeed)
  let rotDist := upTo0 (downTo360 ((p.angle : Rat) - p.offset - angleAtArrival))
  seekEst + rotDist / v.rotateSpeed + (p.offset : Rat) * 2 / v.rotateSpeed

end Place

theorem Place.dist_self {p : Place} {origin : Nat} (h : p.track = origin) : p.dist origin = 0 := by
  unfold dist
  rw [h, Int.sub_self]
  rfl

/-- The tables have the block at this place. -/
structure Lies (S : Setup) (block : Block) (p : Place) : Prop where
  track : S.layout.blockToTrackMap block = .ok p.track
  offset : S.tables.blockAngleOffset[p.track]? = some p.offset
  angle : ∃ b, block = .int b ∧ S.tables.blockToAngleMap b = some p.angle

/-- A block lies at one place: the tables give it one track and one angle. -/
theorem Lies.unique {S : Setup} {block : Block} {p q : Place} (h : Lies S block p)
    (h' : Lies S block q) : p = q := by
  obtain ⟨b, rfl, hangle⟩ := h.angle
  obtain ⟨b', heq, hangle'⟩ := h'.angle
  cases heq
  have htrack : p.track = q.track := Except.ok.inj (h.track.symm.trans h'.track)
  have hoffset := h.offset
  rw [htrack] at hoffset
  cases p with
  | mk track offset angle =>
    cases q with
    | mk track' offset' angle' =>
      cases htrack
      cases Option.some.inj (hoffset.symm.trans h'.offset)
      cases Option.some.inj (hangle.symm.trans hangle')
      rfl

namespace Machine

variable {m m' : Machine} {S : Setup} {p : Place}

def setup (m : Machine) : Setup := ⟨m.drive, m.tables, m.disk.layout⟩

/-- The way to a block leaves the setup as it was. -/
theorem Underway.setup (h : m.Underway m') : m'.setup = m.setup := by
  unfold Machine.setup
  rw [h.drive, h.tables, h.layout]

theorem blockToAngleMap_ok {block : Block} {angle : Int}
    (h : m.blockToAngleMap block = .ok angle) :
    ∃ b, block = .int b ∧ m.tables.blockToAngleMap b = some angle := by
  unfold blockToAngleMap at h
  split at h
  · rename_i b
    split at h
    · rename_i angle' hangle
      cases Except.ok.inj h
      exact ⟨b, rfl, hangle⟩
    · cases h
  · cases h

/-- A block that is estimated lies somewhere, and the estimate is that of its place from the track
of the arm and the angle of the platter. -/
theorem estimate_ok {block : Block} {e : Rat} (h : m.estimate block = .ok e) :
    ∃ p, Lies m.setup block p ∧ e = p.estimate m.drive m.disk.armTrack m.angle := by
  unfold estimate at h
  obtain ⟨track, htrack, h⟩ := bind_eq_ok.mp h
  obtain ⟨angle, hangle, h⟩ := bind_eq_ok.mp h
  obtain ⟨offset, hoffset, h⟩ := bind_eq_ok.mp h
  rw [index_some_eq_ok] at hoffset
  refine ⟨⟨track, offset, angle⟩, ⟨htrack, hoffset, blockToAngleMap_ok hangle⟩, ?_⟩
  split at h
  · cases h
  · exact (Except.ok.inj h).symm

theorem blockToAngleMap_eq {b : Int} {angle : Int}
    (h : m.tables.blockToAngleMap b = some angle) : m.blockToAngleMap (.int b) = .ok angle := by
  unfold blockToAngleMap
  dsimp only
  rw [h]

/-- The estimate for a block that lies somewhere; the platter must turn, for `DoSATF` divides by its
speed. -/
theorem estimate_eq {block : Block} (hlies : Lies m.setup block p)
    (hrotate : m.drive.rotateSpeed ≠ 0) :
    m.estimate block = .ok (p.estimate m.drive m.disk.armTrack m.angle) := by
  obtain ⟨b, rfl, hangle⟩ := hlies.angle
  have htrack : m.disk.layout.blockToTrackMap (.int b) = .ok p.track := hlies.track
  have hoffset : m.tables.blockAngleOffset[p.track]? = some p.offset := hlies.offset
  unfold estimate
  rw [htrack, blockToAngleMap_eq hangle]
  show (index m.tables.blockAngleOffset (some p.track) >>= _) = _
  rw [index_some_eq_ok.mpr hoffset]
  show (if m.drive.rotateSpeed = 0 then _ else _) = _
  rw [if_neg hrotate]
  rfl

/-- With the arm on the block's track, the tests look for the marks of the block. -/
theorem mark_eq (hlies : Lies m.setup m.disk.currentBlock p)
    (harm : m.disk.armTrack = p.track) (side : Int) : m.mark side = .ok (p.mark side) := by
  obtain ⟨b, hblock, hangle⟩ := hlies.angle
  have hoffset : m.tables.blockAngleOffset[p.track]? = some p.offset := hlies.offset
  unfold mark
  rw [harm, index_some_eq_ok.mpr hoffset, hblock, blockToAngleMap_eq hangle]
  rfl

/-! ## The platter -/

/-- `RadiallyCloseTo` asks whether two angles are less than a tick of the platter apart. -/
theorem radiallyCloseTo_iff {a₁ a₂ : Rat} :
    m.radiallyCloseTo a₁ a₂ = true ↔ |a₁ - a₂| < m.drive.rotateSpeed := by
  unfold radiallyCloseTo
  dsimp only
  rw [decide_eq_true_eq]
  split
  · rename_i habove
    rw [abs_of_pos (sub_pos.mpr habove)]
  · rename_i hbelow
    rw [abs_of_nonpos (sub_nonpos.mpr (not_lt.mp hbelow)), neg_sub]

end Machine

/-! ## The arm -/

/-- Where the arm rests over a track. -/
def rest (track : Nat) : Rat := spindleX - tracks track - armWidth

theorem rest_sub (a b : Nat) : rest a - rest b = trackWidth * ((a : Rat) - b) := by
  unfold rest tracks
  ring

theorem target_eq_rest (track : Nat) : spindleX - tracks track - trackWidth / 2 = rest track := by
  unfold rest armWidth trackWidth
  norm_num

/-- The speed of the arm on its way from one track to another. -/
def speed (v : Drive) (origin track : Nat) : Rat :=
  if track ≥ origin then v.seekSpeed else -v.seekSpeed

/-- The arm needs `n` ticks for each track that it passes. -/
structure Paced (v : Drive) (n : Nat) : Prop where
  rotate : 0 < v.rotateSpeed
  seek : 0 < v.seekSpeed
  ticks : n * v.seekSpeed = trackWidth

theorem Paced.pos {v : Drive} {n : Nat} (h : Paced v n) : 0 < n := by
  rcases Nat.eq_zero_or_pos n with hzero | hpos
  · have hticks := h.ticks
    rw [hzero, Nat.cast_zero, zero_mul] at hticks
    exact absurd hticks (by decide)
  · exact hpos

/-- An accepted speed brings the arm to the next track in a whole number of ticks, because it
divides the width of a track. -/
theorem exists_paced {v : Drive} (hrotate : 0 < v.rotateSpeed) (hseek : 0 < v.seekSpeed)
    (haccepted : Machine.checkSeekSpeed v.seekSpeed = .ok ()) : ∃ n, Paced v n := by
  have hwhole : ∃ k : Int, (k : Rat) * v.seekSpeed = trackWidth := by
    unfold Machine.checkSeekSpeed Machine.modRat at haccepted
    split at haccepted
    · cases haccepted
    rename_i hnot
    rcases lt_trichotomy v.seekSpeed 1 with hslow | hone | hfast
    · rw [if_pos hslow, if_neg hseek.ne'] at haccepted
      split at haccepted
      · cases haccepted
      rename_i hint
      refine ⟨intOfRat (trackWidth / v.seekSpeed), ?_⟩
      rw [← not_not.mp hint]
      exact div_mul_cancel₀ _ hseek.ne'
    · refine ⟨40, ?_⟩
      rw [hone]
      unfold trackWidth
      norm_num
    · refine ⟨⌊trackWidth / v.seekSpeed⌋, ?_⟩
      have hzero := not_not.mp fun hne => hnot ⟨hfast, hne⟩
      exact (sub_eq_zero.mp hzero).symm
  obtain ⟨k, hk⟩ := hwhole
  have hpos : (0 : Rat) < k := by
    have hwidth : (0 : Rat) < k * v.seekSpeed := by
      rw [hk]
      decide
    exact pos_of_mul_pos_left hwidth hseek.le
  obtain ⟨n, rfl⟩ := Int.eq_ofNat_of_zero_le (Int.cast_pos.mp hpos).le
  exact ⟨n, hrotate, hseek, hk⟩

/-- The whole way takes `n` ticks a track, in either direction. -/
theorem Paced.rest_add {v : Drive} {n : Nat} (h : Paced v n) (p : Place) (origin : Nat) :
    rest origin + (n * p.dist origin : Nat) * speed v origin p.track = rest p.track := by
  have hway := rest_sub p.track origin
  have hdist : ((p.dist origin : Nat) : Rat) = |(origin : Rat) - p.track| := by
    unfold Place.dist
    rw [Nat.cast_natAbs]
    push_cast
    rfl
  rw [← h.ticks] at hway
  unfold speed
  rw [Nat.cast_mul, hdist]
  split
  · rename_i hge
    have hcast : (origin : Rat) ≤ p.track := Nat.cast_le.mpr hge
    rw [abs_of_nonpos (sub_nonpos.mpr hcast)]
    linarith
  · rename_i hlt
    have hcast : (p.track : Rat) ≤ origin := Nat.cast_le.mpr (Nat.le_of_lt (not_le.mp hlt))
    rw [abs_of_nonneg (sub_nonneg.mpr hcast)]
    linarith

/-! ## The clock and the arm of a machine -/

/-- The angle at a time. -/
def Drive.angle (v : Drive) (n : Nat) : Rat := Revolution.position v.rotateSpeed 360 n

/-- At time `n` the platter is as near to the mark as the tests want it. -/
def Passes (v : Drive) (target : Int) (n : Nat) : Prop := |v.angle n - target| < v.rotateSpeed

namespace Machine

variable {m : Machine}

/-- The angle is a function of the timer. -/
def Turns (m : Machine) : Prop := m.angle = m.drive.angle m.timer

/-- A tick turns the platter on by its speed, and the angle is again that of the timer. -/
theorem Turns.turned (h : m.Turns) (hrotate : 0 < m.drive.rotateSpeed) : m.turned.Turns := by
  have hturn := Revolution.turn_position hrotate (show (0 : Rat) < 360 by norm_num) m.timer
  unfold Turns Drive.angle at h ⊢
  rw [← h] at hturn
  exact hturn

/-- What the tests see is a matter of the timer: whether the platter passes the mark in this
tick. -/
theorem Turns.close_iff (h : m.Turns) (target : Int) :
    m.radiallyCloseTo m.angle target = true ↔ Passes m.drive target m.timer := by
  unfold Passes
  rw [radiallyCloseTo_iff, h]

/-- The arm is there when the ticks for the way are over, and not before. -/
theorem seekDone_iff {n k : Nat} {p : Place} {origin : Nat} (h : Paced m.drive n)
    (htarget : m.armTargetX1 = rest p.track) (hspeed : m.armSpeed = speed m.drive origin p.track)
    (harm : m.armX1 = rest origin + k * m.armSpeed) :
    m.seekDone = true ↔ n * p.dist origin ≤ k := by
  have hthere := h.rest_add p origin
  have hpos := h.seek
  unfold seekDone
  rw [decide_eq_true_eq, htarget, harm, ← hthere, hspeed, ← Nat.cast_le (α := Rat)]
  unfold speed
  split
  · constructor
    · intro hdone
      rcases hdone with ⟨_, hge⟩ | ⟨hneg, _⟩
      · exact le_of_mul_le_mul_right (le_of_add_le_add_left hge) hpos
      · exact absurd hneg (not_lt.mpr hpos.le)
    · intro hle
      exact Or.inl ⟨hpos, add_le_add_right (mul_le_mul_of_nonneg_right hle hpos.le) _⟩
  · constructor
    · intro hdone
      rcases hdone with ⟨hneg, _⟩ | ⟨_, hle⟩
      · exact absurd hneg (not_lt.mpr (neg_nonpos.mpr hpos.le))
      · rw [mul_neg, mul_neg] at hle
        exact le_of_mul_le_mul_right (neg_le_neg_iff.mp (le_of_add_le_add_left hle)) hpos
    · intro hle
      refine Or.inr ⟨neg_neg_of_pos hpos, add_le_add_right ?_ _⟩
      rw [mul_neg, mul_neg]
      exact neg_le_neg (mul_le_mul_of_nonneg_right hle hpos.le)

end Machine

end OsLab.Disks
