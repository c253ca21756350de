import OsLab.Lib.Striping
import OsLab.Python

/-!
# The block maps of the RAID simulator

`bmap0`, `bmap1`, `bmap4` and `bmap5` send a logical block to its physical place, a disk and an
offset on it; `pmap4` and `pmap5` name the parity disk of a stripe. All four block maps are striped
layouts that differ only in the disk a row picks for its columns, so that they lose and overlap
nothing comes from `Striping.Grid` and one fact about that choice.

* **`Raid`** -- a `raid` object past its constructor, whose fields meet what the constructor
  asserts.
* **`bmap0_eq_place`** to **`bmap5_eq_place`** -- each block map is the place of the grid with the
  disks that `dataDisk` picks.
* **`dataDisk_injOn`** -- no row puts two of its data columns on one disk; at RAID-5 this is
  arithmetic of the rotation.
* **`layout_bijective`** -- what follows for the array.
-/

namespace OsLab

open Striping

/-- `options.level`; the main program accepts these four. -/
inductive RaidLevel
  | zero | one | four | five
  deriving DecidableEq, Repr

/-- `options.raid5type`: left-asymmetric or left-symmetric. -/
inductive Raid5Type
  | LA | LS
  deriving DecidableEq, Repr

/-- The disk counts a level is built with: RAID-1 needs pairs, the levels above 0 more than
one disk. -/
def RaidLevel.Admits : RaidLevel → Nat → Prop
  | .zero, n => 1 ≤ n
  | .one, n => 2 ≤ n ∧ n % 2 = 0
  | .four, n => 2 ≤ n
  | .five, n => 2 ≤ n

instance (level : RaidLevel) (n : Nat) : Decidable (level.Admits n) := by
  cases level <;> unfold RaidLevel.Admits <;> infer_instance

/-- A `raid` object past its constructor: `chunkSize` counts blocks. -/
structure Raid where
  chunkSize : Nat
  numDisks : Nat
  raidLevel : RaidLevel
  raid5type : Raid5Type
  chunk_pos : 0 < chunkSize
  admitted : raidLevel.Admits numDisks

namespace Raid

variable (r : Raid)

/-! ## The maps as the source computes them -/

/-- `raid.bmap0` -/
def bmap0 (bnum : Nat) : Nat × Nat :=
  let cnum := bnum / r.chunkSize
  let coff := bnum % r.chunkSize
  (cnum % r.numDisks, (cnum / r.numDisks) * r.chunkSize + coff)

/-- `raid.bmap1` -/
def bmap1 (bnum : Nat) : Nat × Nat × Nat :=
  let cnum := bnum / r.chunkSize
  let coff := bnum % r.chunkSize
  let disk := 2 * (cnum % (r.numDisks / 2))
  (disk, disk + 1, (cnum / (r.numDisks / 2)) * r.chunkSize + coff)

/-- `self.blocksInStripe`, set for RAID-4 and RAID-5. -/
def blocksInStripe : Nat := (r.numDisks - 1) * r.chunkSize

/-- `raid.bmap4` -/
def bmap4 (bnum : Nat) : Nat × Nat :=
  let cnum := bnum / r.chunkSize
  let coff := bnum % r.chunkSize
  (cnum % (r.numDisks - 1), (cnum / (r.numDisks - 1)) * r.chunkSize + coff)

/-- `raid.pmap4`: the field `pdisk` is `numDisks - 1` at this level. -/
def pmap4 (_snum : Nat) : Nat := r.numDisks - 1

/-- `raid.__bmap5`, with its assertion. -/
def bmap5Raw (bnum : Nat) : Except Abort (Nat × Nat × Nat) := do
  let cnum := bnum / r.chunkSize
  let coff := bnum % r.chunkSize
  let ddsk := cnum / (r.numDisks - 1)
  let doff := (ddsk * r.chunkSize) + coff
  let disk := cnum % (r.numDisks - 1)
  let col := ddsk % r.numDisks
  let pdisk := (r.numDisks - 1) - col
  let disk := match r.raid5type with
    | .LA => if disk ≥ pdisk then disk + 1 else disk
    -- the difference may be negative; Python's % then still gives a value in [0, numDisks)
    | .LS => (((disk : Int) - col) % r.numDisks).toNat
  assert (disk != pdisk) "disk != pdisk"
  return (disk, pdisk, doff)

/-- `raid.bmap5` -/
def bmap5 (bnum : Nat) : Except Abort (Nat × Nat) := do
  let (disk, _pdisk, off) ← r.bmap5Raw bnum
  return (disk, off)

/-- `raid.pmap5` -/
def pmap5 (snum : Nat) : Except Abort Nat := do
  let (_disk, pdisk, _off) ← r.bmap5Raw (snum * r.blocksInStripe)
  return pdisk

/-! ## The shapes of the four layouts -/

/-- Data columns in a row of chunks. -/
def dataCols : Nat :=
  match r.raidLevel with
  | .zero => r.numDisks
  | .one => r.numDisks / 2
  | .four => r.numDisks - 1
  | .five => r.numDisks - 1

/-- A row has at least one data column, since each level has its least number of disks. -/
theorem dataCols_pos : 0 < r.dataCols := by
  have hadm := r.admitted
  unfold dataCols
  cases hlevel : r.raidLevel <;> simp only [hlevel, RaidLevel.Admits] at hadm ⊢ <;> omega

/-- The striped address space under the block maps. -/
def grid : Grid := ⟨r.chunkSize, r.dataCols, r.chunk_pos, r.dataCols_pos⟩

/-- The parity disk of a RAID-5 row. -/
def parityDisk5 (row : Nat) : Nat := (r.numDisks - 1) - row % r.numDisks

/-- The disk a RAID-5 row picks for a data column. -/
def dataDisk5 (row col : Nat) : Nat :=
  match r.raid5type with
  | .LA => if r.parityDisk5 row ≤ col then col + 1 else col
  | .LS => (((col : Int) - (row % r.numDisks : Nat)) % r.numDisks).toNat

/-- The disk a row picks for a data column; for RAID-1 the first of the two mirrors. -/
def dataDisk (row col : Nat) : Nat :=
  match r.raidLevel with
  | .zero => col
  | .one => 2 * col
  | .four => col
  | .five => r.dataDisk5 row col

/-! ## The source's maps are striped layouts -/

/-- RAID-0 puts a block where the grid does, with the columns on the disks in order. -/
theorem bmap0_eq_place (h : r.raidLevel = .zero) (b : Nat) :
    r.bmap0 b = r.grid.place r.dataDisk b := by
  simp [bmap0, Grid.place, Grid.row, Grid.col, Grid.off, grid, dataCols, dataDisk, h]

/-- RAID-1 puts a block on the first disk of the pair that the grid picks, and on the one behind
it. -/
theorem bmap1_eq_place (h : r.raidLevel = .one) (b : Nat) :
    r.bmap1 b = ((r.grid.place r.dataDisk b).1, (r.grid.place r.dataDisk b).1 + 1,
      (r.grid.place r.dataDisk b).2) := by
  simp [bmap1, Grid.place, Grid.row, Grid.col, Grid.off, grid, dataCols, dataDisk, h]

/-- RAID-4 puts a block where the grid does, with the columns on all disks but the last. -/
theorem bmap4_eq_place (h : r.raidLevel = .four) (b : Nat) :
    r.bmap4 b = r.grid.place r.dataDisk b := by
  simp [bmap4, Grid.place, Grid.row, Grid.col, Grid.off, grid, dataCols, dataDisk, h]

/-- At RAID-5 a data column never lands on its row's parity disk, in either rotation. -/
theorem dataDisk5_ne_parityDisk5 (hdisks : 2 ≤ r.numDisks) (row : Nat) {c : Nat}
    (hc : c < r.numDisks - 1) : r.dataDisk5 row c ≠ r.parityDisk5 row := by
  have hrow : row % r.numDisks < r.numDisks := Nat.mod_lt _ (by omega)
  unfold dataDisk5 parityDisk5
  cases r.raid5type with
  | LA =>
    simp only
    split <;> omega
  | LS =>
    simp only
    -- the column and the rotation cannot differ by numDisks - 1 modulo numDisks
    rcases Nat.lt_or_ge c (row % r.numDisks) with hlt | hge
    · rw [← Int.add_emod_right, Int.emod_eq_of_lt (by omega) (by omega)]
      omega
    · rw [Int.emod_eq_of_lt (by omega) (by omega)]
      omega

/-- The assertion in `__bmap5` holds, and its result is the striped place with the row's parity
disk. -/
theorem bmap5Raw_eq (h : r.raidLevel = .five) (b : Nat) :
    r.bmap5Raw b = .ok ((r.grid.place r.dataDisk b).1, r.parityDisk5 (r.grid.row b),
      (r.grid.place r.dataDisk b).2) := by
  have hdisks : 2 ≤ r.numDisks := by
    have hadm := r.admitted
    rwa [h] at hadm
  have hcol : b / r.chunkSize % (r.numDisks - 1) < r.numDisks - 1 := Nat.mod_lt _ (by omega)
  have hunfold : r.bmap5Raw b = (do
      assert (r.dataDisk5 (b / r.chunkSize / (r.numDisks - 1)) (b / r.chunkSize % (r.numDisks - 1))
        != r.parityDisk5 (b / r.chunkSize / (r.numDisks - 1))) "disk != pdisk"
      return (r.dataDisk5 (b / r.chunkSize / (r.numDisks - 1)) (b / r.chunkSize % (r.numDisks - 1)),
        r.parityDisk5 (b / r.chunkSize / (r.numDisks - 1)),
        b / r.chunkSize / (r.numDisks - 1) * r.chunkSize + b % r.chunkSize)) := rfl
  have hne := r.dataDisk5_ne_parityDisk5 hdisks (b / r.chunkSize / (r.numDisks - 1)) hcol
  rw [hunfold, bne_iff_ne.mpr hne, assert_true]
  simp [Grid.place, Grid.row, Grid.col, Grid.off, grid, dataCols, dataDisk, h, bind, Except.bind,
    pure, Except.pure]

/-- RAID-5 puts a block where the grid does, without an abort. -/
theorem bmap5_eq_place (h : r.raidLevel = .five) (b : Nat) :
    r.bmap5 b = .ok (r.grid.place r.dataDisk b) := by
  rw [bmap5, bmap5Raw_eq r h]
  rfl

/-! ## Which disks hold data -/

/-- The levels with parity have two disks at least. -/
theorem two_le_numDisks (h : r.raidLevel = .four ∨ r.raidLevel = .five) : 2 ≤ r.numDisks := by
  have hadm := r.admitted
  rcases h with h | h <;> rwa [h] at hadm

/-- The left-symmetric rotation without negative numbers: the columns in front of the parity disk
wrap around. -/
theorem dataDisk5_LS (h : r.raid5type = .LS) (row : Nat) {c : Nat} (hc : c < r.numDisks) :
    r.dataDisk5 row c = if c < row % r.numDisks then c + r.numDisks - row % r.numDisks
      else c - row % r.numDisks := by
  have hrow : row % r.numDisks < r.numDisks := Nat.mod_lt _ (by omega)
  unfold dataDisk5
  simp only [h]
  split
  · rw [← Int.add_emod_right, Int.emod_eq_of_lt (by omega) (by omega)]
    omega
  · rw [Int.emod_eq_of_lt (by omega) (by omega)]
    omega

/-- A RAID-5 row puts data on every disk but its parity disk. -/
theorem exists_dataDisk5_iff (hdisks : 2 ≤ r.numDisks) (row d : Nat) :
    (∃ c < r.numDisks - 1, r.dataDisk5 row c = d) ↔ d < r.numDisks ∧ r.parityDisk5 row ≠ d := by
  have hrow : row % r.numDisks < r.numDisks := Nat.mod_lt _ (by omega)
  cases htype : r.raid5type with
  | LA =>
    constructor
    · rintro ⟨c, hc, rfl⟩
      refine ⟨?_, (r.dataDisk5_ne_parityDisk5 hdisks row hc).symm⟩
      simp only [dataDisk5, htype]
      split <;> omega
    · rintro ⟨hd, hne⟩
      simp only [dataDisk5, htype]
      rcases Nat.lt_or_ge d (r.parityDisk5 row) with hlt | hge
      · refine ⟨d, ?_, if_neg (by omega)⟩
        unfold parityDisk5 at hlt
        omega
      · refine ⟨d - 1, by omega, ?_⟩
        rw [if_pos (by omega)]
        omega
  | LS =>
    constructor
    · rintro ⟨c, hc, rfl⟩
      refine ⟨?_, (r.dataDisk5_ne_parityDisk5 hdisks row hc).symm⟩
      rw [dataDisk5_LS r htype row (by omega)]
      split <;> omega
    · rintro ⟨hd, hne⟩
      unfold parityDisk5 at hne
      -- undo the rotation; the column numDisks - 1 would be the parity disk
      rcases Nat.lt_or_ge (d + row % r.numDisks) r.numDisks with hlt | hge
      · refine ⟨d + row % r.numDisks, by omega, ?_⟩
        rw [dataDisk5_LS r htype row hlt, if_neg (by omega)]
        omega
      · refine ⟨d + row % r.numDisks - r.numDisks, by omega, ?_⟩
        rw [dataDisk5_LS r htype row (by omega), if_pos (by omega)]
        omega

/-- No RAID-5 row puts two of its columns on one disk: as many disks carry data as there are
columns. -/
theorem dataDisk5_injOn (hdisks : 2 ≤ r.numDisks) (row : Nat) :
    Set.InjOn (r.dataDisk5 row) (Set.Iio (r.numDisks - 1)) := by
  intro a ha b hb hab
  simp only [Set.mem_Iio] at ha hb
  have hrow : row % r.numDisks < r.numDisks := Nat.mod_lt _ (by omega)
  cases htype : r.raid5type with
  | LA =>
    simp only [dataDisk5, htype] at hab
    split at hab <;> split at hab <;> omega
  | LS =>
    rw [dataDisk5_LS r htype row (by omega), dataDisk5_LS r htype row (by omega)] at hab
    split at hab <;> split at hab <;> omega

/-- No row puts two of its data columns on one disk, at any level. -/
theorem dataDisk_injOn (row : Nat) : Set.InjOn (r.dataDisk row) (Set.Iio r.grid.cols) := by
  have hadm := r.admitted
  cases hlevel : r.raidLevel with
  | five =>
    have hdisks : 2 ≤ r.numDisks := r.two_le_numDisks (.inr hlevel)
    have hfun : r.dataDisk row = r.dataDisk5 row := by funext c; simp [dataDisk, hlevel]
    have hcols : r.grid.cols = r.numDisks - 1 := by simp [grid, dataCols, hlevel]
    rw [hfun, hcols]
    exact r.dataDisk5_injOn hdisks row
  | one =>
    intro a _ b _ hab
    simp only [dataDisk, hlevel] at hab
    omega
  | zero | four => intro a _ b _ hab; simpa [dataDisk, hlevel] using hab

/-- Different blocks have different places, since no row doubles up a disk. -/
theorem place_injective : Function.Injective (r.grid.place r.dataDisk) :=
  r.grid.place_injective r.dataDisk_injOn

/-! ## The layouts lose and overlap nothing -/

/-- The places a block is kept at: one, or the two mirrors of RAID-1. -/
def places (bnum : Nat) : Except Abort (List (Nat × Nat)) :=
  match r.raidLevel with
  | .zero => return [r.bmap0 bnum]
  | .one =>
    let (disk1, disk2, off) := r.bmap1 bnum
    return [(disk1, off), (disk2, off)]
  | .four => return [r.bmap4 bnum]
  | .five => do
    let p ← r.bmap5 bnum
    return [p]

/-- The parity map the level uses; a stripe is a row of chunks. -/
def ParityAt (disk off : Nat) : Prop :=
  match r.raidLevel with
  | .zero => False
  | .one => False
  | .four => r.pmap4 (off / r.chunkSize) = disk
  | .five => r.pmap5 (off / r.chunkSize) = .ok disk

/-- Block `bnum` is kept at place `p`. -/
def Holds (bnum : Nat) (p : Nat × Nat) : Prop :=
  ∃ ps, r.places bnum = .ok ps ∧ p ∈ ps

/-- The disk that stands for `disk` in the grid: the first of its mirror pair at RAID-1. -/
def primary (disk : Nat) : Nat :=
  match r.raidLevel with
  | .one => 2 * (disk / 2)
  | _ => disk

/-- A block is kept at a place exactly if the grid puts it on the disk that stands for the place's
disk. -/
theorem holds_iff (bnum disk off : Nat) :
    r.Holds bnum (disk, off) ↔ r.grid.place r.dataDisk bnum = (r.primary disk, off) := by
  unfold Holds places primary
  cases hlevel : r.raidLevel with
  | zero => simp [bmap0_eq_place r hlevel, pure, Except.pure, eq_comm]
  | one =>
    have heven : (r.grid.place r.dataDisk bnum).1 % 2 = 0 := by
      simp [Grid.place, dataDisk, hlevel]
    simp only [bmap1_eq_place r hlevel, pure, Except.pure, Except.ok.injEq, exists_eq_left',
      List.mem_cons, List.not_mem_nil, or_false, Prod.ext_iff]
    omega
  | four => simp [bmap4_eq_place r hlevel, pure, Except.pure, eq_comm]
  | five => simp [bmap5_eq_place r hlevel, bind, Except.bind, pure, Except.pure, eq_comm]

/-- `pmap5` gives the parity disk that `__bmap5` computes in that row. -/
theorem pmap5_eq (h : r.raidLevel = .five) (snum : Nat) :
    r.pmap5 snum = .ok (r.parityDisk5 snum) := by
  have hstripe : snum * r.blocksInStripe = r.grid.addr snum 0 0 := by
    simp [blocksInStripe, Grid.addr, grid, dataCols, h, Nat.mul_assoc]
  have hrow : r.grid.row (snum * r.blocksInStripe) = snum := by
    rw [hstripe]
    exact Grid.row_addr r.dataCols_pos r.chunk_pos
  rw [pmap5, bmap5Raw_eq r h, hrow]
  rfl

/-- The disks of a row split into those with a data column and the parity disk. -/
theorem exists_dataDisk_iff_not_parityAt {disk : Nat} (hdisk : disk < r.numDisks) (off : Nat) :
    (∃ c < r.grid.cols, r.dataDisk (off / r.grid.chunk) c = r.primary disk) ↔
      ¬ r.ParityAt disk off := by
  have hadm := r.admitted
  unfold ParityAt primary dataDisk
  cases hlevel : r.raidLevel with
  | zero => simpa [grid, dataCols, hlevel] using hdisk
  | one =>
    simp only [hlevel, RaidLevel.Admits] at hadm
    simp only [grid, dataCols, hlevel, not_false_eq_true, iff_true]
    exact ⟨disk / 2, by omega, rfl⟩
  | four =>
    simp only [hlevel, RaidLevel.Admits] at hadm
    simp only [grid, dataCols, hlevel, pmap4, exists_eq_right]
    omega
  | five =>
    simp only [hlevel, RaidLevel.Admits] at hadm
    simp only [grid, dataCols, hlevel, pmap5_eq r hlevel, Except.ok.injEq]
    rw [r.exists_dataDisk5_iff hadm]
    exact ⟨fun h => h.2, fun h => ⟨hdisk, h⟩⟩

/-- Parity rotates through all disks in any `numDisks` consecutive rows. -/
theorem existsUnique_parityDisk5 (first : Nat) {disk : Nat} (hdisk : disk < r.numDisks) :
    ∃! row, (first ≤ row ∧ row < first + r.numDisks) ∧ r.parityDisk5 row = disk := by
  have hpos : 0 < r.numDisks := by omega
  -- the row must be congruent to `numDisks - 1 - disk`
  let target := r.numDisks - 1 - disk
  have htarget : target < r.numDisks := by omega
  have hfirst : first % r.numDisks < r.numDisks := Nat.mod_lt _ hpos
  have hdiv := Nat.div_add_mod first r.numDisks
  have hiff : ∀ row, r.parityDisk5 row = disk ↔ row % r.numDisks = target := by
    intro row
    have hrow : row % r.numDisks < r.numDisks := Nat.mod_lt _ hpos
    unfold parityDisk5
    omega
  simp only [hiff]
  apply existsUnique_of_exists_of_unique
  · rcases Nat.lt_or_ge target (first % r.numDisks) with hlt | hge
    · refine ⟨first - first % r.numDisks + r.numDisks + target, ⟨by omega, by omega⟩, ?_⟩
      rw [show first - first % r.numDisks + r.numDisks + target
          = target + r.numDisks * (first / r.numDisks + 1) from by rw [Nat.mul_add]; omega,
        Nat.add_mul_mod_self_left, Nat.mod_eq_of_lt htarget]
    · refine ⟨first - first % r.numDisks + target, ⟨by omega, by omega⟩, ?_⟩
      rw [show first - first % r.numDisks + target
          = target + r.numDisks * (first / r.numDisks) from by omega,
        Nat.add_mul_mod_self_left, Nat.mod_eq_of_lt htarget]
  · rintro a b ⟨⟨ha₁, ha₂⟩, ha⟩ ⟨⟨hb₁, hb₂⟩, hb⟩
    have hmod : a % r.numDisks = b % r.numDisks := ha.trans hb.symm
    rcases Nat.le_total a b with hab | hab
    · have hzero := Nat.eq_zero_of_dvd_of_lt
        (Nat.dvd_of_mod_eq_zero (Nat.sub_mod_eq_zero_of_mod_eq hmod.symm)) (by omega)
      omega
    · have hzero := Nat.eq_zero_of_dvd_of_lt
        (Nat.dvd_of_mod_eq_zero (Nat.sub_mod_eq_zero_of_mod_eq hmod)) (by omega)
      omega

/-- Every block is mapped, without an abort, to distinct places on existing disks. -/
theorem places_ok (bnum : Nat) :
    ∃ ps, r.places bnum = .ok ps ∧ ps ≠ [] ∧ ps.Nodup ∧ ∀ p ∈ ps, p.1 < r.numDisks := by
  have hadm := r.admitted
  have hcol := r.grid.col_lt bnum
  unfold places
  cases hlevel : r.raidLevel with
  | zero =>
    refine ⟨_, rfl, by simp, by simp, ?_⟩
    have hcol' : r.grid.col bnum < r.numDisks := by simpa [grid, dataCols, hlevel] using hcol
    simpa [bmap0_eq_place r hlevel, Grid.place, dataDisk, hlevel] using hcol'
  | one =>
    simp only [bmap1_eq_place r hlevel]
    refine ⟨_, rfl, by simp, by simp [Prod.ext_iff], ?_⟩
    have hcol' : r.grid.col bnum < r.numDisks / 2 := by simpa [grid, dataCols, hlevel] using hcol
    simp only [Grid.place, dataDisk, hlevel, List.mem_cons, List.not_mem_nil, or_false,
      forall_eq_or_imp, forall_eq]
    omega
  | four =>
    refine ⟨_, rfl, by simp, by simp, ?_⟩
    have hcol' : r.grid.col bnum < r.numDisks - 1 := by simpa [grid, dataCols, hlevel] using hcol
    simp only [bmap4_eq_place r hlevel, Grid.place, dataDisk, hlevel, List.mem_singleton, forall_eq]
    omega
  | five =>
    simp only [bmap5_eq_place r hlevel, bind, Except.bind, pure, Except.pure]
    refine ⟨_, rfl, by simp, by simp, ?_⟩
    have hcol' : r.grid.col bnum < r.numDisks - 1 := by simpa [grid, dataCols, hlevel] using hcol
    have hdata := (r.exists_dataDisk5_iff (r.two_le_numDisks (.inr hlevel)) (r.grid.row bnum) _).mp
      ⟨r.grid.col bnum, hcol', rfl⟩
    simpa [Grid.place, dataDisk, hlevel] using hdata.1

/-- **The layouts lose and overlap nothing.** Every block is mapped (at RAID-5 the assertion
holds) to places on existing disks, no two blocks share a place, every place on an existing
disk is either the place of exactly one block or the parity place of its row, and RAID-5 puts
each disk's parity in exactly one of any `numDisks` consecutive rows. -/
theorem layout_bijective :
    (∀ b, ∃ ps, r.places b = .ok ps ∧ ps ≠ [] ∧ ps.Nodup ∧ ∀ p ∈ ps, p.1 < r.numDisks) ∧
    (∀ b b' p, r.Holds b p → r.Holds b' p → b = b') ∧
    (∀ disk < r.numDisks, ∀ off, Xor (∃! b, r.Holds b (disk, off)) (r.ParityAt disk off)) ∧
    (r.raidLevel = .five → ∀ first, ∀ disk < r.numDisks,
      ∃! row, (first ≤ row ∧ row < first + r.numDisks) ∧ r.pmap5 row = .ok disk) := by
  refine ⟨r.places_ok, ?_, ?_, ?_⟩
  · rintro b b' ⟨disk, off⟩ hb hb'
    rw [holds_iff] at hb hb'
    exact r.place_injective (hb.trans hb'.symm)
  · intro disk hdisk off
    have hexists := r.exists_dataDisk_iff_not_parityAt hdisk off
    rw [← r.grid.exists_place_iff] at hexists
    have hunique : (∃! b, r.Holds b (disk, off)) ↔ ¬ r.ParityAt disk off := by
      simp only [holds_iff, ← hexists]
      refine ⟨ExistsUnique.exists, fun ⟨b, hb⟩ => ⟨b, hb, fun b' hb' => ?_⟩⟩
      exact r.place_injective (Eq.trans hb' hb.symm)
    by_cases hparity : r.ParityAt disk off
    · exact .inr ⟨hparity, fun h => hunique.mp h hparity⟩
    · exact .inl ⟨hunique.mpr hparity, hparity⟩
  · intro hlevel first disk hdisk
    simpa only [pmap5_eq r hlevel, Except.ok.injEq] using
      r.existsUnique_parityDisk5 first hdisk

end Raid

end OsLab
