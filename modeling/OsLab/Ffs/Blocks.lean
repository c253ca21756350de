import Mathlib.Data.Nat.ModEq
import OsLab.Ffs.Groups

/-!
# Allocating blocks

The loop of `allocate_blocks` ends when enough blocks are free. The first time around the groups it
may pass free blocks by; when it comes back to the first group it takes every free block it meets,
so it cannot go around again without taking one.

* **`rangeFree_ok`** -- what `range_free` asks for, as a condition on the cells.
* **`Scan.Holds`**, **`Scan.Scanning`** -- the invariant of the loop: what it has marked, and where
  it stands.
* **`Scan.Scanning.round_take`**, **`Scan.Scanning.round_skip`** -- the two rounds that do not end
  the loop.
* **`Scan.Scanning.ends_first`**, **`Scan.Scanning.ends_second`** -- the loop ends: the first time
  around, and from the return to the first group on.
* **`ScanClear`** -- the one way to end with a contiguity policy below 1: every block that the scan
  comes to is free.
* **`allocateBlocks_exact`** -- enough rounds give the result, more change nothing, and it is the
  right one.
-/

namespace OsLab.Ffs

open Grid (Shape)

variable {c : Config} {orig bitmap : Bitmap} {size t g : Nat} {inodeNumber : Int}
  {needed chunksFree : Int} {a : Scan} {cells : List (Nat × Nat)}

/-- How many free blocks in a row `range_free` asks for. -/
def wanted (needed chunksFree : Int) : Int := if needed < chunksFree then needed else chunksFree

/-- `range_free` answers whether the blocks that it asks for lie in the group and are all free. -/
theorem rangeFree_ok (hshape : Shape c.numGroups c.blocksPerGroup bitmap) (hg : g < c.numGroups)
    (index : Nat) (needed chunksFree : Int) :
    ∃ free, rangeFree c bitmap g index needed chunksFree = .ok free ∧
      (free = true ↔ index + wanted needed chunksFree ≤ c.blocksPerGroup ∧
        ∀ i : Nat, index ≤ i → (i : Int) < index + wanted needed chunksFree →
          Grid.get? bitmap (g, i) = some none) := by
  unfold rangeFree
  -- The end of the range, as the loop of the source computes it.
  show ∃ free, (if index + wanted needed chunksFree - 1 ≥ (c.blocksPerGroup : Int) then
      (.ok false : Except Abort Bool)
    else do
      let used ← (range index (index + wanted needed chunksFree - 1 + 1).toNat).findM?
        fun i : Nat => do
          let mark ← cell bitmap g i
          return mark.isSome
      return used.isNone) = _ ∧ _
  by_cases hend : index + wanted needed chunksFree - 1 ≥ (c.blocksPerGroup : Int)
  · rw [if_pos hend]
    refine ⟨false, rfl, ?_⟩
    constructor
    · intro h
      cases h
    · rintro ⟨hle, _⟩
      omega
  · rw [if_neg hend]
    -- Within the group every index of the bitmap is in range.
    have htest : ∀ i ∈ range index (index + wanted needed chunksFree - 1 + 1).toNat,
        (do let mark ← cell bitmap g (i : Nat); return mark.isSome) =
          Except.ok (decide (Grid.get? bitmap (g, i) ≠ some none)) := by
      intro i hi
      have hlt : i < c.blocksPerGroup := by
        have := (mem_range.mp hi).2
        omega
      obtain ⟨mark, hmark⟩ := hshape.exists_cell (p := (g, i)) hg hlt
      rw [cell_eq_ok.mpr hmark, hmark]
      cases mark <;> rfl
    rw [findM?_eq_ok htest]
    refine ⟨_, rfl, ?_⟩
    rw [Option.isNone_iff_eq_none, List.find?_eq_none]
    simp only [mem_range, ne_eq, decide_not, Bool.not_eq_eq_eq_not, Bool.not_true,
      decide_eq_false_iff_not, not_not]
    constructor
    · intro hall
      exact ⟨by omega, fun i hle hlt => hall i ⟨hle, by omega⟩⟩
    · rintro ⟨_, hall⟩ i ⟨hle, hlt⟩
      exact hall i hle (by omega)

/-! ## One round -/

/-- The scan has marked `cells`, all of them free before, and nothing else. -/
structure Scan.Holds (orig : Bitmap) (inodeNumber : Int) (a : Scan) (cells : List (Nat × Nat)) :
    Prop where
  bitmap : a.bitmap = Grid.putAll orig cells (some inodeNumber)
  allocated : a.allocated = cells.map fun p => ((p.1 : Int), p.2)
  nodup : cells.Nodup
  free : ∀ p ∈ cells, Grid.get? orig p = some none

/-- The scan stands before a round, in group `g`. -/
structure Scan.Scanning (c : Config) (orig : Bitmap) (size : Nat) (inodeNumber : Int) (a : Scan)
    (cells : List (Nat × Nat)) (g : Nat) : Prop extends Scan.Holds orig inodeNumber a cells where
  short : cells.length < size
  group : a.currentGroup = g
  group_lt : g < c.numGroups
  index_lt : a.index < c.blocksPerGroup
  exception : 0 < c.largeFileException → (a.allocatedInGroup : Int) < c.largeFileException

namespace Scan

/-- A cell is marked by the scan, or as it was before. -/
theorem Holds.get? (h : Holds orig inodeNumber a cells) (p : Nat × Nat) :
    Grid.get? a.bitmap p = if p ∈ cells then some (some inodeNumber) else Grid.get? orig p := by
  rw [h.bitmap]
  exact Grid.get?_putAll (fun q hq => ⟨none, h.free q hq⟩) p

theorem Holds.shape (h : Holds orig inodeNumber a cells)
    (hshape : Shape c.numGroups c.blocksPerGroup orig) :
    Shape c.numGroups c.blocksPerGroup a.bitmap := by
  rw [h.bitmap]
  exact hshape.putAll cells _

/-- The scan has turned as many free cells into used ones as it holds. -/
theorem Holds.count (h : Holds orig inodeNumber a cells) :
    Grid.count (·.isNone) a.bitmap + cells.length = Grid.count (·.isNone) orig := by
  rw [h.bitmap]
  exact Grid.count_putAll_add h.nodup (fun p hp => ⟨none, h.free p hp, rfl⟩) rfl

/-- The state after `take`. -/
def taken (a : Scan) (inodeNumber : Int) (g : Nat) : Scan :=
  { a with
    bitmap := Grid.put a.bitmap (g, a.index) (some inodeNumber)
    allocatedInGroup := a.allocatedInGroup + 1
    allocated := a.allocated ++ [(a.currentGroup, a.index)] }

/-- A free block is taken: the cell is marked and its number is listed. -/
theorem take_ok (hgroup : a.currentGroup = g)
    (hcell : Grid.get? a.bitmap (g, a.index) = some none) :
    a.take inodeNumber = .ok (a.taken inodeNumber g) := by
  have hread : cell a.bitmap a.currentGroup a.index = .ok none := by
    rw [hgroup]
    exact cell_eq_ok.mpr hcell
  have hwrite : setCell a.bitmap a.currentGroup a.index (some inodeNumber) =
      .ok (Grid.put a.bitmap (g, a.index) (some inodeNumber)) := by
    rw [hgroup]
    exact setCell_ok hcell _
  unfold take
  simp only [bind, Except.bind, hread, hwrite]
  rfl

/-- A block that is taken was free before the scan, for the scan has marked none twice. -/
theorem Holds.taken (h : Holds orig inodeNumber a cells) (hgroup : a.currentGroup = g)
    (hcell : Grid.get? a.bitmap (g, a.index) = some none) :
    Holds orig inodeNumber (a.taken inodeNumber g) (cells ++ [(g, a.index)]) := by
  rw [h.get?] at hcell
  have hnew : (g, a.index) ∉ cells := by
    intro hmem
    rw [if_pos hmem] at hcell
    cases hcell
  rw [if_neg hnew] at hcell
  constructor
  · show Grid.put a.bitmap (g, a.index) (some inodeNumber) = _
    rw [Grid.putAll_append_singleton, h.bitmap]
  · show a.allocated ++ [(a.currentGroup, a.index)] = _
    rw [List.map_append, h.allocated, hgroup]
    rfl
  · exact List.nodup_append.mpr ⟨h.nodup, List.nodup_singleton _, by
      rintro p hp q hq rfl
      exact hnew (List.mem_singleton.mp hq ▸ hp)⟩
  · intro p hp
    rcases List.mem_append.mp hp with hp | hp
    · exact h.free p hp
    · rw [List.mem_singleton.mp hp]
      exact hcell

/-- Where the scan stands after a round that does not end it: one block further in its group, or at
the start of the next one. -/
inductive Moved (c : Config) (t : Nat) (a b : Scan) (g : Nat) : Nat → Prop where
  | within (hindex : b.index = a.index + 1) (hchunks : b.chunksFree = a.chunksFree) :
      Moved c t a b g g
  | next (hindex : b.index = 0)
      (hchunks : b.chunksFree = if (g + 1) % c.numGroups = t then 1 else a.chunksFree) :
      Moved c t a b g ((g + 1) % c.numGroups)

/-- Where a round moves on to: the next block of the group, or the first of the next group. Back at
the first group one free block is enough. -/
theorem advance_ok (a a' : Scan) (hgroup : a'.currentGroup = g)
    (hgroup_lt : g < c.numGroups) (ht : t < c.numGroups)
    (hindex : a'.index = a.index + 1) (hindex_lt : a.index < c.blocksPerGroup)
    (hchunks : a'.chunksFree = a.chunksFree)
    (hexception : 0 < c.largeFileException → (a'.allocatedInGroup : Int) ≤ c.largeFileException) :
    ∃ g' < c.numGroups, Moved c t a (a'.advance c t) g g' ∧
      (a'.advance c t).currentGroup = g' ∧ (a'.advance c t).index < c.blocksPerGroup ∧
      (0 < c.largeFileException →
        ((a'.advance c t).allocatedInGroup : Int) < c.largeFileException) ∧
      (a'.advance c t).bitmap = a'.bitmap ∧ (a'.advance c t).allocated = a'.allocated := by
  unfold advance
  split
  · -- on to the next group
    have hpos : 0 < c.numGroups := by omega
    have hnext : (a'.currentGroup + 1) % c.numGroups = (((g + 1) % c.numGroups : Nat) : Int) := by
      rw [hgroup]
      push_cast
      rfl
    refine ⟨(g + 1) % c.numGroups, Nat.mod_lt _ hpos, .next rfl ?_, hnext, by
      show 0 < c.blocksPerGroup
      omega, fun h => h, rfl, rfl⟩
    show (if (a'.currentGroup + 1) % c.numGroups = (t : Int) then 1 else a'.chunksFree) = _
    rw [hnext, hchunks]
    simp only [Int.natCast_inj]
  · rename_i hstay
    refine ⟨g, hgroup_lt, .within hindex hchunks, hgroup, by omega, fun h => ?_, rfl, rfl⟩
    have := hexception h
    omega

/-- A round that takes its block has all that was asked for, or moves on with one block more. -/
theorem Scanning.round_take (h : Scanning c orig size inodeNumber a cells g)
    (ht : t < c.numGroups)
    (hfree : rangeFree c a.bitmap a.currentGroup a.index (size - a.allocated.length)
      a.chunksFree = .ok true)
    (hcell : Grid.get? a.bitmap (g, a.index) = some none) :
    ∃ b done, a.round c t size inodeNumber = .ok (b, done) ∧
      (done = true ∧ Holds orig inodeNumber b (cells ++ [(g, a.index)]) ∧
          cells.length + 1 = size ∨
        done = false ∧ ∃ g', Scanning c orig size inodeNumber b (cells ++ [(g, a.index)]) g' ∧
          Moved c t a b g g' ∧
          b.bitmap = Grid.put a.bitmap (g, a.index) (some inodeNumber) ∧
          b = advance c t ⟨Grid.put a.bitmap (g, a.index) (some inodeNumber),
            a.allocated ++ [(a.currentGroup, a.index)], a.index + 1, a.allocatedInGroup + 1,
            a.currentGroup, a.chunksFree⟩) := by
  have hholds := h.toHolds.taken h.group hcell
  have hlen : (a.taken inodeNumber g).allocated.length = cells.length + 1 := by
    rw [hholds.allocated, List.length_map, List.length_append]
    rfl
  unfold round
  simp only [bind, Except.bind, hfree, take_ok h.group hcell, if_true]
  -- The scan is over with the last block, before the index moves on.
  by_cases hdone : cells.length + 1 = size
  · rw [if_pos (hlen.trans hdone)]
    exact ⟨_, _, rfl, Or.inl ⟨rfl, ⟨hholds.bitmap, hholds.allocated, hholds.nodup, hholds.free⟩,
      hdone⟩⟩
  · rw [if_neg (by omega)]
    -- Otherwise it goes on, in the same group or in the next.
    obtain ⟨g', hg', hmoved, hgroup, hindex, hexception, hbitmap, hallocated⟩ :=
      advance_ok a { a.taken inodeNumber g with index := a.index + 1 } h.group h.group_lt ht rfl
        h.index_lt rfl (by
          intro hpos
          have := h.exception hpos
          show ((a.allocatedInGroup + 1 : Nat) : Int) ≤ c.largeFileException
          omega)
    refine ⟨_, _, rfl, Or.inr ⟨rfl, g', ⟨⟨?_, ?_, hholds.nodup, hholds.free⟩, ?_, hgroup, hg',
      hindex, hexception⟩, hmoved, hbitmap, rfl⟩⟩
    · exact hbitmap.trans hholds.bitmap
    · exact hallocated.trans hholds.allocated
    · rw [List.length_append]
      have := h.short
      show cells.length + 1 < size
      omega

/-- A round that passes its block by moves on, and has marked nothing. -/
theorem Scanning.round_skip (h : Scanning c orig size inodeNumber a cells g)
    (ht : t < c.numGroups)
    (hfree : rangeFree c a.bitmap a.currentGroup a.index (size - a.allocated.length)
      a.chunksFree = .ok false) :
    ∃ b g', a.round c t size inodeNumber = .ok (b, false) ∧
      Scanning c orig size inodeNumber b cells g' ∧ Moved c t a b g g' ∧ b.bitmap = a.bitmap ∧
      (b.index = 0 → a.index + 1 = c.blocksPerGroup) := by
  have hlen : a.allocated.length = cells.length := by
    rw [h.allocated, List.length_map]
  unfold round
  simp only [bind, Except.bind, hfree, pure, Except.pure, Bool.false_eq_true, if_false]
  have hshort := h.short
  rw [if_neg (by omega)]
  obtain ⟨g', hg', hmoved, hgroup, hindex, hexception, hbitmap, hallocated⟩ :=
    advance_ok a { a with index := a.index + 1 } h.group h.group_lt ht rfl h.index_lt rfl
      (fun hpos => Int.le_of_lt (h.exception hpos))
  have hend : (({ a with index := a.index + 1 } : Scan).advance c t).index = 0 →
      a.index + 1 = c.blocksPerGroup := by
    unfold advance
    split
    · -- the exception is not used up by a round that takes nothing
      rename_i hnext
      rcases hnext with hend | ⟨hpos, heq⟩
      · exact fun _ => hend
      · have := h.exception hpos
        dsimp only at heq
        omega
    · intro hzero
      dsimp only at hzero
      omega
  refine ⟨_, g', rfl, ⟨⟨?_, ?_, h.nodup, h.free⟩, hshort, hgroup, hg', hindex, hexception⟩, hmoved,
    hbitmap, hend⟩
  · exact hbitmap.trans h.bitmap
  · exact hallocated.trans h.allocated

/-! ## The whole loop -/

/-- From here the loop ends, with as many blocks as asked for. -/
def Ends (c : Config) (t : Nat) (orig : Bitmap) (size : Nat) (inodeNumber : Int) (a : Scan) :
    Prop :=
  ∃ fuel b cells, loop c t size inodeNumber fuel a = .ok (some b) ∧
    Holds orig inodeNumber b cells ∧ cells.length = size

theorem ends_of_last {b : Scan} (hround : a.round c t size inodeNumber = .ok (b, true))
    (hholds : Holds orig inodeNumber b cells) (hsize : cells.length = size) :
    Ends c t orig size inodeNumber a := by
  refine ⟨1, b, cells, ?_, hholds, hsize⟩
  unfold loop
  simp only [bind, Except.bind, hround]
  rfl

theorem ends_of_round {b : Scan} (hround : a.round c t size inodeNumber = .ok (b, false))
    (hends : Ends c t orig size inodeNumber b) : Ends c t orig size inodeNumber a := by
  obtain ⟨fuel, b', cells, hloop, hholds, hsize⟩ := hends
  refine ⟨fuel + 1, b', cells, ?_, hholds, hsize⟩
  unfold loop
  simp only [bind, Except.bind, hround]
  exact hloop

/-- More rounds change nothing once the loop has ended; so the bound on them is none of the
program's. -/
theorem loop_unique {targetGroup : Int} {fuel : Nat} {b : Scan}
    (h : loop c targetGroup size inodeNumber fuel a = .ok (some b)) (fuel' : Nat) :
    loop c targetGroup size inodeNumber fuel' a = .ok none ∨
      loop c targetGroup size inodeNumber fuel' a = .ok (some b) := by
  induction fuel generalizing a fuel' with
  | zero => cases h
  | succ fuel ih =>
    cases fuel' with
    | zero => exact Or.inl rfl
    | succ fuel' =>
      unfold loop at h ⊢
      cases hround : a.round c targetGroup size inodeNumber with
      | error e =>
        rw [hround] at h
        cases h
      | ok r =>
        simp only [bind, Except.bind, hround] at h ⊢
        by_cases hlast : r.2 = true
        · rw [if_pos hlast] at h ⊢
          exact Or.inr h
        · rw [if_neg hlast] at h ⊢
          exact ih h fuel'

theorem loop_mono {targetGroup : Int} {fuel fuel' : Nat} {b : Scan}
    (h : loop c targetGroup size inodeNumber fuel a = .ok (some b)) (hle : fuel ≤ fuel') :
    loop c targetGroup size inodeNumber fuel' a = .ok (some b) := by
  induction fuel generalizing a fuel' with
  | zero => cases h
  | succ fuel ih =>
    obtain ⟨more, rfl⟩ : ∃ more, fuel' = more + 1 := ⟨fuel' - 1, by omega⟩
    unfold loop at h ⊢
    cases hround : a.round c targetGroup size inodeNumber with
    | error e =>
      rw [hround] at h
      cases h
    | ok r =>
      simp only [bind, Except.bind, hround] at h ⊢
      by_cases hlast : r.2 = true
      · rw [if_pos hlast] at h ⊢
        exact h
      · rw [if_neg hlast] at h ⊢
        exact ih h (by omega)

theorem wanted_one (hneeded : 1 ≤ needed) : wanted needed 1 = 1 := by
  unfold wanted
  rw [if_neg (by omega)]

theorem one_le_wanted (hneeded : 1 ≤ needed) (hchunks : 1 ≤ chunksFree) :
    1 ≤ wanted needed chunksFree := by
  unfold wanted
  split
  · exact hneeded
  · exact hchunks

theorem Scanning.needed_pos (h : Scanning c orig size inodeNumber a cells g) :
    1 ≤ (size : Int) - a.allocated.length := by
  have hlen : a.allocated.length = cells.length := by
    rw [h.allocated, List.length_map]
  have := h.short
  omega

/-- Some block is still free, and the scan has not left it behind in its group. -/
theorem Scanning.exists_ahead (h : Scanning c orig size inodeNumber a cells g)
    (hshape : Shape c.numGroups c.blocksPerGroup orig)
    (hroom : size ≤ Grid.count (·.isNone) orig)
    (hbehind : ∀ j < a.index, Grid.get? a.bitmap (g, j) ≠ some none) :
    ∃ d j, Grid.get? a.bitmap ((g + d) % c.numGroups, j) = some none ∧ (d = 0 → a.index ≤ j) := by
  have hcount := h.toHolds.count
  have hshort := h.short
  have hg := h.group_lt
  obtain ⟨k, hk, hpos⟩ := exists_freeIn (h.toHolds.shape hshape) (by omega)
  obtain ⟨j, hj⟩ := freeIn_pos_iff.mp hpos
  by_cases hsame : k = g
  · subst hsame
    refine ⟨0, j, ?_, fun _ => ?_⟩
    · rw [Nat.add_zero, Nat.mod_eq_of_lt hg]
      exact hj
    · exact Nat.le_of_not_lt fun hlt => hbehind j hlt hj
  · -- `k` lies that many groups ahead, around the end
    refine ⟨k + c.numGroups - g, j, ?_, fun h => by omega⟩
    have hsum : g + (k + c.numGroups - g) = k + c.numGroups := by omega
    rw [hsum, Nat.add_mod_right, Nat.mod_eq_of_lt hk]
    exact hj

/-- Back at the first group one free block is enough, so the loop ends: by induction on the blocks
still to take, the groups up to a free block and the blocks left of this group. -/
theorem Scanning.ends_second (hshape : Shape c.numGroups c.blocksPerGroup orig)
    (ht : t < c.numGroups) (hroom : size ≤ Grid.count (·.isNone) orig) :
    ∀ (r d k : Nat) (a : Scan) (cells : List (Nat × Nat)) (g : Nat),
      Scanning c orig size inodeNumber a cells g → a.chunksFree = 1 →
      (∀ j < a.index, Grid.get? a.bitmap (g, j) ≠ some none) →
      (∃ j, Grid.get? a.bitmap ((g + d) % c.numGroups, j) = some none ∧ (d = 0 → a.index ≤ j)) →
      r = size - cells.length → k = c.blocksPerGroup - a.index →
      Ends c t orig size inodeNumber a := by
  intro r
  induction r using Nat.strong_induction_on with
  | _ r ihr =>
  intro d
  induction d using Nat.strong_induction_on with
  | _ d ihd =>
  intro k
  induction k using Nat.strong_induction_on with
  | _ k ihk =>
  intro a cells g h hchunks hbehind hahead hr hk
  have hshort := h.short
  have hindex := h.index_lt
  obtain ⟨free, hfree, hiff⟩ := rangeFree_ok (h.toHolds.shape hshape) h.group_lt a.index
    (size - a.allocated.length) a.chunksFree
  rw [← h.group] at hfree
  rw [hchunks, wanted_one h.needed_pos] at hiff
  cases free with
  | true =>
    have hcell := (hiff.mp rfl).2 a.index (Nat.le_refl _) (by omega)
    obtain ⟨b, done, hround, hcases⟩ := h.round_take ht hfree hcell
    rcases hcases with ⟨rfl, hholds, hsize⟩ | ⟨rfl, g', hscan, hmoved, hbitmap, _⟩
    · exact ends_of_last hround hholds (by rw [List.length_append]; exact hsize)
    · -- one block less to take
      have hlen : (cells ++ [(g, a.index)]).length = cells.length + 1 := List.length_append
      have hbehind' : b.chunksFree = 1 ∧ ∀ j < b.index, Grid.get? b.bitmap (g', j) ≠ some none := by
        cases hmoved with
        | within hindex' hchunks' =>
          refine ⟨hchunks'.trans hchunks, fun j hj => ?_⟩
          rw [hbitmap, Grid.get?_put hcell]
          by_cases hjeq : j = a.index
          · simp [hjeq]
          · rw [if_neg (by simp [hjeq])]
            exact hbehind j (by omega)
        | next hindex' hchunks' =>
          refine ⟨?_, fun j hj => by omega⟩
          rw [hchunks']
          split
          · rfl
          · exact hchunks
      obtain ⟨d', hd'⟩ := hscan.exists_ahead hshape hroom hbehind'.2
      exact ends_of_round hround (ihr (size - (cells.length + 1)) (by omega) d' _ b _ g' hscan
        hbehind'.1 hbehind'.2 hd' (by rw [hlen]) rfl)
  | false =>
    -- the block is in use
    have hused : Grid.get? a.bitmap (g, a.index) ≠ some none := by
      intro hnone
      have hall : (a.index : Int) + 1 ≤ c.blocksPerGroup ∧
          ∀ i : Nat, a.index ≤ i → (i : Int) < a.index + 1 →
            Grid.get? a.bitmap (g, i) = some none := by
        refine ⟨by omega, fun i hle hlt => ?_⟩
        obtain rfl : i = a.index := by omega
        exact hnone
      exact absurd (hiff.mpr hall) (by decide)
    obtain ⟨b, g', hround, hscan, hmoved, hbitmap, hend⟩ := h.round_skip ht hfree
    obtain ⟨j, hj, hzero⟩ := hahead
    apply ends_of_round hround
    cases hmoved with
    | within hindex' hchunks' =>
      refine ihk (c.blocksPerGroup - b.index) (by omega) b cells g hscan (hchunks'.trans hchunks)
        (fun i hi => ?_) ⟨j, ?_, fun hd => ?_⟩ hr rfl
      · rw [hbitmap]
        by_cases hieq : i = a.index
        · rw [hieq]
          exact hused
        · exact hbehind i (by omega)
      · rw [hbitmap]
        exact hj
      · -- in this group the free block lies after the block passed by
        subst hd
        rw [Nat.add_zero, Nat.mod_eq_of_lt h.group_lt] at hj
        have hne : j ≠ a.index := fun heq => hused (heq ▸ hj)
        have := hzero rfl
        omega
    | next hindex' hchunks' =>
      -- the group is searched, so the free block is in a later one
      have hlast := hend hindex'
      have hd : d ≠ 0 := by
        rintro rfl
        rw [Nat.add_zero, Nat.mod_eq_of_lt h.group_lt] at hj
        have hne : j ≠ a.index := fun heq => hused (heq ▸ hj)
        have hlt := ((h.toHolds.shape hshape).lt_of_get? hj).2
        have := hzero rfl
        dsimp only at hlt
        omega
      refine ihd (d - 1) (by omega) _ b cells _ hscan ?_ (fun i hi => by omega)
        ⟨j, ?_, fun _ => by omega⟩ hr rfl
      · rw [hchunks']
        split
        · rfl
        · exact hchunks
      · rw [hbitmap, Nat.mod_add_mod]
        have hsum : g + 1 + (d - 1) = g + d := by omega
        rw [hsum]
        exact hj

/-- The loop ends from the start of the first group once one free block is enough. -/
theorem Scanning.ends_start (h : Scanning c orig size inodeNumber a cells g)
    (hshape : Shape c.numGroups c.blocksPerGroup orig) (ht : t < c.numGroups)
    (hroom : size ≤ Grid.count (·.isNone) orig) (hindex : a.index = 0)
    (hchunks : a.chunksFree = 1) : Ends c t orig size inodeNumber a := by
  have hbehind : ∀ j < a.index, Grid.get? a.bitmap (g, j) ≠ some none := by
    intro j hj
    omega
  obtain ⟨d, hd⟩ := h.exists_ahead hshape hroom hbehind
  exact ends_second hshape ht hroom _ d _ a cells g h hchunks hbehind hd rfl rfl

/-- The first time around, by induction on the groups left and the blocks left of this group. -/
theorem Scanning.ends_first (hshape : Shape c.numGroups c.blocksPerGroup orig)
    (ht : t < c.numGroups) (hroom : size ≤ Grid.count (·.isNone) orig) :
    ∀ (e k : Nat) (a : Scan) (cells : List (Nat × Nat)) (g : Nat),
      Scanning c orig size inodeNumber a cells g → 1 ≤ a.chunksFree →
      (g + (e + 1)) % c.numGroups = t → k = c.blocksPerGroup - a.index →
      Ends c t orig size inodeNumber a := by
  intro e
  induction e using Nat.strong_induction_on with
  | _ e ihe =>
  intro k
  induction k using Nat.strong_induction_on with
  | _ k ihk =>
  intro a cells g h hchunks hgroups hk
  have hindex := h.index_lt
  -- what is left after a round that goes on
  have hrest : ∀ (b : Scan) (cells' : List (Nat × Nat)) (g' : Nat),
      Scanning c orig size inodeNumber b cells' g' → Moved c t a b g g' →
      Ends c t orig size inodeNumber b := by
    intro b cells' g' hscan hmoved
    cases hmoved with
    | within hindex' hchunks' =>
      exact ihk (c.blocksPerGroup - b.index) (by omega) b cells' g hscan (by omega) hgroups rfl
    | next hindex' hchunks' =>
      by_cases hback : (g + 1) % c.numGroups = t
      · rw [if_pos hback] at hchunks'
        exact hscan.ends_start hshape ht hroom hindex' hchunks'
      · rw [if_neg hback] at hchunks'
        have he : e ≠ 0 := by
          rintro rfl
          exact hback hgroups
        refine ihe (e - 1) (by omega) _ b cells' _ hscan (by omega) ?_ rfl
        rw [Nat.mod_add_mod]
        have hsum : g + 1 + (e - 1 + 1) = g + (e + 1) := by omega
        rw [hsum]
        exact hgroups
  obtain ⟨free, hfree, hiff⟩ := rangeFree_ok (h.toHolds.shape hshape) h.group_lt a.index
    (size - a.allocated.length) a.chunksFree
  rw [← h.group] at hfree
  have hwanted := one_le_wanted h.needed_pos hchunks
  cases free with
  | true =>
    have hcell := (hiff.mp rfl).2 a.index (Nat.le_refl _) (by omega)
    obtain ⟨b, done, hround, hcases⟩ := h.round_take ht hfree hcell
    rcases hcases with ⟨rfl, hholds, hsize⟩ | ⟨rfl, g', hscan, hmoved, _⟩
    · exact ends_of_last hround hholds (by rw [List.length_append]; exact hsize)
    · exact ends_of_round hround (hrest b _ g' hscan hmoved)
  | false =>
    obtain ⟨b, g', hround, hscan, hmoved, _⟩ := h.round_skip ht hfree
    exact ends_of_round hround (hrest b cells g' hscan hmoved)

/-! ## A contiguity policy below 1 -/

/-- How many blocks of a group a file gets the first time around when every block is free. -/
def stride (c : Config) : Nat :=
  if 0 < c.largeFileException ∧ c.largeFileException < c.blocksPerGroup then
    c.largeFileException.toNat
  else
    c.blocksPerGroup

/-- The position that the scan reaches after `p` blocks when it takes every block. -/
def nth (c : Config) (t p : Nat) : Nat × Nat := ((t + p / stride c) % c.numGroups, p % stride c)

theorem nth_ne {p q : Nat} (hpq : p < q) (hq : q < c.numGroups * stride c) :
    nth c t q ≠ nth c t p := by
  intro heq
  have hrow : (t + q / stride c) % c.numGroups = (t + p / stride c) % c.numGroups :=
    congrArg Prod.fst heq
  have hcol : q % stride c = p % stride c := congrArg Prod.snd heq
  have hqdiv : q / stride c < c.numGroups := Nat.div_lt_of_lt_mul (by rwa [Nat.mul_comm])
  have hpdiv : p / stride c < c.numGroups := Nat.div_lt_of_lt_mul (by rw [Nat.mul_comm]; omega)
  have hdiv : q / stride c = p / stride c :=
    Nat.ModEq.eq_of_lt_of_lt (Nat.ModEq.add_left_cancel' t hrow) hqdiv hpdiv
  have hq' := Nat.div_add_mod q (stride c)
  have hp' := Nat.div_add_mod p (stride c)
  rw [hdiv, hcol] at hq'
  omega

/-- The group is left when `stride` blocks are taken, by the large file exception or at its end. -/
theorem leaves_iff {k : Nat} (hk : k < stride c) :
    (k + 1 = c.blocksPerGroup ∨
      0 < c.largeFileException ∧ ((k + 1 : Nat) : Int) = c.largeFileException) ↔
      k + 1 = stride c := by
  unfold stride at hk ⊢
  by_cases hsmall : 0 < c.largeFileException ∧ c.largeFileException < c.blocksPerGroup
  · rw [if_pos hsmall] at hk ⊢
    omega
  · rw [if_neg hsmall] at hk ⊢
    omega

/-- With a contiguity policy below 1 every block passes `range_free`, so each must be free the
first time around: by induction on the blocks left of it. -/
theorem Scanning.ends_unchecked (hshape : Shape c.numGroups c.blocksPerGroup orig)
    (ht : t < c.numGroups) (hroom : size ≤ Grid.count (·.isNone) orig) (hpos : 0 < stride c) :
    ∀ (k p : Nat) (a : Scan) (cells : List (Nat × Nat)),
      Scanning c orig size inodeNumber a cells ((t + p / stride c) % c.numGroups) →
      a.chunksFree ≤ 0 → a.index = p % stride c → a.allocatedInGroup = p % stride c →
      cells.length = p → p < c.numGroups * stride c → k = c.numGroups * stride c - p →
      (∀ q, p ≤ q → q < size → q < c.numGroups * stride c →
        Grid.get? a.bitmap (nth c t q) = some none) →
      Ends c t orig size inodeNumber a := by
  intro k
  induction k using Nat.strong_induction_on with
  | _ k ih =>
  intro p a cells h hchunks hindex hinGroup hlen hp hk hclear
  have hshort := h.short
  have hindex_lt := h.index_lt
  have hmod : p % stride c < stride c := Nat.mod_lt p hpos
  obtain ⟨free, hfree, hiff⟩ := rangeFree_ok (h.toHolds.shape hshape) h.group_lt a.index
    (size - a.allocated.length) a.chunksFree
  rw [← h.group] at hfree
  have hwanted : wanted (size - a.allocated.length) a.chunksFree = a.chunksFree := by
    have := h.needed_pos
    unfold wanted
    rw [if_neg (by omega)]
  rw [hwanted] at hiff
  obtain rfl : free = true := hiff.mpr ⟨by omega, fun i hle hlt => by omega⟩
  have hcell : Grid.get? a.bitmap ((t + p / stride c) % c.numGroups, a.index) = some none := by
    rw [hindex]
    exact hclear p (Nat.le_refl _) (by omega) hp
  obtain ⟨b, done, hround, hcases⟩ := h.round_take ht hfree hcell
  rcases hcases with ⟨rfl, hholds, hsize⟩ | ⟨rfl, g', hscan, hmoved, hbitmap, hb⟩
  · exact ends_of_last hround hholds (by rw [List.length_append]; exact hsize)
  apply ends_of_round hround
  have hleaves := leaves_iff (c := c) hmod
  rw [← hindex] at hleaves
  -- the next position is `p + 1`
  have hnext := Nat.div_add_mod (p + 1) (stride c)
  have hthis := Nat.div_add_mod p (stride c)
  have hmod' : (p + 1) % stride c < stride c := Nat.mod_lt _ hpos
  have hclear' : ∀ q, p + 1 ≤ q → q < size → q < c.numGroups * stride c →
      Grid.get? b.bitmap (nth c t q) = some none := by
    intro q hle hlt hq
    have hne : nth c t q ≠ ((t + p / stride c) % c.numGroups, a.index) := by
      rw [hindex]
      exact nth_ne (by omega) hq
    rw [hbitmap, Grid.get?_put hcell, if_neg hne]
    exact hclear q (by omega) hlt hq
  have hlen' : (cells ++ [((t + p / stride c) % c.numGroups, a.index)]).length = p + 1 := by
    rw [List.length_append, hlen]
    rfl
  unfold advance at hb
  dsimp only at hb
  rw [hinGroup, ← hindex] at hb
  by_cases hleave : a.index + 1 = stride c
  · -- the first block of the next group
    obtain ⟨hdiv, hmod₁⟩ : (p + 1) / stride c = p / stride c + 1 ∧ (p + 1) % stride c = 0 := by
      have hsum : p + 1 = stride c * (p / stride c + 1) := by
        rw [Nat.mul_add]
        omega
      rw [hsum]
      exact ⟨Nat.mul_div_cancel_left _ hpos, Nat.mul_mod_right ..⟩
    rw [if_pos (hleaves.mpr hleave)] at hb
    have hgroup : b.currentGroup = (((t + (p + 1) / stride c) % c.numGroups : Nat) : Int) := by
      rw [hb]
      show (a.currentGroup + 1) % c.numGroups = _
      rw [h.group, hdiv]
      push_cast
      rw [Int.emod_add_emod, Int.add_assoc]
    obtain rfl : g' = (t + (p + 1) / stride c) % c.numGroups := by
      have := hscan.group
      omega
    have hindex' : b.index = 0 := by rw [hb]
    by_cases hback : (t + (p + 1) / stride c) % c.numGroups = t
    · have hchunks' : b.chunksFree = 1 := by
        rw [hb] at hgroup ⊢
        show (if (a.currentGroup + 1) % c.numGroups = (t : Int) then 1 else a.chunksFree) = 1
        rw [if_pos (hgroup.trans (congrArg Nat.cast hback))]
      exact hscan.ends_start hshape ht hroom hindex' hchunks'
    · have hchunks' : b.chunksFree = a.chunksFree := by
        rw [hb] at hgroup ⊢
        show (if (a.currentGroup + 1) % c.numGroups = (t : Int) then 1 else a.chunksFree) = _
        rw [if_neg fun heq => hback (Int.natCast_inj.mp (hgroup.symm.trans heq))]
      have hp' : p + 1 ≠ c.numGroups * stride c := by
        intro heq
        rw [heq, Nat.mul_div_cancel _ hpos, Nat.add_mod_right, Nat.mod_eq_of_lt ht] at hback
        exact hback rfl
      exact ih _ (by omega) (p + 1) b _ hscan (by omega) (by omega) (by rw [hb]; exact hmod₁.symm)
        hlen' (by omega) rfl hclear'
  · -- the next block of this group
    obtain ⟨hdiv, hmod₁⟩ : (p + 1) / stride c = p / stride c ∧
        (p + 1) % stride c = p % stride c + 1 := by
      have hsum : p + 1 = p % stride c + 1 + stride c * (p / stride c) := by omega
      have hlt : p % stride c + 1 < stride c := by omega
      rw [hsum, Nat.add_mul_div_left _ _ hpos, Nat.add_mul_mod_self_left, Nat.div_eq_of_lt hlt,
        Nat.mod_eq_of_lt hlt]
      omega
    rw [if_neg fun hor => hleave (hleaves.mp hor)] at hb
    have hgroup : b.currentGroup = (((t + (p + 1) / stride c) % c.numGroups : Nat) : Int) := by
      rw [hb, hdiv]
      exact h.group
    obtain rfl : g' = (t + (p + 1) / stride c) % c.numGroups := by
      have := hscan.group
      omega
    have hp' : p + 1 ≠ c.numGroups * stride c := by
      intro heq
      rw [heq, Nat.mul_mod_left] at hmod₁
      omega
    exact ih _ (by omega) (p + 1) b _ hscan (by rw [hb]; exact hchunks)
      (by rw [hb, hmod₁, ← hindex]) (by rw [hb, hmod₁, ← hindex]) hlen' (by omega) rfl hclear'

end Scan

/-! ## allocate_blocks -/

/-- While the scan takes every block it comes to, these blocks are free. -/
def ScanClear (c : Config) (bitmap : Bitmap) (t size : Nat) : Prop :=
  ∀ p < size, p < c.numGroups * Scan.stride c → Grid.get? bitmap (Scan.nth c t p) = some none

namespace Fs

variable {s : Fs}

/-- `allocate_blocks` returns and marks `size` blocks that were free, all for the inode that
asks. -/
theorem allocateBlocks_ok (hshape : Shape c.numGroups c.blocksPerGroup s.dataBitmap)
    (ht : t < c.numGroups) (hsize : 1 ≤ size) (hfits : size ≤ s.totalDataFree)
    (hcount : Grid.count (·.isNone) s.dataBitmap = s.totalDataFree)
    (hpolicy : 1 ≤ c.contigAllocationPolicy ∨ ScanClear c s.dataBitmap t size)
    (inodeNumber : Int) :
    ∃ fuel cells, s.allocateBlocks c fuel t size inodeNumber =
        .ok (some (cells.map fun p => ((p.1 : Int), p.2),
          { s with dataBitmap := Grid.putAll s.dataBitmap cells (some inodeNumber) })) ∧
      cells.Nodup ∧ (∀ p ∈ cells, Grid.get? s.dataBitmap p = some none) ∧
      cells.length = size := by
  -- A free block exists somewhere, so a group has a block at all.
  obtain ⟨g, hg, hfree⟩ := exists_freeIn hshape (by omega)
  obtain ⟨i, hi⟩ := freeIn_pos_iff.mp hfree
  have hblocks : 0 < c.blocksPerGroup := Nat.lt_of_le_of_lt (Nat.zero_le i) (hshape.lt_of_get? hi).2
  have hroom : size ≤ Grid.count (·.isNone) s.dataBitmap := by omega
  have hstart : Scan.Scanning c s.dataBitmap size inodeNumber
      ⟨s.dataBitmap, [], 0, 0, t, c.contigAllocationPolicy⟩ [] t :=
    ⟨⟨rfl, rfl, List.nodup_nil, by simp⟩, hsize, rfl, ht, hblocks, fun h => h⟩
  -- The scan ends: by a round in which the chunk test is off, or without the test at all.
  have hends : Scan.Ends c t s.dataBitmap size inodeNumber
      ⟨s.dataBitmap, [], 0, 0, t, c.contigAllocationPolicy⟩ := by
    by_cases hcontig : 1 ≤ c.contigAllocationPolicy
    · refine Scan.Scanning.ends_first hshape ht hroom (c.numGroups - 1) _ _ [] t hstart hcontig ?_ rfl
      have hsum : t + (c.numGroups - 1 + 1) = t + c.numGroups := by omega
      rw [hsum, Nat.add_mod_right, Nat.mod_eq_of_lt ht]
    · have hpos : 0 < Scan.stride c := by
        unfold Scan.stride
        split <;> omega
      have hclear := hpolicy.resolve_left hcontig
      have hgroup : (t + 0 / Scan.stride c) % c.numGroups = t := by
        rw [Nat.zero_div, Nat.add_zero, Nat.mod_eq_of_lt ht]
      refine Scan.Scanning.ends_unchecked hshape ht hroom hpos _ 0 _ [] (by rwa [hgroup])
        (show c.contigAllocationPolicy ≤ 0 by omega) (Nat.zero_mod _).symm (Nat.zero_mod _).symm rfl
        (Nat.mul_pos (by omega) hpos) rfl ?_
      exact fun q _ hlt hq => hclear q hlt hq
  obtain ⟨fuel, b, cells, hloop, hholds, hlen⟩ := hends
  refine ⟨fuel, cells, ?_, hholds.nodup, hholds.free, hlen⟩
  -- The assertion on the total holds by `hfits`.
  have hassert : assert (size ≤ s.totalDataFree) "size <= self.total_data_free" = .ok () :=
    congrArg (assert · _) (decide_eq_true hfits)
  unfold allocateBlocks
  simp only [bind, Except.bind, hassert, hloop]
  rw [hholds.allocated, hholds.bitmap]
  rfl

theorem allocateBlocks_unique {targetGroup : Int} {fuel : Nat} {r : List (Int × Nat) × Fs}
    (h : s.allocateBlocks c fuel targetGroup size inodeNumber = .ok (some r)) (fuel' : Nat) :
    s.allocateBlocks c fuel' targetGroup size inodeNumber = .ok none ∨
      s.allocateBlocks c fuel' targetGroup size inodeNumber = .ok (some r) := by
  unfold allocateBlocks at h ⊢
  obtain ⟨u, hassert, h⟩ := bind_eq_ok.mp h
  obtain ⟨done, hloop, h⟩ := bind_eq_ok.mp h
  cases done with
  | none => cases h
  | some b =>
    rcases Scan.loop_unique hloop fuel' with hmore | hsame
    · left
      simp only [bind, Except.bind, hassert, hmore]
      rfl
    · right
      simp only [bind, Except.bind, hassert, hsame]
      exact h

theorem allocateBlocks_mono {targetGroup : Int} {fuel fuel' : Nat} {r : List (Int × Nat) × Fs}
    (h : s.allocateBlocks c fuel targetGroup size inodeNumber = .ok (some r)) (hle : fuel ≤ fuel') :
    s.allocateBlocks c fuel' targetGroup size inodeNumber = .ok (some r) := by
  unfold allocateBlocks at h ⊢
  obtain ⟨u, hassert, h⟩ := bind_eq_ok.mp h
  obtain ⟨done, hloop, h⟩ := bind_eq_ok.mp h
  cases done with
  | none => cases h
  | some b =>
    have hmore := Scan.loop_mono hloop hle
    simp only [bind, Except.bind, hassert, hmore]
    exact h

/-- **Allocation is exact.** `allocate_blocks` ends, after the same number of rounds whatever the
bound on them, and never by an assertion. It returns `size` different places that were free and
marks these only. -/
theorem allocateBlocks_exact (hshape : Shape c.numGroups c.blocksPerGroup s.dataBitmap)
    (hcount : s.totalDataFree = Grid.count (·.isNone) s.dataBitmap) (targetGroup : Nat)
    (htarget : targetGroup < c.numGroups) (hsize : 1 ≤ size) (hfits : size ≤ s.totalDataFree)
    (hpolicy : 1 ≤ c.contigAllocationPolicy) (inodeNumber : Int) :
    ∃ (rounds : Nat) (places : List (Nat × Nat)) (t : Fs),
      (∀ fuel, rounds ≤ fuel → s.allocateBlocks c fuel targetGroup size inodeNumber =
        .ok (some (places.map fun p => ((p.1 : Int), p.2), t))) ∧
      (∀ fuel, s.allocateBlocks c fuel targetGroup size inodeNumber = .ok none ∨
        s.allocateBlocks c fuel targetGroup size inodeNumber =
          .ok (some (places.map fun p => ((p.1 : Int), p.2), t))) ∧
      places.length = size ∧ places.Nodup ∧
      (∀ p ∈ places, Grid.get? s.dataBitmap p = some none) ∧
      (∀ p, Grid.get? t.dataBitmap p =
        if p ∈ places then some (some inodeNumber) else Grid.get? s.dataBitmap p) ∧
      t = { s with dataBitmap := t.dataBitmap } := by
  obtain ⟨rounds, places, hok, hnodup, hfree, hlen⟩ :=
    allocateBlocks_ok hshape htarget hsize hfits hcount.symm (Or.inl hpolicy) inodeNumber
  -- the bitmap is the old one with the places written over
  have hget : ∀ p, Grid.get? (Grid.putAll s.dataBitmap places (some inodeNumber)) p =
      if p ∈ places then some (some inodeNumber) else Grid.get? s.dataBitmap p :=
    fun p => Grid.get?_putAll (fun q hq => ⟨none, hfree q hq⟩) p
  exact ⟨rounds, places, _, fun fuel hle => allocateBlocks_mono hok hle,
    allocateBlocks_unique hok, hlen, hnodup, hfree, hget, rfl⟩

/-- Two groups of three blocks, no two free ones in a row. -/
def fragmented : Fs where
  dataBitmap := [[some 0, none, some 0], [none, some 3, none]]
  inodeBitmap := [[some 0], [some 1]]
  symbolMap := fun _ => none
  usedSymbols := []
  availableSymbols := []
  totalDataFree := 3
  totalInodesFree := 0
  dirData := fun _ => none
  inodeType := fun _ => none
  inodeBlocks := fun _ => none
  nameToInodeMap := ∅

/-- Two blocks in a row are asked for until the scan is back at group 1. -/
theorem allocateBlocks_exact_fragmented : ∃ (rounds : Nat) (places : List (Nat × Nat)) (t : Fs),
    (∀ fuel, rounds ≤ fuel → fragmented.allocateBlocks ⟨2, 3, 1, 1, false, 2, false, 1⟩ fuel 1 2 7 =
      .ok (some (places.map fun p => ((p.1 : Int), p.2), t))) ∧
    (∀ fuel, fragmented.allocateBlocks ⟨2, 3, 1, 1, false, 2, false, 1⟩ fuel 1 2 7 = .ok none ∨
      fragmented.allocateBlocks ⟨2, 3, 1, 1, false, 2, false, 1⟩ fuel 1 2 7 =
        .ok (some (places.map fun p => ((p.1 : Int), p.2), t))) ∧
    places.length = 2 ∧ places.Nodup ∧
    (∀ p ∈ places, Grid.get? fragmented.dataBitmap p = some none) ∧
    (∀ p, Grid.get? t.dataBitmap p =
      if p ∈ places then some (some 7) else Grid.get? fragmented.dataBitmap p) ∧
    t = { fragmented with dataBitmap := t.dataBitmap } :=
  allocateBlocks_exact ⟨rfl, by decide⟩ rfl 1 (by decide) (by decide) (by decide) (by decide) 7

end Fs

end OsLab.Ffs
