import Mathlib.Algebra.GroupWithZero.Nat
import Mathlib.Algebra.Order.BigOperators.Group.List
import Mathlib.Algebra.Order.Group.Nat
import OsLab.Ffs.Fs
import OsLab.Lib.Circle
import OsLab.Lib.Grid

/-!
# Choosing a group

When the bitmap has a free cell somewhere, the loops over the groups find a group with one. The
exception is a cluster of several groups: it is chosen for its sum, and what is returned is its
first group.

* **`freeIn`**, **`windowFree`** -- the free cells of a group, and of a window of groups around the
  end.
* **`mostFree_ok`**, **`mostFree_pos`** -- the loop that keeps the first best.
* **`nearLoop_eq`**, **`currentGroups_eq`**, **`findFreeInodesNear_nearest`** -- the two cursors of
  `find_free_inodes_near` walk around the target, nearest groups first.
* **`pickGroup_ok`**, **`picksFree_iff`** -- where a group with a free inode is picked, exactly.
-/

namespace OsLab.Ffs

open Grid (Shape)

variable {bitmap : Bitmap} {rows cols g i : Nat} {mark v : Option Int}

/-! ## Cells -/

/-- A cell is read without an error exactly if it is there. -/
theorem cell_eq_ok : cell bitmap g i = .ok mark ↔ Grid.get? bitmap (g, i) = some mark := by
  unfold cell
  rw [bind_eq_ok, Grid.get?_eq_some]
  simp only [item_natCast_eq_ok]

/-- A cell that is there is written. -/
theorem setCell_ok (h : Grid.get? bitmap (g, i) = some mark) (v : Option Int) :
    setCell bitmap g i v = .ok (Grid.put bitmap (g, i) v) := by
  obtain ⟨row, hrow, hcell⟩ := Grid.get?_eq_some.mp h
  obtain ⟨hg, hget⟩ := List.getElem?_eq_some_iff.mp hrow
  obtain ⟨hi, _⟩ := List.getElem?_eq_some_iff.mp hcell
  have hmodify : bitmap.modify g (·.set i v) = bitmap.set g (row.set i v) := by
    rw [List.modify_eq_set_getElem?, hrow]
    rfl
  unfold setCell Grid.put
  rw [item_natCast_eq_ok.mpr hrow]
  show (setItem row i v >>= fun row => setItem bitmap g row) = _
  rw [setItem_natCast hi v]
  exact (setItem_natCast hg _).trans (congrArg Except.ok hmodify.symm)

/-- The number of free cells of a group. -/
def freeIn (bitmap : Bitmap) (g : Nat) : Nat := (bitmap[g]?.map getFreeCount).getD 0

/-- A group has room exactly if one of its cells is free. -/
theorem freeIn_pos_iff : 0 < freeIn bitmap g ↔ ∃ i, Grid.get? bitmap (g, i) = some none := by
  show 0 < (bitmap[g]?.map getFreeCount).getD 0 ↔ ∃ i : Nat, bitmap[g]?.bind (·[i]?) = some none
  cases bitmap[g]? with
  | none => simp
  | some row =>
    show 0 < row.countP (·.isNone) ↔ ∃ i : Nat, row[i]? = some none
    rw [List.countP_pos_iff]
    constructor
    · rintro ⟨mark, hmem, hnone⟩
      obtain ⟨i, hi⟩ := List.mem_iff_getElem?.mp hmem
      exact ⟨i, by rw [hi, Option.isNone_iff_eq_none.mp hnone]⟩
    · rintro ⟨i, hi⟩
      exact ⟨none, List.mem_of_getElem? hi, rfl⟩

/-- If there is a free cell at all, then in some group. -/
theorem exists_freeIn (hshape : Shape rows cols bitmap)
    (h : 0 < Grid.count (·.isNone) bitmap) : ∃ g < rows, 0 < freeIn bitmap g := by
  obtain ⟨row, hmem, hpos⟩ := Grid.count_pos_iff.mp h
  obtain ⟨g, hg⟩ := List.mem_iff_getElem?.mp hmem
  obtain ⟨hlt, _⟩ := List.getElem?_eq_some_iff.mp hg
  refine ⟨g, hshape.rows ▸ hlt, ?_⟩
  unfold freeIn
  rw [hg]
  exact hpos

theorem item_freeIn (hg : g < bitmap.length) :
    (do let row ← item bitmap g; return getFreeCount row) = .ok (freeIn bitmap g) := by
  have hrow := List.getElem?_eq_getElem hg
  unfold freeIn
  rw [item_natCast_eq_ok.mpr hrow, hrow]
  rfl

/-- A remainder is a group. -/
theorem exists_emod (x : Int) (hrows : 0 < rows) : ∃ g < rows, x % rows = (g : Int) := by
  have hnonneg : 0 ≤ x % rows := Int.emod_nonneg x (by omega)
  have hlt : x % rows < rows := Int.emod_lt_of_pos x (by omega)
  exact ⟨(x % rows).toNat, by omega, by omega⟩

theorem emod_group (x : Int) (hrows : 0 < rows) :
    x % rows = ((x % rows).toNat : Int) ∧ (x % rows).toNat < rows := by
  obtain ⟨g, hg, hx⟩ := exists_emod x hrows
  constructor
  · omega
  · omega

/-! ## The fullest group -/

section MostFree

variable {free : Int → Except Abort Nat} {f : Int → Nat} {groups : List Int}

@[simp] theorem mostFree_nil (best : Nat × Int) : mostFree free [] best = .ok best := rfl

/-- The loop ends on the first of the groups with the most room, or where it began if none has
more. -/
theorem mostFree_ok (h : ∀ g ∈ groups, free g = .ok (f g)) (best : Nat × Int) :
    ∃ found, mostFree free groups best = .ok found ∧
      (found = best ∨ ∃ j : Nat, groups[j]? = some found.2 ∧ f found.2 = found.1 ∧
        best.1 < found.1 ∧ ∀ i < j, ∀ g, groups[i]? = some g → f g < found.1) ∧
      ∀ g ∈ groups, f g ≤ found.1 := by
  unfold mostFree
  induction groups generalizing best with
  | nil => exact ⟨best, rfl, Or.inl rfl, by simp⟩
  | cons g groups ih =>
    rw [List.forall_mem_cons] at h
    rw [List.foldlM_cons, h.1]
    -- what the round leaves in `best`
    obtain ⟨found, hfound, hcases, hall⟩ := ih h.2 (if f g > best.1 then (f g, g) else best)
    refine ⟨found, hfound, ?_, ?_⟩
    · rcases hcases with hkept | ⟨j, hj, hf, hlt, hbefore⟩
      · split at hkept
        · rename_i hgt
          subst hkept
          exact Or.inr ⟨0, rfl, rfl, hgt, by simp⟩
        · exact Or.inl hkept
      · -- found among the later groups, with more room than `g`
        have hmore : best.1 < found.1 ∧ f g < found.1 := by
          split at hlt
          · exact ⟨by omega, hlt⟩
          · exact ⟨hlt, by omega⟩
        refine Or.inr ⟨j + 1, hj, hf, hmore.1, fun i hi x hx => ?_⟩
        cases i with
        | zero =>
          obtain rfl : g = x := Option.some.inj hx
          exact hmore.2
        | succ i => exact hbefore i (by omega) x hx
    · rw [List.forall_mem_cons]
      refine ⟨?_, hall⟩
      rcases hcases with hkept | ⟨_, _, _, hlt, _⟩
      · split at hkept
        · rw [hkept]
        · rw [hkept]
          omega
      · split at hlt
        · exact Nat.le_of_lt hlt
        · omega

/-- When some group has room the loop ends on the first with the most room. -/
theorem mostFree_pos (h : ∀ g ∈ groups, free g = .ok (f g)) (hpos : ∃ g ∈ groups, 0 < f g) :
    ∃ found, mostFree free groups (0, -1) = .ok found ∧ 0 < f found.2 ∧
      ∃ j : Nat, groups[j]? = some found.2 ∧
        (∀ i < j, ∀ g, groups[i]? = some g → f g < f found.2) ∧ ∀ g ∈ groups, f g ≤ f found.2 := by
  obtain ⟨found, hfound, hcases, hall⟩ := mostFree_ok h (0, -1)
  obtain ⟨g, hg, hfree⟩ := hpos
  have hle := hall g hg
  rcases hcases with rfl | ⟨j, hj, hf, hlt, hbefore⟩
  · dsimp only at hle
    omega
  · rw [← hf] at hlt hbefore hall
    exact ⟨found, hfound, hlt, j, hj, hbefore, hall⟩

end MostFree

/-- The elements of a range with a step. -/
theorem rangeStep_getElem? {n k : Nat} {xs : List Int} (hk : 0 < k)
    (h : rangeStep 0 n k = .ok xs) {j : Nat} {x : Int} :
    xs[j]? = some x ↔ k * j < n ∧ x = (k * j : Nat) := by
  have hne : (k : Int) ≠ 0 := by omega
  have hpos : (0 : Int) < k := by omega
  unfold rangeStep at h
  simp only [if_neg hne, if_pos hpos, Int.sub_zero] at h
  obtain rfl := Except.ok.inj h
  have hlen : (((n : Int) + k - 1) / k).toNat = (n + k - 1) / k := by
    have hcast : (n : Int) + k - 1 = ((n + k - 1 : Nat) : Int) := by omega
    rw [hcast, ← Int.natCast_ediv, Int.toNat_natCast]
  have hlt : j < (n + k - 1) / k ↔ k * j < n := by
    rw [Nat.lt_iff_add_one_le, Nat.le_div_iff_mul_le hk, Nat.add_mul, Nat.mul_comm]
    omega
  rw [List.getElem?_map, Option.map_eq_some_iff, hlen]
  simp only [List.getElem?_eq_some_iff, List.length_range, List.getElem_range, hlt]
  constructor
  · rintro ⟨i, ⟨hj, rfl⟩, rfl⟩
    exact ⟨hj, by push_cast; omega⟩
  · rintro ⟨hj, rfl⟩
    exact ⟨j, ⟨hj, rfl⟩, by push_cast; omega⟩

theorem rangeStep_self {k : Nat} (hk : 0 < k) : rangeStep 0 0 k = .ok [] := by
  have hne : (k : Int) ≠ 0 := by omega
  have hpos : (0 : Int) < k := by omega
  have hzero : ((0 : Int) - 0 + k - 1) / k = 0 := Int.ediv_eq_zero_of_lt (by omega) (by omega)
  unfold rangeStep
  simp only [if_neg hne, if_pos hpos, hzero]
  rfl

namespace Fs

section Picking

variable {c : Config} {s : Fs} {parent : Str} {type : FileType} {t : Nat}

theorem getFreeInodeCount_ok (hshape : Shape c.numGroups c.inodesPerGroup s.inodeBitmap)
    (hg : g < c.numGroups) : s.getFreeInodeCount g = .ok (freeIn s.inodeBitmap g) :=
  item_freeIn (hshape.rows.symm ▸ hg)

theorem getFreeInodeCount_emod (hshape : Shape c.numGroups c.inodesPerGroup s.inodeBitmap)
    (hpos : 0 < c.numGroups) (x : Int) :
    s.getFreeInodeCount (x % c.numGroups) =
      .ok (freeIn s.inodeBitmap (x % c.numGroups).toNat) := by
  obtain ⟨hcast, hlt⟩ := emod_group x hpos
  rw [hcast]
  exact getFreeInodeCount_ok hshape hlt

/-- The number of free inodes in the `howMany` groups from `group` on, around the end. -/
def windowFree (c : Config) (s : Fs) (howMany : Nat) (group : Int) : Nat :=
  ((List.range howMany).map fun k : Nat =>
    freeIn s.inodeBitmap ((group + k) % c.numGroups).toNat).sum

/-- The sum over a window, as `find_free_inodes_in_range` computes it around the end. -/
theorem findFreeInodesInRange_ok (hshape : Shape c.numGroups c.inodesPerGroup s.inodeBitmap)
    (hpos : 0 < c.numGroups) (howMany : Nat) (group : Int) :
    s.findFreeInodesInRange c group howMany = .ok (windowFree c s howMany group) := by
  unfold findFreeInodesInRange windowFree
  rw [Int.toNat_natCast, List.sum_eq_foldl_nat, List.foldl_map]
  apply foldlM_eq_ok
  intro k _ sum
  rw [getFreeInodeCount_emod hshape hpos]
  rfl

/-- A window with a group that has room has room. -/
theorem windowFree_pos {howMany : Nat} {start h : Nat} (hle : start ≤ h) (hlt : h < start + howMany)
    (hn : h < c.numGroups) (hfree : 0 < freeIn s.inodeBitmap h) :
    0 < windowFree c s howMany start := by
  have hmod : (((start : Int) + ((h - start : Nat) : Int)) % c.numGroups).toNat = h := by
    have hsum : (start : Int) + ((h - start : Nat) : Int) = (h : Int) := by omega
    rw [hsum, Int.emod_eq_of_lt (by omega) (by omega), Int.toNat_natCast]
  have hmem : freeIn s.inodeBitmap h ∈ (List.range howMany).map fun k : Nat =>
      freeIn s.inodeBitmap (((start : Int) + k) % c.numGroups).toNat := by
    refine List.mem_map.mpr ⟨h - start, List.mem_range.mpr (by omega), ?_⟩
    rw [hmod]
  exact Nat.lt_of_lt_of_le hfree (List.single_le_sum (fun _ _ => Nat.zero_le _) _ hmem)

/-- The window that starts at group `k * j` is the first of those with the most free inodes. -/
structure BestWindow (c : Config) (s : Fs) (k j : Nat) : Prop where
  start_lt : k * j < c.numGroups
  before : ∀ i < j, windowFree c s k (k * i : Nat) < windowFree c s k (k * j : Nat)
  most : ∀ i, k * i < c.numGroups → windowFree c s k (k * i : Nat) ≤ windowFree c s k (k * j : Nat)

theorem BestWindow.unique {k i j : Nat} (hi : BestWindow c s k i) (hj : BestWindow c s k j) :
    i = j := by
  rcases Nat.lt_trichotomy i j with hlt | heq | hgt
  · have := hj.before i hlt
    have := hi.most j hj.start_lt
    omega
  · exact heq
  · have := hi.before j hgt
    have := hj.most i hi.start_lt
    omega

/-- With a free inode somewhere, the window found is the best one, the first of its kind, and has a
free inode in one of its groups. -/
theorem findMostFreeInodesMultiple_ok {k : Nat}
    (hshape : Shape c.numGroups c.inodesPerGroup s.inodeBitmap) (hk : 0 < k)
    (hfree : 0 < Grid.count (·.isNone) s.inodeBitmap) :
    ∃ j, BestWindow c s k j ∧ s.findMostFreeInodesMultiple c 0 k = .ok ((k * j : Nat) : Int) ∧
      0 < windowFree c s k (k * j : Nat) := by
  obtain ⟨h, hlt, hpos⟩ := exists_freeIn hshape hfree
  have hn : 0 < c.numGroups := by omega
  obtain ⟨high, hhigh⟩ : ∃ high, rangeStep 0 c.numGroups k = .ok high := by
    unfold rangeStep
    have hne : (k : Int) ≠ 0 := by omega
    rw [if_neg hne]
    exact ⟨_, rfl⟩
  have hstarts : ∀ i, k * i < c.numGroups → high[i]? = some ((k * i : Nat) : Int) :=
    fun i hi => (rangeStep_getElem? hk hhigh).mpr ⟨hi, rfl⟩
  -- the window that starts at `k * (h / k)` covers `h`
  have hdiv := Nat.div_add_mod h k
  have hmod := Nat.mod_lt h hk
  have hstart : ((k * (h / k) : Nat) : Int) ∈ high :=
    List.mem_of_getElem? (hstarts (h / k) (by omega))
  obtain ⟨⟨best, target⟩, hfound, hroom, j, htarget, hbefore, hmost⟩ := mostFree_pos
    (fun g _ => findFreeInodesInRange_ok hshape hn k g) ⟨_, hstart, windowFree_pos (by omega)
      (by omega) hlt hpos⟩
  obtain ⟨hj, heq⟩ := (rangeStep_getElem? hk hhigh).mp htarget
  dsimp only at heq hroom hbefore hmost
  subst heq
  refine ⟨j, ⟨hj, ?_, ?_⟩, ?_, hroom⟩
  · intro i hi
    have hlow : k * i ≤ k * j := Nat.mul_le_mul_left k (Nat.le_of_lt hi)
    exact hbefore i hi _ (hstarts i (by omega))
  · intro i hi
    exact hmost _ (List.mem_of_getElem? (hstarts i hi))
  · have hne : ((k * j : Nat) : Int) ≠ -1 := by omega
    have hassert : assert (((k * j : Nat) : Int) ≠ -1) "target_group != -1" = .ok () :=
      congrArg (assert · _) (decide_eq_true hne)
    unfold findMostFreeInodesMultiple
    rw [hhigh, rangeStep_self hk]
    simp only [bind, Except.bind, hfound, mostFree_nil, hassert]
    rfl

theorem windowFree_one (hg : g < c.numGroups) : windowFree c s 1 g = freeIn s.inodeBitmap g := by
  have hmod : ((g : Int) % c.numGroups).toNat = g := by
    rw [Int.emod_eq_of_lt (by omega) (by omega), Int.toNat_natCast]
  simp [windowFree, hmod]

/-! ## A group near the parent -/

/-- The group that round `i` of `find_free_inodes_near` looks at. -/
def visited (c : Config) (t : Int) (i : Nat) : Int :=
  if i % 2 = 0 then (t + 1 + (i / 2 : Nat)) % c.numGroups else (t - 1 - (i / 2 : Nat)) % c.numGroups

/-- The rounds go around the target as `Circle.near` does: one ahead, one behind, two ahead and so
on. -/
theorem visited_eq (c : Config) (t : Int) (i : Nat) :
    visited c t i = Circle.near c.numGroups t i := by
  unfold visited Circle.near Circle.offset
  split
  · rw [show t + 1 + ((i / 2 : Nat) : Int) = t + ((i / 2 : Nat) + 1) by omega]
  · rw [show t - 1 - ((i / 2 : Nat) : Int) = t + -((i / 2 : Nat) + 1) by omega]

/-- The values of `current_group` in the rounds `is`, if none of them returns. -/
def currentGroups (c : Config) : List Nat → Int → Int → List Int
  | [], _, _ => []
  | i :: is, grower, shrinker =>
    if i % 2 = 0 then grower :: currentGroups c is ((grower + 1) % c.numGroups) shrinker
    else shrinker :: currentGroups c is grower ((shrinker - 1) % c.numGroups)

/-- The test that ends a round with a return. -/
def hasFreeInode (s : Fs) (group : Int) : Except Abort Bool := do
  let n ← s.getFreeInodeCount group
  return decide (n > 0)

/-- The loop is a search for the first group that passes the test, among the groups that its cursors
come to. -/
theorem nearLoop_eq (is : List Nat) (grower shrinker : Int) :
    s.nearLoop c is grower shrinker = (do
      let found ← (currentGroups c is grower shrinker).findM? s.hasFreeInode
      return found.getD 1) := by
  induction is generalizing grower shrinker with
  | nil => rfl
  | cons i is ih =>
    -- a round that looks at `group` and leaves the rest to the later ones
    have hround : ∀ (group : Int) (rest : Except Abort Int) (groups : List Int),
        rest = (do
          let found ← groups.findM? s.hasFreeInode
          return found.getD 1) →
        (do
          let n ← s.getFreeInodeCount group
          if n > 0 then return group
          rest) = (do
          let found ← (group :: groups).findM? s.hasFreeInode
          return found.getD 1) := by
      intro group rest groups hrest
      unfold List.findM? hasFreeInode
      cases s.getFreeInodeCount group with
      | error e => rfl
      | ok n =>
        by_cases hroom : n > 0
        · simp [bind, Except.bind, pure, Except.pure, hroom]
        · simp [bind, Except.bind, pure, Except.pure, hroom, hrest]
          rfl
    unfold nearLoop currentGroups
    split
    · exact hround grower _ _ (ih _ _)
    · exact hround shrinker _ _ (ih _ _)

/-- Both cursors, before round `i`: each has moved in every second round. -/
theorem currentGroups_eq (t : Int) (i k : Nat) :
    currentGroups c (List.range' i k) ((t + 1 + ((i + 1) / 2 : Nat)) % c.numGroups)
      ((t - 1 - (i / 2 : Nat)) % c.numGroups) = (List.range' i k).map (visited c t) := by
  induction k generalizing i with
  | zero => rfl
  | succ k ih =>
    have hrec := ih (i + 1)
    rw [List.range'_succ, List.map_cons]
    unfold currentGroups visited
    have hnext : (i + 1 + 1) / 2 = i / 2 + 1 := by omega
    rw [hnext] at hrec
    split
    · have hhalf : (i + 1) / 2 = i / 2 := by omega
      rw [hhalf] at hrec ⊢
      rw [Int.emod_add_emod, Int.add_assoc (t + 1)]
      exact congrArg _ hrec
    · have hhalf : (i + 1) / 2 = i / 2 + 1 := by omega
      rw [hhalf] at hrec ⊢
      rw [Int.emod_sub_emod, Int.sub_sub (t - 1)]
      exact congrArg _ hrec

/-- The groups that `find_free_inodes_near` looks at, in this order, until one has room. -/
def nearGroups (c : Config) (targetGroup : Int) : List Int :=
  currentGroups c (List.range (c.numGroups - 1)) ((targetGroup + 1) % c.numGroups)
    ((targetGroup - 1) % c.numGroups)

theorem nearGroups_eq (c : Config) (t : Int) : nearGroups c t = Circle.around c.numGroups t := by
  have hcursors := currentGroups_eq (c := c) t 0 (c.numGroups - 1)
  simp only [Nat.zero_add, Int.natCast_zero, Int.sub_zero, Int.add_zero,
    show (1 : Nat) / 2 = 0 from rfl] at hcursors
  unfold nearGroups Circle.around
  rw [List.range_eq_range', hcursors]
  exact List.map_congr_left fun i _ => visited_eq c t i

theorem hasFreeInode_ok (hrows : s.inodeBitmap.length = c.numGroups) {x : Int}
    (hx : 0 ≤ x ∧ x < c.numGroups) :
    s.hasFreeInode x = .ok (decide (0 < freeIn s.inodeBitmap x.toNat)) := by
  obtain ⟨g, rfl⟩ := Int.eq_ofNat_of_zero_le hx.1
  have hcount : s.getFreeInodeCount g = .ok (freeIn s.inodeBitmap g) := item_freeIn (by omega)
  unfold hasFreeInode
  rw [hcount]
  rfl

theorem hasFreeInode_true (hrows : s.inodeBitmap.length = c.numGroups) (hg : g < c.numGroups) :
    s.hasFreeInode g = .ok true ↔ 0 < freeIn s.inodeBitmap g := by
  rw [hasFreeInode_ok hrows (x := g) ⟨by omega, by omega⟩, Except.ok.injEq, decide_eq_true_eq,
    Int.toNat_natCast]

theorem hasFreeInode_false (hrows : s.inodeBitmap.length = c.numGroups) (hg : g < c.numGroups) :
    s.hasFreeInode g = .ok false ↔ freeIn s.inodeBitmap g = 0 := by
  rw [hasFreeInode_ok hrows (x := g) ⟨by omega, by omega⟩, Except.ok.injEq, decide_eq_false_iff_not,
    Int.toNat_natCast, Nat.pos_iff_ne_zero, not_not]

/-- `find_free_inodes_near`: the groups it looks at, and the one it takes. -/
structure NearestFirst (c : Config) (s : Fs) (targetGroup : Nat) : Prop where
  each : (nearGroups c targetGroup).Nodup ∧
    ∀ g, g ∈ nearGroups c targetGroup ↔ (0 ≤ g ∧ g < c.numGroups) ∧ g ≠ targetGroup
  order : (nearGroups c targetGroup).Pairwise fun g h =>
    Circle.dist c.numGroups targetGroup g ≤ Circle.dist c.numGroups targetGroup h
  search : s.findFreeInodesNear c targetGroup = (do
    let found ← (nearGroups c targetGroup).findM? s.hasFreeInode
    return found.getD 1)
  nearest : (∃ g < c.numGroups, s.hasFreeInode g = .ok true) →
    ∃ g < c.numGroups, s.findFreeInodesNear c targetGroup = .ok (g : Int) ∧
      s.hasFreeInode g = .ok true ∧ ∀ h < c.numGroups, s.hasFreeInode h = .ok true →
        Circle.dist c.numGroups targetGroup g ≤ Circle.dist c.numGroups targetGroup h
  fallback : (nearGroups c targetGroup).findM? s.hasFreeInode = .ok none ↔
    ∀ g < c.numGroups, s.hasFreeInode g = .ok false

/-- What the search among the groups around the target comes to. -/
theorem findM?_nearGroups (hrows : s.inodeBitmap.length = c.numGroups) (ht : t < c.numGroups) :
    (nearGroups c t).findM? s.hasFreeInode = .ok ((Circle.around c.numGroups t).find? fun g =>
      decide (0 < freeIn s.inodeBitmap g.toNat)) := by
  rw [nearGroups_eq]
  refine findM?_eq_ok fun g hg => hasFreeInode_ok hrows ?_
  exact ((Circle.mem_around_iff (by omega) (by omega)).mp hg).1

/-- The search comes to nothing exactly if no group has room, for it passes every group but the
target. -/
theorem find?_around_eq_none (ht : t < c.numGroups) (hfull : freeIn s.inodeBitmap t = 0) :
    ((Circle.around c.numGroups t).find? fun g => decide (0 < freeIn s.inodeBitmap g.toNat)) =
      none ↔ ∀ g < c.numGroups, freeIn s.inodeBitmap g = 0 := by
  rw [List.find?_eq_none]
  constructor
  · intro hnone g hg
    by_cases heq : g = t
    · rw [heq]
      exact hfull
    · have hmem := (Circle.mem_around_iff (x := g) (t := t) (n := c.numGroups) (by omega)
        (by omega)).mpr ⟨by omega, by omega⟩
      have hnot := hnone g hmem
      rw [decide_eq_true_eq, Int.toNat_natCast] at hnot
      omega
  · intro hall x hx
    have hrange := ((Circle.mem_around_iff (by omega) (by omega)).mp hx).1
    rw [decide_eq_true_eq, hall x.toNat (by omega)]
    exact Nat.lt_irrefl 0

/-- With a free inode somewhere, the group taken is one of the nearest with one. -/
theorem findFreeInodesNear_ok (hrows : s.inodeBitmap.length = c.numGroups) (ht : t < c.numGroups)
    (hfull : freeIn s.inodeBitmap t = 0)
    (hfree : ∃ g < c.numGroups, 0 < freeIn s.inodeBitmap g) :
    ∃ g < c.numGroups, s.findFreeInodesNear c t = .ok (g : Int) ∧ 0 < freeIn s.inodeBitmap g ∧
      ∀ h < c.numGroups, 0 < freeIn s.inodeBitmap h →
        Circle.dist c.numGroups t g ≤ Circle.dist c.numGroups t h := by
  have hsearch : s.findFreeInodesNear c t = (do
      let found ← (nearGroups c t).findM? s.hasFreeInode
      return found.getD 1) := nearLoop_eq _ _ _
  rw [hsearch, findM?_nearGroups hrows ht]
  have hmem := fun x => Circle.mem_around_iff (x := x) (t := t) (n := c.numGroups) (by omega)
    (by omega)
  obtain ⟨h, hlt, hroom⟩ := hfree
  cases hfound : (Circle.around c.numGroups t).find? fun g =>
      decide (0 < freeIn s.inodeBitmap g.toNat) with
  | none =>
    have hzero := (find?_around_eq_none ht hfull).mp hfound h hlt
    omega
  | some x =>
    have hx := ((hmem x).mp (List.mem_of_find?_eq_some hfound)).1
    have hpasses := List.find?_some hfound
    obtain ⟨g, rfl⟩ := Int.eq_ofNat_of_zero_le hx.1
    refine ⟨g, by omega, rfl, of_decide_eq_true hpasses, fun h' hlt' hroom' => ?_⟩
    have hne : (h' : Int) ≠ t := by
      intro heq
      rw [Int.natCast_inj.mp heq] at hroom'
      omega
    exact Circle.dist_le_of_find? hfound ((hmem h').mpr ⟨by omega, hne⟩) (decide_eq_true hroom')

/-- **The nearest group with room is taken.** From any target group without a free inode, in any
state of the bitmap, and group 1 if there is none. -/
theorem findFreeInodesNear_nearest (hrows : s.inodeBitmap.length = c.numGroups)
    (ht : t < c.numGroups) (hfull : s.hasFreeInode t = .ok false) : NearestFirst c s t := by
  have hfull' := (hasFreeInode_false hrows ht).mp hfull
  refine ⟨?_, ?_, nearLoop_eq _ _ _, ?_, ?_⟩
  · rw [nearGroups_eq]
    exact ⟨Circle.around_nodup _ _, fun g => Circle.mem_around_iff (by omega) (by omega)⟩
  · rw [nearGroups_eq]
    exact Circle.around_sorted _ _
  · intro ⟨h, hlt, hroom⟩
    obtain ⟨g, hg, hok, hgroom, hnearest⟩ := findFreeInodesNear_ok hrows ht hfull'
      ⟨h, hlt, (hasFreeInode_true hrows hlt).mp hroom⟩
    refine ⟨g, hg, hok, (hasFreeInode_true hrows hg).mpr hgroom, fun h' hlt' hroom' => ?_⟩
    exact hnearest h' hlt' ((hasFreeInode_true hrows hlt').mp hroom')
  · rw [findM?_nearGroups hrows ht, Except.ok.injEq, find?_around_eq_none ht hfull']
    refine forall_congr' fun g => forall_congr' fun hg => ?_
    rw [hasFreeInode_false hrows hg]

/-- In a fresh file system with one inode to a group, the root's group is full. -/
theorem findFreeInodesNear_nearest_fresh : ∃ s, Fs.new ⟨5, 1, 1, 0, false, 1, false, 1⟩ = .ok s ∧
    NearestFirst ⟨5, 1, 1, 0, false, 1, false, 1⟩ s 0 := by
  have hnew : ∃ s, Fs.new ⟨5, 1, 1, 0, false, 1, false, 1⟩ = .ok s ∧
      s.inodeBitmap.length = 5 ∧ s.hasFreeInode (0 : Nat) = .ok false :=
    ⟨_, rfl, rfl, rfl⟩
  obtain ⟨s, hs, hrows, hfull⟩ := hnew
  exact ⟨s, hs, findFreeInodesNear_nearest hrows (by decide) hfull⟩

/-- The fullest window of `allocate_faraway` groups starts at a group with a free inode. -/
def WindowOk (c : Config) (s : Fs) : Prop :=
  1 ≤ c.allocateFaraway ∧ ∀ g, s.findMostFreeInodesMultiple c 0 c.allocateFaraway = .ok g →
    ∃ n, s.getFreeInodeCount g = .ok n ∧ 0 < n

/-- With one group to a window this is always so. -/
theorem windowOk_one (hshape : Shape c.numGroups c.inodesPerGroup s.inodeBitmap)
    (hfree : 0 < Grid.count (·.isNone) s.inodeBitmap) (hone : c.allocateFaraway = 1) :
    WindowOk c s := by
  obtain ⟨g, hbest, hok, hroom⟩ := findMostFreeInodesMultiple_ok hshape Nat.one_pos hfree
  have hg := hbest.start_lt
  rw [Nat.one_mul] at hg hok hroom
  rw [windowFree_one hg] at hroom
  refine ⟨by omega, fun target htarget => ?_⟩
  rw [hone] at htarget
  obtain rfl : (g : Int) = target := Except.ok.inj (hok.symm.trans htarget)
  exact ⟨_, getFreeInodeCount_ok hshape hg, hroom⟩

/-- A regular file goes near its parent when files are not spread. -/
theorem pickGroup_near (hshape : Shape c.numGroups c.inodesPerGroup s.inodeBitmap)
    (hfree : 0 < Grid.count (·.isNone) s.inodeBitmap) (ht : t < c.numGroups)
    (hparent : s.nameToInode parent / c.inodesPerGroup = t)
    (hnear : type = .regular ∧ c.spreadInodes = false) :
    ∃ g < c.numGroups, s.pickGroup c parent type = .ok (g : Int) ∧
      0 < freeIn s.inodeBitmap g := by
  unfold pickGroup
  rw [if_pos hnear]
  simp only [hparent, getFreeInodeCount_ok hshape ht, bind, Except.bind]
  by_cases hfull : freeIn s.inodeBitmap t = 0
  · rw [if_pos hfull]
    obtain ⟨g, hg, hok, hroom, _⟩ :=
      findFreeInodesNear_ok hshape.rows ht hfull (exists_freeIn hshape hfree)
    exact ⟨g, hg, hok, hroom⟩
  · rw [if_neg hfull]
    exact ⟨t, ht, rfl, by omega⟩

/-- Everything else goes to the best window, whose first group is returned. -/
theorem pickGroup_far (htype : type ≠ .empty)
    (hfar : ¬(type = .regular ∧ c.spreadInodes = false)) :
    s.pickGroup c parent type = s.findMostFreeInodesMultiple c 0 c.allocateFaraway := by
  have hspread : type = .directory ∨ c.spreadInodes = true := by
    cases type with
    | directory => exact Or.inl rfl
    | empty => exact absurd rfl htype
    | regular => exact Or.inr (by simpa using hfar)
  unfold pickGroup
  rw [if_neg hfar, if_pos hspread]

/-- `pick_group` finds a group with a free inode, where the best window starts at one. -/
theorem pickGroup_ok (hshape : Shape c.numGroups c.inodesPerGroup s.inodeBitmap)
    (hfree : 0 < Grid.count (·.isNone) s.inodeBitmap) (ht : t < c.numGroups)
    (hparent : s.nameToInode parent / c.inodesPerGroup = t) (htype : type ≠ .empty)
    (hwindow : type = .regular ∧ c.spreadInodes = false ∨ WindowOk c s) :
    ∃ g < c.numGroups, s.pickGroup c parent type = .ok (g : Int) ∧
      0 < freeIn s.inodeBitmap g := by
  by_cases hnear : type = .regular ∧ c.spreadInodes = false
  · exact pickGroup_near hshape hfree ht hparent hnear
  · obtain ⟨hpos, hstart⟩ := hwindow.resolve_left hnear
    obtain ⟨k, hk⟩ : ∃ k : Nat, c.allocateFaraway = k := ⟨c.allocateFaraway.toNat, by omega⟩
    obtain ⟨j, hbest, hok, _⟩ := findMostFreeInodesMultiple_ok (k := k) hshape (by omega) hfree
    rw [pickGroup_far htype hnear]
    rw [hk] at hstart ⊢
    obtain ⟨n, hn, hroom⟩ := hstart _ hok
    rw [getFreeInodeCount_ok hshape hbest.start_lt] at hn
    obtain rfl := Except.ok.inj hn
    exact ⟨k * j, hbest.start_lt, hok, hroom⟩

theorem findFreeInode_ok (hshape : Shape c.numGroups c.inodesPerGroup s.inodeBitmap)
    (hg : g < c.numGroups) (hroom : 0 < freeIn s.inodeBitmap g) :
    ∃ i < c.inodesPerGroup, s.findFreeInode c g = .ok (i : Int) ∧
      Grid.get? s.inodeBitmap (g, i) = some none := by
  have htest : ∀ i ∈ List.range c.inodesPerGroup,
      (do let mark ← cell s.inodeBitmap g (i : Nat); return mark.isNone) =
        Except.ok (decide (Grid.get? s.inodeBitmap (g, i) = some none)) := by
    intro i hi
    obtain ⟨mark, hmark⟩ := hshape.exists_cell (p := (g, i)) hg (List.mem_range.mp hi)
    rw [cell_eq_ok.mpr hmark, hmark]
    cases mark <;> rfl
  have hfind := findM?_eq_ok htest
  unfold findFreeInode
  rw [hfind]
  cases hfound : (List.range c.inodesPerGroup).find?
      (fun i => decide (Grid.get? s.inodeBitmap (g, i) = some none)) with
  | none =>
    -- the free cell would have been found
    obtain ⟨i, hi⟩ := freeIn_pos_iff.mp hroom
    obtain ⟨_, hlt⟩ := hshape.lt_of_get? hi
    have hnot := List.find?_eq_none.mp hfound i (List.mem_range.mpr hlt)
    exact absurd hi (by simpa using hnot)
  | some i =>
    have hlt := List.mem_range.mp (List.mem_of_find?_eq_some hfound)
    exact ⟨i, hlt, rfl, by simpa using List.find?_some hfound⟩

/-- The group picked has a free inode, and `find_free_inode` finds it: `mark_inode_used` then marks
a slot that was free. -/
def PicksFree (c : Config) (s : Fs) (parent : Str) (type : FileType) : Prop :=
  ∃ g < c.numGroups, s.pickGroup c parent type = .ok (g : Int) ∧ 0 < freeIn s.inodeBitmap g ∧
    ∃ i < c.inodesPerGroup, s.findFreeInode c g = .ok (i : Int) ∧
      Grid.get? s.inodeBitmap (g, i) = some none

/-- Sums over windows promise nothing about the first group of a window: `pick_group` keeps its
promise just when it looks near the parent, or when the first group of the best window has a free
inode. -/
theorem picksFree_iff (hshape : Shape c.numGroups c.inodesPerGroup s.inodeBitmap)
    (hfree : 0 < Grid.count (·.isNone) s.inodeBitmap) {k : Nat} (hk : c.allocateFaraway = k)
    (hpos : 1 ≤ k) (hparent : 0 ≤ s.nameToInode parent ∧
      s.nameToInode parent < c.numGroups * c.inodesPerGroup) (htype : type ≠ .empty) :
    PicksFree c s parent type ↔ type = .regular ∧ c.spreadInodes = false ∨
      ∃ j, BestWindow c s k j ∧ 0 < freeIn s.inodeBitmap (k * j) := by
  constructor
  · rintro ⟨g, _, hpick, hroom, _⟩
    by_cases hnear : type = .regular ∧ c.spreadInodes = false
    · exact Or.inl hnear
    · -- the group picked is the first of the best window
      obtain ⟨j, hbest, hok, _⟩ := findMostFreeInodesMultiple_ok (k := k) hshape hpos hfree
      rw [pickGroup_far htype hnear, hk, hok] at hpick
      have hg : k * j = g := Int.natCast_inj.mp (Except.ok.inj hpick)
      exact Or.inr ⟨j, hbest, hg ▸ hroom⟩
  · intro hcond
    have hfound : ∃ g < c.numGroups, s.pickGroup c parent type = .ok (g : Int) ∧
        0 < freeIn s.inodeBitmap g := by
      by_cases hnear : type = .regular ∧ c.spreadInodes = false
      · -- the parent's group
        have hinodes : (0 : Int) < c.inodesPerGroup := by
          by_contra hle
          have hzero : (c.inodesPerGroup : Int) = 0 := by omega
          rw [hzero, Int.mul_zero] at hparent
          omega
        have hlow : 0 ≤ s.nameToInode parent / c.inodesPerGroup :=
          Int.ediv_nonneg hparent.1 (Int.le_of_lt hinodes)
        have hhigh : s.nameToInode parent / c.inodesPerGroup < c.numGroups :=
          Int.ediv_lt_of_lt_mul hinodes hparent.2
        exact pickGroup_near (t := (s.nameToInode parent / c.inodesPerGroup).toNat) hshape hfree
          (by omega) (by omega) hnear
      · obtain ⟨j, hbest, hroom⟩ := hcond.resolve_left hnear
        -- The window that the loop finds is the best one, which is unique.
        obtain ⟨i, hbest', hok, _⟩ := findMostFreeInodesMultiple_ok (k := k) hshape hpos hfree
        obtain rfl := hbest.unique hbest'
        rw [pickGroup_far htype hnear, hk]
        exact ⟨k * j, hbest.start_lt, hok, hroom⟩
    obtain ⟨g, hg, hpick, hroom⟩ := hfound
    exact ⟨g, hg, hpick, hroom, findFreeInode_ok hshape hg hroom⟩

theorem picksFree_iff_fresh : ∃ s, Fs.new ⟨2, 2, 2, 0, false, 1, false, 2⟩ = .ok s ∧
    PicksFree ⟨2, 2, 2, 0, false, 1, false, 2⟩ s ['/'] .directory := by
  have hnew : ∃ s, Fs.new ⟨2, 2, 2, 0, false, 1, false, 2⟩ = .ok s ∧
      s.inodeBitmap = [[some 0, none], [none, none]] ∧ s.nameToInode ['/'] = 0 :=
    ⟨_, rfl, rfl, rfl⟩
  obtain ⟨s, hs, hbitmap, hroot⟩ := hnew
  have hbest : BestWindow ⟨2, 2, 2, 0, false, 1, false, 2⟩ s 2 0 := by
    refine ⟨by decide, by omega, fun i hi => ?_⟩
    -- there is one window only
    obtain rfl : i = 0 := by
      dsimp only at hi
      omega
    exact Nat.le_refl _
  refine ⟨s, hs, (picksFree_iff ?_ ?_ rfl ?_ ?_ ?_).mpr (Or.inr ⟨0, hbest, ?_⟩)⟩
  · rw [hbitmap]
    exact ⟨rfl, by decide⟩
  · rw [hbitmap]
    decide
  · decide
  · rw [hroot]
    decide
  · decide
  · rw [hbitmap]
    decide

/-- Two groups of one inode each, in one window: a directory is sent to the group of the root, which
is full. -/
theorem not_picksFree_window : ¬∀ (c : Config) (s : Fs) (parent : Str) (type : FileType) (k : Nat),
    Shape c.numGroups c.inodesPerGroup s.inodeBitmap → 0 < Grid.count (·.isNone) s.inodeBitmap →
    c.allocateFaraway = k → 1 ≤ k →
    0 ≤ s.nameToInode parent ∧ s.nameToInode parent < c.numGroups * c.inodesPerGroup →
    type ≠ .empty → PicksFree c s parent type := by
  intro h
  have hnew : ∃ s, Fs.new ⟨2, 2, 1, 0, false, 1, false, 2⟩ = .ok s ∧
      s.inodeBitmap = [[some 0], [none]] ∧ s.nameToInode ['/'] = 0 ∧
      s.pickGroup ⟨2, 2, 1, 0, false, 1, false, 2⟩ ['/'] .directory = .ok 0 :=
    ⟨_, rfl, rfl, rfl, rfl⟩
  obtain ⟨s, _, hbitmap, hroot, hpick⟩ := hnew
  have hpicks : PicksFree ⟨2, 2, 1, 0, false, 1, false, 2⟩ s ['/'] .directory := by
    apply h _ s ['/'] .directory 2
    · rw [hbitmap]
      exact ⟨rfl, by decide⟩
    · rw [hbitmap]
      decide
    · rfl
    · decide
    · rw [hroot]
      decide
    · decide
  obtain ⟨g, _, hok, hroom, _⟩ := hpicks
  rw [hpick] at hok
  obtain rfl : 0 = g := Int.natCast_inj.mp (Except.ok.inj hok)
  -- group 0 has no free inode
  rw [hbitmap] at hroom
  exact absurd hroom (by decide)

theorem findMinDataUsage_ok (hshape : Shape c.numGroups c.blocksPerGroup s.dataBitmap)
    (hfree : 0 < Grid.count (·.isNone) s.dataBitmap) :
    ∃ g < c.numGroups, s.findMinDataUsage c = .ok (g : Int) := by
  obtain ⟨h, hlt, hroom⟩ := exists_freeIn hshape hfree
  have hcount : ∀ g ∈ (List.range c.numGroups).map fun g : Nat => (g : Int),
      s.getFreeDataCount g = .ok (freeIn s.dataBitmap g.toNat) := by
    intro x hx
    obtain ⟨g, hg, rfl⟩ := List.mem_map.mp hx
    exact item_freeIn (hshape.rows.symm ▸ List.mem_range.mp hg)
  obtain ⟨found, hfound, _, _, hget, _⟩ := mostFree_pos hcount
    ⟨h, List.mem_map_of_mem (List.mem_range.mpr hlt), hroom⟩
  obtain ⟨g, hg, hfoundEq⟩ := List.mem_map.mp (List.mem_of_getElem? hget)
  refine ⟨g, List.mem_range.mp hg, ?_⟩
  unfold findMinDataUsage
  rw [hfound, hfoundEq]
  rfl

end Picking

end Fs

end OsLab.Ffs
