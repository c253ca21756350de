import OsLab.Ffs.Blocks
import OsLab.Lib.Ledger

/-!
# The invariant of the file system

Both bitmaps are ledgers: an inode number owns its slot and the blocks of its file. The names in
`name_to_inode_map` are the entries of the directories, and every live inode has a symbol of its
own. A create keeps all this; a delete does if it frees the cells that the create marked.

* **`number`** -- the number of a cell, which `//` and `%` by the size of a group take apart again.
* **`Stored`**, **`Named`**, **`Symbols`**, **`Represents`** -- the invariant in three parts, over
  the owners of slots and blocks.
* **`Creating`**, **`afterCreate`**, **`Represents.created`** -- what `do_create` has found, and
  what it leaves.
* **`Deleting`**, **`afterDelete`**, **`Represents.deleted`** -- the same for `do_delete`.
-/

namespace OsLab.Ffs

open Grid (Shape)

variable {cols : Nat} {p q : Nat × Nat}

/-- The number of a cell when a group has `cols` of them. -/
def number (cols : Nat) (p : Nat × Nat) : Int := p.2 + p.1 * cols

theorem number_nonneg : 0 ≤ number cols p :=
  Int.add_nonneg (Int.natCast_nonneg _) (Int.mul_nonneg (Int.natCast_nonneg _) (Int.natCast_nonneg _))

/-- The group of a cell, from its number and the size of a group. -/
theorem number_ediv (hp : p.2 < cols) : number cols p / cols = p.1 := by
  unfold number
  have hcols : (cols : Int) ≠ 0 := by omega
  rw [Int.add_mul_ediv_right _ _ hcols, Int.ediv_eq_zero_of_lt (by omega) (by omega), Int.zero_add]

/-- The place in the group, from the same. -/
theorem number_emod (hp : p.2 < cols) : number cols p % cols = p.2 := by
  unfold number
  rw [Int.add_mul_emod_self_right, Int.emod_eq_of_lt (by omega) (by omega)]

/-- Different cells have different numbers. -/
theorem number_inj (hp : p.2 < cols) (hq : q.2 < cols) (h : number cols p = number cols q) :
    p = q := by
  have hrow := number_ediv hp
  have hcol := number_emod hp
  rw [h, number_ediv hq] at hrow
  rw [h, number_emod hq] at hcol
  exact Prod.ext (by omega) (by omega)

section Names

variable {names : AList fun _ : Str => Int} {f path : Str} {v w : Int}

theorem lookup_insert_iff : (names.insert path v).lookup f = some w ↔
    f = path ∧ w = v ∨ f ≠ path ∧ names.lookup f = some w := by
  by_cases hf : f = path
  · subst hf
    simp [eq_comm]
  · rw [AList.lookup_insert_ne hf]
    simp [hf]

theorem lookup_erase_iff : (names.erase path).lookup f = some w ↔
    f ≠ path ∧ names.lookup f = some w := by
  by_cases hf : f = path
  · subst hf
    simp
  · rw [AList.lookup_erase_ne hf]
    simp [hf]

/-- A number that no name has after a name is entered. -/
theorem not_live_insert (hpath : names.lookup path = none)
    (h : ∀ f, (names.insert path v).lookup f ≠ some w) : w ≠ v ∧ ∀ f, names.lookup f ≠ some w := by
  constructor
  · rintro rfl
    exact h path (AList.lookup_insert _)
  · intro f hf
    have hne : f ≠ path := by
      rintro rfl
      rw [hpath] at hf
      cases hf
    exact h f (lookup_insert_iff.mpr (Or.inr ⟨hne, hf⟩))

/-- A number that no name has after a name is removed. -/
theorem not_live_erase (h : ∀ f, (names.erase path).lookup f ≠ some w) :
    names.lookup path = some w ∨ ∀ f, names.lookup f ≠ some w := by
  by_cases hpath : names.lookup path = some w
  · exact Or.inl hpath
  · refine Or.inr fun f hf => ?_
    have hne : f ≠ path := fun heq => hpath (heq ▸ hf)
    exact h f (lookup_erase_iff.mpr ⟨hne, hf⟩)

end Names

/-! ## The invariant -/

/-- The bitmaps, the block lists and the counters. -/
structure Stored (c : Config) (s : Fs) (blocks slots : Int → List (Nat × Nat)) : Prop where
  dataShape : Shape c.numGroups c.blocksPerGroup s.dataBitmap
  inodeShape : Shape c.numGroups c.inodesPerGroup s.inodeBitmap
  dataFree : Grid.count (·.isNone) s.dataBitmap = s.totalDataFree
  inodesFree : Grid.count (·.isNone) s.inodeBitmap = s.totalInodesFree
  data : Ledger s.dataBitmap blocks
  inodes : Ledger s.inodeBitmap slots
  slot : ∀ {f v}, s.nameToInodeMap.lookup f = some v →
    ∃ p, slots v = [p] ∧ v = number c.inodesPerGroup p
  noSlot : ∀ {v}, (∀ f, s.nameToInodeMap.lookup f ≠ some v) → slots v = []
  listed : ∀ {f v}, s.nameToInodeMap.lookup f = some v →
    s.inodeBlocks v = some ((blocks v).map (number c.blocksPerGroup))
  noBlocks : ∀ {v}, (∀ f, s.nameToInodeMap.lookup f ≠ some v) → blocks v = []

/-- The names are the entries of the directories. -/
structure Named (s : Fs) : Prop where
  root : s.nameToInodeMap.lookup ['/'] = some 0
  rootType : s.inodeType 0 = some .directory
  inj : ∀ {f f' v}, s.nameToInodeMap.lookup f = some v → s.nameToInodeMap.lookup f' = some v → f = f'
  typed : ∀ {f v}, s.nameToInodeMap.lookup f = some v →
    s.inodeType v = some .regular ∧ s.dirData v = none ∨
      s.inodeType v = some .directory ∧ ∃ entries, s.dirData v = some entries
  live : ∀ {d entries}, s.dirData d = some entries → ∃ f, s.nameToInodeMap.lookup f = some d
  nodup : ∀ {d entries}, s.dirData d = some entries → (entries.map Prod.fst).Nodup
  entry : ∀ {f v}, f ≠ ['/'] → s.nameToInodeMap.lookup f = some v →
    ∃ d entries, s.nameToInodeMap.lookup (getParent f).1 = some d ∧ s.dirData d = some entries ∧
      ((getParent f).2, v) ∈ entries
  name : ∀ {d entries n v}, s.dirData d = some entries → (n, v) ∈ entries →
    v = 0 ∨ ∃ f, f ≠ ['/'] ∧ s.nameToInodeMap.lookup f = some v ∧
      s.nameToInodeMap.lookup (getParent f).1 = some d ∧ (getParent f).2 = n

/-- Every live inode has a symbol of its own. -/
structure Symbols (s : Fs) : Prop where
  distinct : (s.usedSymbols ++ s.availableSymbols).Nodup
  symbol : ∀ {f v}, s.nameToInodeMap.lookup f = some v →
    ∃ x ∈ s.usedSymbols, s.symbolMap v = some x
  own : ∀ {f f' v w}, s.nameToInodeMap.lookup f = some v → s.nameToInodeMap.lookup f' = some w →
    s.symbolMap v = s.symbolMap w → v = w

/-- `s` stores the file system in which inode number `v` owns the slots `slots v` and the blocks
`blocks v`. -/
structure Represents (c : Config) (s : Fs) (blocks slots : Int → List (Nat × Nat)) : Prop
    extends Stored c s blocks slots, Named s, Symbols s

def Consistent (c : Config) (s : Fs) : Prop := ∃ blocks slots, Represents c s blocks slots

section Creating

variable {c : Config} {s : Fs} {blocks slots : Int → List (Nat × Nat)} {path symbol : Str}
  {type : FileType} {d : Int} {entries : List (Str × Int)} {cells : List (Nat × Nat)}

/-- The state after a `do_create` that returns 0. -/
def afterCreate (c : Config) (s : Fs) (path : Str) (type : FileType) (d : Int)
    (entries : List (Str × Int)) (p : Nat × Nat) (cells : List (Nat × Nat)) (symbol : Str) : Fs where
  dataBitmap := Grid.putAll s.dataBitmap cells (some (number c.inodesPerGroup p))
  inodeBitmap := Grid.put s.inodeBitmap p (some (number c.inodesPerGroup p))
  symbolMap := Function.update s.symbolMap (number c.inodesPerGroup p) (some symbol)
  usedSymbols := s.usedSymbols ++ [symbol]
  availableSymbols := s.availableSymbols.erase symbol
  totalDataFree := s.totalDataFree - cells.length
  totalInodesFree := s.totalInodesFree - 1
  dirData :=
    let dirData := Function.update s.dirData d
      (some (entries ++ [((getParent path).2, number c.inodesPerGroup p)]))
    if type = .directory then
      Function.update dirData (number c.inodesPerGroup p) (some emptyDirectory)
    else
      dirData
  inodeType := Function.update s.inodeType (number c.inodesPerGroup p) (some type)
  inodeBlocks := Function.update s.inodeBlocks (number c.inodesPerGroup p)
    (some (cells.map (number c.blocksPerGroup)))
  nameToInodeMap := s.nameToInodeMap.insert path (number c.inodesPerGroup p)

/-- What `do_create` has found when it changes the file system: `p` is the inode slot and `cells`
are the blocks. -/
structure Creating (s : Fs) (path : Str) (type : FileType) (d : Int)
    (entries : List (Str × Int)) (p : Nat × Nat) (cells : List (Nat × Nat)) : Prop where
  notRoot : path ≠ ['/']
  parent : s.nameToInodeMap.lookup (getParent path).1 = some d
  dir : s.dirData d = some entries
  new : ∀ e ∈ entries, e.1 ≠ (getParent path).2
  type : type ≠ .empty
  slot : Grid.get? s.inodeBitmap p = some none
  nodup : cells.Nodup
  free : ∀ q ∈ cells, Grid.get? s.dataBitmap q = some none

theorem Named.not_mem (h : Named s) (hcr : Creating s path type d entries p cells) :
    s.nameToInodeMap.lookup path = none := by
  cases hpath : s.nameToInodeMap.lookup path with
  | none => rfl
  | some v =>
    -- its entry in the parent would have stopped the create
    obtain ⟨d', entries', hparent, hdir, hmem⟩ := h.entry hcr.notRoot hpath
    rw [hcr.parent] at hparent
    obtain rfl := Option.some.inj hparent
    rw [hcr.dir] at hdir
    obtain rfl := Option.some.inj hdir
    exact absurd rfl (hcr.new _ hmem)

/-- The inode number is new: nobody live owns a slot that is free. -/
theorem Stored.fresh (h : Stored c s blocks slots)
    (hslot : Grid.get? s.inodeBitmap p = some none) (f : Str) :
    s.nameToInodeMap.lookup f ≠ some (number c.inodesPerGroup p) := by
  intro hf
  obtain ⟨q, hq, hnumber⟩ := h.slot hf
  have hmem : q ∈ slots (number c.inodesPerGroup p) := by
    rw [hq]
    exact List.mem_singleton_self q
  have hmark := (h.inodes.mark_iff _ q).mp hmem
  obtain rfl := number_inj (h.inodeShape.lt_of_get? hslot).2 (h.inodeShape.lt_of_get? hmark).2 hnumber
  rw [hslot] at hmark
  cases hmark

/-- The bitmaps, the block lists and the counters behind a create: the new inode owns its slot and
its blocks. -/
theorem Stored.created (h : Stored c s blocks slots)
    (hcr : Creating s path type d entries p cells) (hpath : s.nameToInodeMap.lookup path = none) :
    Stored c (afterCreate c s path type d entries p cells symbol)
      (Function.update blocks (number c.inodesPerGroup p) cells)
      (Function.update slots (number c.inodesPerGroup p) [p]) := by
  have hfresh := h.fresh hcr.slot
  constructor
  · exact h.dataShape.putAll cells _
  · exact h.inodeShape.put p _
  -- The counters go down by what the bitmaps take.
  · have hcount := Ledger.count_take hcr.nodup hcr.free (number c.inodesPerGroup p)
    have hfree := h.dataFree
    show Grid.count (·.isNone) (Grid.putAll s.dataBitmap cells _) = s.totalDataFree - cells.length
    omega
  · have hcount := Grid.count_put (f := (·.isNone)) hcr.slot (some (number c.inodesPerGroup p))
    have hfree := h.inodesFree
    show Grid.count (·.isNone) (Grid.put s.inodeBitmap p _) = s.totalInodesFree - 1
    simp only [Option.isNone_none, Option.isNone_some, Bool.toNat_true, Bool.toNat_false] at hcount
    omega
  · exact h.data.take (h.noBlocks hfresh) hcr.nodup hcr.free
  · exact h.inodes.take_one (h.noSlot hfresh) hcr.slot
  · intro f v hf
    rcases lookup_insert_iff.mp hf with ⟨_, rfl⟩ | ⟨_, hf⟩
    · exact ⟨p, Function.update_self .., rfl⟩
    · have hne : v ≠ number c.inodesPerGroup p := fun heq => hfresh f (heq ▸ hf)
      rw [Function.update_of_ne hne]
      exact h.slot hf
  · intro v hv
    obtain ⟨hne, hold⟩ := not_live_insert hpath hv
    rw [Function.update_of_ne hne]
    exact h.noSlot hold
  · intro f v hf
    show Function.update s.inodeBlocks _ _ _ = _
    -- The new inode gets the blocks of `cells`; the others keep theirs.
    rcases lookup_insert_iff.mp hf with ⟨_, rfl⟩ | ⟨_, hf⟩
    · rw [Function.update_self, Function.update_self]
    · have hne : v ≠ number c.inodesPerGroup p := fun heq => hfresh f (heq ▸ hf)
      rw [Function.update_of_ne hne, Function.update_of_ne hne]
      exact h.listed hf
  · intro v hv
    obtain ⟨hne, hold⟩ := not_live_insert hpath hv
    rw [Function.update_of_ne hne]
    exact h.noBlocks hold

/-- What the directories hold after a create: the parent has one entry more, and a new directory has
its two dots. -/
theorem dirData_afterCreate (hfresh : ∀ f, s.nameToInodeMap.lookup f ≠ some (number c.inodesPerGroup p))
    (hnamed : Named s) (hcr : Creating s path type d entries p cells) {d' : Int}
    {entries' : List (Str × Int)} :
    (afterCreate c s path type d entries p cells symbol).dirData d' = some entries' ↔
      d' = number c.inodesPerGroup p ∧ type = .directory ∧ entries' = emptyDirectory ∨
      d' = d ∧ entries' = entries ++ [((getParent path).2, number c.inodesPerGroup p)] ∨
      d' ≠ d ∧ s.dirData d' = some entries' := by
  have hd : d ≠ number c.inodesPerGroup p := fun heq => hfresh _ (heq ▸ hcr.parent)
  -- A number in use by a directory has a name, and the new one had none.
  have hnone : s.dirData (number c.inodesPerGroup p) = none := by
    cases hdir : s.dirData (number c.inodesPerGroup p) with
    | none => rfl
    | some entries =>
      obtain ⟨f, hf⟩ := hnamed.live hdir
      exact absurd hf (hfresh f)
  unfold afterCreate
  dsimp only
  by_cases hnew : d' = number c.inodesPerGroup p
  · subst hnew
    have hother : Function.update s.dirData d
        (some (entries ++ [((getParent path).2, number c.inodesPerGroup p)]))
        (number c.inodesPerGroup p) = none := by
      rw [Function.update_of_ne hd.symm, hnone]
    by_cases htype : type = .directory
    · rw [if_pos htype, Function.update_self]
      simp [htype, hd.symm, hnone, eq_comm]
    · rw [if_neg htype, hother]
      simp [htype, hd.symm, hnone]
  -- For any other number the second update makes no difference.
  · have hsame : (if type = .directory then
        Function.update (Function.update s.dirData d
          (some (entries ++ [((getParent path).2, number c.inodesPerGroup p)])))
          (number c.inodesPerGroup p) (some emptyDirectory)
      else Function.update s.dirData d
        (some (entries ++ [((getParent path).2, number c.inodesPerGroup p)]))) d' =
        Function.update s.dirData d
          (some (entries ++ [((getParent path).2, number c.inodesPerGroup p)])) d' := by
      split
      · exact Function.update_of_ne hnew ..
      · rfl
    rw [hsame]
    by_cases hd' : d' = d
    · subst hd'
      rw [Function.update_self]
      simp [hnew, eq_comm]
    · rw [Function.update_of_ne hd']
      simp [hnew, hd']

/-- The new name is an entry of its parent, and every other name is where it was. -/
theorem Named.created (h : Named s) (hcr : Creating s path type d entries p cells)
    (hfresh : ∀ f, s.nameToInodeMap.lookup f ≠ some (number c.inodesPerGroup p)) :
    Named (afterCreate c s path type d entries p cells symbol) := by
  have hpath := h.not_mem hcr
  -- The three kinds of directories afterwards: the new one, its parent with the entry more, and all
  -- others.
  have hdirs : ∀ d' entries', (afterCreate c s path type d entries p cells symbol).dirData d' =
      some entries' ↔ d' = number c.inodesPerGroup p ∧ type = .directory ∧
        entries' = emptyDirectory ∨
      d' = d ∧ entries' = entries ++ [((getParent path).2, number c.inodesPerGroup p)] ∨
      d' ≠ d ∧ s.dirData d' = some entries' := fun _ _ => dirData_afterCreate hfresh h hcr
  have hkeep : ∀ {f v}, s.nameToInodeMap.lookup f = some v → f ≠ path := by
    rintro f v hf rfl
    rw [hpath] at hf
    cases hf
  have hlookup : ∀ {f v}, s.nameToInodeMap.lookup f = some v →
      (s.nameToInodeMap.insert path (number c.inodesPerGroup p)).lookup f = some v :=
    fun hf => lookup_insert_iff.mpr (Or.inr ⟨hkeep hf, hf⟩)
  -- The number taken was free, so no name led to it.
  have hlive : ∀ {f v}, s.nameToInodeMap.lookup f = some v → v ≠ number c.inodesPerGroup p :=
    fun {f _} hf heq => hfresh f (heq ▸ hf)
  constructor
  · exact hlookup h.root
  · show Function.update s.inodeType _ _ 0 = _
    rw [Function.update_of_ne (hlive h.root)]
    exact h.rootType
  · intro f f' v hf hf'
    rcases lookup_insert_iff.mp hf with ⟨rfl, rfl⟩ | ⟨_, hf⟩
    · rcases lookup_insert_iff.mp hf' with ⟨rfl, _⟩ | ⟨_, hf'⟩
      · rfl
      · exact absurd rfl (hlive hf')
    · rcases lookup_insert_iff.mp hf' with ⟨_, rfl⟩ | ⟨_, hf'⟩
      · exact absurd rfl (hlive hf)
      · exact h.inj hf hf'
  · intro f v hf
    rcases lookup_insert_iff.mp hf with ⟨_, rfl⟩ | ⟨_, hf⟩
    · -- the new inode
      have hself : (afterCreate c s path type d entries p cells symbol).inodeType
          (number c.inodesPerGroup p) = some type := Function.update_self ..
      cases htype : type with
      | empty => exact absurd htype hcr.type
      | directory => exact Or.inr ⟨by rw [← htype]; exact hself, emptyDirectory,
          by rw [← htype]; exact (hdirs _ _).mpr (Or.inl ⟨rfl, htype, rfl⟩)⟩
      | regular =>
        refine Or.inl ⟨by rw [← htype]; exact hself, ?_⟩
        rw [← htype]
        cases hdir : (afterCreate c s path type d entries p cells symbol).dirData
            (number c.inodesPerGroup p) with
        | none => rfl
        | some entries' =>
          rcases (hdirs _ _).mp hdir with ⟨_, hdirectory, _⟩ | ⟨heq, _⟩ | ⟨_, hold⟩
          · rw [htype] at hdirectory
            cases hdirectory
          · exact absurd heq.symm (hlive hcr.parent)
          · obtain ⟨f, hf⟩ := h.live hold
            exact absurd hf (hfresh f)
    · have htype : (afterCreate c s path type d entries p cells symbol).inodeType v =
          s.inodeType v := Function.update_of_ne (hlive hf) ..
      rw [htype]
      rcases h.typed hf with ⟨hregular, hnone⟩ | ⟨hdirectory, entries', hentries⟩
      · refine Or.inl ⟨hregular, ?_⟩
        cases hdir : (afterCreate c s path type d entries p cells symbol).dirData v with
        | none => rfl
        | some entries' =>
          rcases (hdirs _ _).mp hdir with ⟨heq, _⟩ | ⟨rfl, _⟩ | ⟨_, hold⟩
          · exact absurd heq (hlive hf)
          · rw [hcr.dir] at hnone
            cases hnone
          · rw [hold] at hnone
            cases hnone
      · refine Or.inr ⟨hdirectory, ?_⟩
        by_cases hd : v = d
        · exact ⟨_, (hdirs _ _).mpr (Or.inr (Or.inl ⟨hd, rfl⟩))⟩
        · exact ⟨_, (hdirs _ _).mpr (Or.inr (Or.inr ⟨hd, hentries⟩))⟩
  · intro d' entries' hdir
    rcases (hdirs _ _).mp hdir with ⟨rfl, _⟩ | ⟨rfl, _⟩ | ⟨_, hold⟩
    · exact ⟨path, AList.lookup_insert _⟩
    · exact ⟨_, hlookup hcr.parent⟩
    · obtain ⟨f, hf⟩ := h.live hold
      exact ⟨f, hlookup hf⟩
  · intro d' entries' hdir
    rcases (hdirs _ _).mp hdir with ⟨_, _, rfl⟩ | ⟨_, rfl⟩ | ⟨_, hold⟩
    · decide
    · rw [List.map_append, List.map_singleton]
      refine List.nodup_append.mpr ⟨h.nodup hcr.dir, List.nodup_singleton _, ?_⟩
      -- The name entered is new in the directory, as `doCreate` has looked.
      rintro n hn m hm rfl
      obtain ⟨e, he, rfl⟩ := List.mem_map.mp hn
      exact hcr.new e he (List.mem_singleton.mp hm)
    · exact h.nodup hold
  · intro f v hf hlook
    rcases lookup_insert_iff.mp hlook with ⟨rfl, rfl⟩ | ⟨_, hold⟩
    · exact ⟨d, _, hlookup hcr.parent, (hdirs _ _).mpr (Or.inr (Or.inl ⟨rfl, rfl⟩)),
        List.mem_append_right _ (List.mem_singleton_self _)⟩
    · obtain ⟨d', entries', hparent, hdir, hmem⟩ := h.entry hf hold
      by_cases hd : d' = d
      · subst hd
        rw [hcr.dir] at hdir
        obtain rfl := Option.some.inj hdir
        exact ⟨d', _, hlookup hparent, (hdirs _ _).mpr (Or.inr (Or.inl ⟨rfl, rfl⟩)),
          List.mem_append_left _ hmem⟩
      · exact ⟨d', entries', hlookup hparent, (hdirs _ _).mpr (Or.inr (Or.inr ⟨hd, hdir⟩)), hmem⟩
  · intro d' entries' n v hdir hmem
    -- An old entry keeps the file that it stands for.
    have hname : ∀ {d' entries'}, s.dirData d' = some entries' → (n, v) ∈ entries' →
        v = 0 ∨ ∃ f, f ≠ ['/'] ∧
          (s.nameToInodeMap.insert path (number c.inodesPerGroup p)).lookup f = some v ∧
          (s.nameToInodeMap.insert path (number c.inodesPerGroup p)).lookup (getParent f).1 =
            some d' ∧ (getParent f).2 = n := by
      intro d' entries' hdir hmem
      rcases h.name hdir hmem with hzero | ⟨f, hne, hf, hparent, hn⟩
      · exact Or.inl hzero
      · exact Or.inr ⟨f, hne, hlookup hf, hlookup hparent, hn⟩
    rcases (hdirs _ _).mp hdir with ⟨_, _, rfl⟩ | ⟨rfl, rfl⟩ | ⟨_, hold⟩
    · -- `.` and `..` stand for inode 0
      left
      simp only [emptyDirectory, List.mem_cons, Prod.mk.injEq, List.not_mem_nil, or_false] at hmem
      omega
    · rcases List.mem_append.mp hmem with hmem | hmem
      · exact hname hcr.dir hmem
      · obtain ⟨rfl, rfl⟩ := Prod.mk.inj (List.mem_singleton.mp hmem)
        exact Or.inr ⟨path, hcr.notRoot, AList.lookup_insert _, hlookup hcr.parent, rfl⟩
    · exact hname hold hmem

/-- The new inode has a symbol that was available, and nobody else's has changed. -/
theorem Symbols.created (h : Symbols s) (hsymbol : symbol ∈ s.availableSymbols)
    (hfresh : ∀ f, s.nameToInodeMap.lookup f ≠ some (number c.inodesPerGroup p)) :
    Symbols (afterCreate c s path type d entries p cells symbol) := by
  have hlive : ∀ {f v}, s.nameToInodeMap.lookup f = some v → v ≠ number c.inodesPerGroup p :=
    fun {f _} hf heq => hfresh f (heq ▸ hf)
  have hnew : symbol ∉ s.usedSymbols := by
    intro hused
    exact (List.nodup_append.mp h.distinct).2.2 symbol hused symbol hsymbol rfl
  -- no live inode has the symbol yet
  have hother : ∀ {f v}, s.nameToInodeMap.lookup f = some v → s.symbolMap v ≠ some symbol := by
    intro f v hf heq
    obtain ⟨x, hx, hmap⟩ := h.symbol hf
    rw [hmap] at heq
    obtain rfl := Option.some.inj heq
    exact hnew hx
  constructor
  · have hperm : (s.usedSymbols ++ [symbol] ++ s.availableSymbols.erase symbol).Perm
        (s.usedSymbols ++ s.availableSymbols) := by
      rw [List.append_assoc]
      exact (List.perm_cons_erase hsymbol).symm.append_left _
    exact hperm.nodup_iff.mpr h.distinct
  · intro f v hf
    rcases lookup_insert_iff.mp hf with ⟨_, rfl⟩ | ⟨_, hf⟩
    · exact ⟨symbol, List.mem_append_right _ (List.mem_singleton_self _), Function.update_self ..⟩
    · obtain ⟨x, hx, hmap⟩ := h.symbol hf
      exact ⟨x, List.mem_append_left _ hx, (Function.update_of_ne (hlive hf) ..).trans hmap⟩
  · intro f f' v w hf hf' heq
    change Function.update s.symbolMap _ _ v = Function.update s.symbolMap _ _ w at heq
    rcases lookup_insert_iff.mp hf with ⟨_, rfl⟩ | ⟨_, hf⟩
    · rcases lookup_insert_iff.mp hf' with ⟨_, rfl⟩ | ⟨_, hf'⟩
      · rfl
      · rw [Function.update_self, Function.update_of_ne (hlive hf')] at heq
        exact absurd heq.symm (hother hf')
    · rcases lookup_insert_iff.mp hf' with ⟨_, rfl⟩ | ⟨_, hf'⟩
      · rw [Function.update_self, Function.update_of_ne (hlive hf)] at heq
        exact absurd heq (hother hf)
      · rw [Function.update_of_ne (hlive hf), Function.update_of_ne (hlive hf')] at heq
        exact h.own hf hf' heq

/-- A create that returns 0 keeps the invariant, with the new inode as the owner of what it was
given. -/
theorem Represents.created (h : Represents c s blocks slots)
    (hcr : Creating s path type d entries p cells) (hsymbol : symbol ∈ s.availableSymbols) :
    Represents c (afterCreate c s path type d entries p cells symbol)
      (Function.update blocks (number c.inodesPerGroup p) cells)
      (Function.update slots (number c.inodesPerGroup p) [p]) := by
  have hfresh := h.toStored.fresh hcr.slot
  have hpath := h.toNamed.not_mem hcr
  exact ⟨h.toStored.created hcr hpath, h.toNamed.created hcr hfresh,
    h.toSymbols.created hsymbol hfresh⟩

end Creating

section Deleting

variable {c : Config} {s : Fs} {blocks slots : Int → List (Nat × Nat)} {path symbol : Str}
  {d v : Int} {entries : List (Str × Int)}

/-- The state after a `do_delete` that frees slot `p` and the blocks `cells`. -/
def afterDelete (s : Fs) (path : Str) (d v : Int) (entries : List (Str × Int)) (p : Nat × Nat)
    (cells : List (Nat × Nat)) (symbol : Str) : Fs where
  dataBitmap := Grid.putAll s.dataBitmap cells none
  inodeBitmap := Grid.put s.inodeBitmap p none
  symbolMap := Function.update s.symbolMap v none
  usedSymbols := s.usedSymbols.erase symbol
  availableSymbols := s.availableSymbols ++ [symbol]
  totalDataFree := s.totalDataFree + cells.length
  totalInodesFree := s.totalInodesFree + 1
  dirData := Function.update s.dirData d (some (entries.erase ((getParent path).2, v)))
  inodeType := Function.update s.inodeType v (some .empty)
  inodeBlocks := Function.update s.inodeBlocks v (some [])
  nameToInodeMap := s.nameToInodeMap.erase path

/-- What `do_delete` has found when it changes the file system: `path` is the name of the regular
file with inode number `v`. -/
structure Deleting (s : Fs) (path : Str) (d v : Int) (entries : List (Str × Int)) : Prop where
  notRoot : path ≠ ['/']
  file : s.nameToInodeMap.lookup path = some v
  regular : s.inodeType v = some .regular
  parent : s.nameToInodeMap.lookup (getParent path).1 = some d
  dir : s.dirData d = some entries
  mem : ((getParent path).2, v) ∈ entries

/-- The bitmaps, the block lists and the counters behind a delete that frees the slot and the blocks
of its file. -/
theorem Stored.deleted (h : Stored c s blocks slots) (hnamed : Named s)
    (hfile : s.nameToInodeMap.lookup path = some v) (hp : slots v = [p]) :
    Stored c (afterDelete s path d v entries p (blocks v) symbol)
      (Function.update blocks v []) (Function.update slots v []) := by
  have hmark : Grid.get? s.inodeBitmap p = some (some v) :=
    (h.inodes.mark_iff v p).mp (hp ▸ List.mem_singleton_self p)
  -- Names lead to different inodes, so only `path` loses what `v` had.
  have hother : ∀ {f w}, f ≠ path → s.nameToInodeMap.lookup f = some w → w ≠ v :=
    fun hne hf heq => hne (hnamed.inj (heq ▸ hf) hfile)
  constructor
  · exact h.dataShape.putAll _ _
  · exact h.inodeShape.put p _
  -- The counters go up by what the bitmaps lose.
  · have hcount := h.data.count_release v
    have hfree := h.dataFree
    show Grid.count (·.isNone) (Grid.putAll s.dataBitmap (blocks v) none) =
      s.totalDataFree + (blocks v).length
    omega
  · have hcount := Grid.count_put (f := (·.isNone)) hmark none
    have hfree := h.inodesFree
    show Grid.count (·.isNone) (Grid.put s.inodeBitmap p none) = s.totalInodesFree + 1
    simp only [Option.isNone_none, Option.isNone_some, Bool.toNat_true, Bool.toNat_false] at hcount
    omega
  · exact h.data.release v
  · exact h.inodes.release_one hp
  · intro f w hf
    obtain ⟨hne, hf⟩ := lookup_erase_iff.mp hf
    rw [Function.update_of_ne (hother hne hf)]
    exact h.slot hf
  · intro w hw
    rcases not_live_erase hw with hpath | hold
    · rw [hfile] at hpath
      obtain rfl := Option.some.inj hpath
      exact Function.update_self ..
    · have hne : w ≠ v := fun heq => hold path (heq ▸ hfile)
      rw [Function.update_of_ne hne]
      exact h.noSlot hold
  · intro f w hf
    obtain ⟨hne, hf⟩ := lookup_erase_iff.mp hf
    show Function.update s.inodeBlocks _ _ _ = _
    rw [Function.update_of_ne (hother hne hf), Function.update_of_ne (hother hne hf)]
    exact h.listed hf
  · intro w hw
    rcases not_live_erase hw with hpath | hold
    · rw [hfile] at hpath
      obtain rfl := Option.some.inj hpath
      exact Function.update_self ..
    · have hne : w ≠ v := fun heq => hold path (heq ▸ hfile)
      rw [Function.update_of_ne hne]
      exact h.noBlocks hold

/-- The name is gone from its parent, and no other. -/
theorem Named.deleted (h : Named s) (hdel : Deleting s path d v entries)
    {cells : List (Nat × Nat)} :
    Named (afterDelete s path d v entries p cells symbol) := by
  -- a regular file is not a directory
  have hfileDir : s.dirData v = none := by
    rcases h.typed hdel.file with ⟨_, hnone⟩ | ⟨hdirectory, _⟩
    · exact hnone
    · rw [hdel.regular] at hdirectory
      cases hdirectory
  have hother : ∀ {f w}, f ≠ path → s.nameToInodeMap.lookup f = some w → w ≠ v :=
    fun hne hf heq => hne (h.inj (heq ▸ hf) hdel.file)
  have hdirNe : ∀ {f w entries'}, s.nameToInodeMap.lookup f = some w →
      s.dirData w = some entries' → f ≠ path := by
    rintro f w entries' hf hdir rfl
    rw [hdel.file] at hf
    obtain rfl := Option.some.inj hf
    rw [hfileDir] at hdir
    cases hdir
  have hlookup : ∀ {f w}, f ≠ path → s.nameToInodeMap.lookup f = some w →
      (s.nameToInodeMap.erase path).lookup f = some w :=
    fun hne hf => lookup_erase_iff.mpr ⟨hne, hf⟩
  have hdirs : ∀ d' entries', (afterDelete s path d v entries p cells symbol).dirData d' =
      some entries' ↔ d' = d ∧ entries' = entries.erase ((getParent path).2, v) ∨
        d' ≠ d ∧ s.dirData d' = some entries' := by
    intro d' entries'
    show Function.update s.dirData d _ d' = _ ↔ _
    by_cases hd : d' = d
    · subst hd
      rw [Function.update_self]
      simp [eq_comm]
    · rw [Function.update_of_ne hd]
      simp [hd]
  have hnodup : entries.Nodup := List.Nodup.of_map _ (h.nodup hdel.dir)
  constructor
  · exact hlookup (Ne.symm hdel.notRoot) h.root
  · show Function.update s.inodeType _ _ 0 = _
    rw [Function.update_of_ne (hother (Ne.symm hdel.notRoot) h.root)]
    exact h.rootType
  · intro f f' w hf hf'
    exact h.inj (lookup_erase_iff.mp hf).2 (lookup_erase_iff.mp hf').2
  · intro f w hf
    obtain ⟨hne, hf⟩ := lookup_erase_iff.mp hf
    have htype : (afterDelete s path d v entries p cells symbol).inodeType w = s.inodeType w :=
      Function.update_of_ne (hother hne hf) ..
    rw [htype]
    rcases h.typed hf with ⟨hregular, hnone⟩ | ⟨hdirectory, entries', hentries⟩
    · refine Or.inl ⟨hregular, ?_⟩
      cases hdir : (afterDelete s path d v entries p cells symbol).dirData w with
      | none => rfl
      | some entries' =>
        rcases (hdirs _ _).mp hdir with ⟨rfl, _⟩ | ⟨_, hold⟩
        · rw [hdel.dir] at hnone
          cases hnone
        · rw [hold] at hnone
          cases hnone
    · refine Or.inr ⟨hdirectory, ?_⟩
      by_cases hd : w = d
      · exact ⟨_, (hdirs _ _).mpr (Or.inl ⟨hd, rfl⟩)⟩
      · exact ⟨_, (hdirs _ _).mpr (Or.inr ⟨hd, hentries⟩)⟩
  · intro d' entries' hdir
    rcases (hdirs _ _).mp hdir with ⟨rfl, _⟩ | ⟨_, hold⟩
    · exact ⟨_, hlookup (hdirNe hdel.parent hdel.dir) hdel.parent⟩
    · obtain ⟨f, hf⟩ := h.live hold
      exact ⟨f, hlookup (hdirNe hf hold) hf⟩
  · intro d' entries' hdir
    rcases (hdirs _ _).mp hdir with ⟨_, rfl⟩ | ⟨_, hold⟩
    · exact (h.nodup hdel.dir).sublist (List.erase_sublist.map _)
    · exact h.nodup hold
  · intro f w hf hlook
    obtain ⟨hne, hold⟩ := lookup_erase_iff.mp hlook
    obtain ⟨d', entries', hparent, hdir, hmem⟩ := h.entry hf hold
    have hparent' := hlookup (hdirNe hparent hdir) hparent
    by_cases hd : d' = d
    · subst hd
      rw [hdel.dir] at hdir
      obtain rfl := Option.some.inj hdir
      have hentry : ((getParent f).2, w) ≠ ((getParent path).2, v) :=
        fun heq => hother hne hold (congrArg Prod.snd heq)
      exact ⟨d', _, hparent', (hdirs _ _).mpr (Or.inl ⟨rfl, rfl⟩),
        (List.mem_erase_of_ne hentry).mpr hmem⟩
    · exact ⟨d', entries', hparent', (hdirs _ _).mpr (Or.inr ⟨hd, hdir⟩), hmem⟩
  · intro d' entries' n w hdir hmem
    rcases (hdirs _ _).mp hdir with ⟨rfl, rfl⟩ | ⟨hd, hold⟩
    · obtain ⟨hentry, hmem⟩ := (List.Nodup.mem_erase_iff hnodup).mp hmem
      rcases h.name hdel.dir hmem with hzero | ⟨f, hne, hf, hparent, rfl⟩
      · exact Or.inl hzero
      · -- the entry is not the one of the deleted file
        have hpath : f ≠ path := by
          rintro rfl
          rw [hdel.file] at hf
          obtain rfl := Option.some.inj hf
          exact hentry rfl
        exact Or.inr ⟨f, hne, hlookup hpath hf, hlookup (hdirNe hparent hdel.dir) hparent, rfl⟩
    · rcases h.name hold hmem with hzero | ⟨f, hne, hf, hparent, rfl⟩
      · exact Or.inl hzero
      · have hpath : f ≠ path := by
          rintro rfl
          rw [hdel.parent] at hparent
          exact hd (Option.some.inj hparent).symm
        exact Or.inr ⟨f, hne, hlookup hpath hf, hlookup (hdirNe hparent hold) hparent, rfl⟩

/-- The symbol is available again. -/
theorem Symbols.deleted (h : Symbols s) (hnamed : Named s) {cells : List (Nat × Nat)}
    (hfile : s.nameToInodeMap.lookup path = some v) (hsymbol : s.symbolMap v = some symbol)
    (hused : symbol ∈ s.usedSymbols) :
    Symbols (afterDelete s path d v entries p cells symbol) := by
  have hother : ∀ {f w}, f ≠ path → s.nameToInodeMap.lookup f = some w → w ≠ v :=
    fun hne hf heq => hne (hnamed.inj (heq ▸ hf) hfile)
  constructor
  · have hperm : (s.usedSymbols.erase symbol ++ (s.availableSymbols ++ [symbol])).Perm
        (s.usedSymbols ++ s.availableSymbols) := by
      rw [← List.append_assoc]
      exact (List.perm_append_singleton _ _).trans
        ((List.perm_cons_erase hused).symm.append_right _)
    exact hperm.nodup_iff.mpr h.distinct
  · intro f w hf
    obtain ⟨hne, hf⟩ := lookup_erase_iff.mp hf
    have hw := hother hne hf
    obtain ⟨x, hx, hmap⟩ := h.symbol hf
    have hxne : x ≠ symbol := fun heq => hw (h.own hf hfile (by rw [hmap, hsymbol, heq]))
    exact ⟨x, (List.mem_erase_of_ne hxne).mpr hx, (Function.update_of_ne hw ..).trans hmap⟩
  · intro f f' w w' hf hf' heq
    obtain ⟨hne, hf⟩ := lookup_erase_iff.mp hf
    obtain ⟨hne', hf'⟩ := lookup_erase_iff.mp hf'
    change Function.update s.symbolMap _ _ w = Function.update s.symbolMap _ _ w' at heq
    rw [Function.update_of_ne (hother hne hf), Function.update_of_ne (hother hne' hf')] at heq
    exact h.own hf hf' heq

/-- A delete that frees the slot and the blocks of its file keeps the invariant, with nothing left
to the number that it frees. -/
theorem Represents.deleted (h : Represents c s blocks slots)
    (hdel : Deleting s path d v entries) (hp : slots v = [p])
    (hsymbol : s.symbolMap v = some symbol) (hused : symbol ∈ s.usedSymbols) :
    Represents c (afterDelete s path d v entries p (blocks v) symbol)
      (Function.update blocks v []) (Function.update slots v []) :=
  ⟨h.toStored.deleted h.toNamed hdel.file hp, h.toNamed.deleted hdel,
    h.toSymbols.deleted h.toNamed hdel.file hsymbol hused⟩

end Deleting

end OsLab.Ffs
