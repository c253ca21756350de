import OsLab.Ffs.Consistency

/-!
# Creating and deleting in a consistent state

A create that passes the checks of `do_create` comes down to `install`, which returns unless the
path is the root's or the symbols have run out. A delete that finds a regular file frees what its
two divisions point at.

* **`Rejected`**, **`Accepted`**, **`create_cases`** -- what the checks come to: -1, an abort below
  something that is no directory, or the call goes on.
* **`Allocates`**, **`place_eq`** -- what the allocators rely on, and what they leave to `install`.
* **`installed_eq`**, **`doCreate_ok`**, **`doCreate_error`** -- the last two checks, behind the
  allocation.
* **`SplitsAlike`**, **`clear_ok`** -- where both divisions put a cell in the same place.
* **`delete_cases`**, **`doDelete_found`** -- what a delete finds, and what it does with it.
-/

namespace OsLab.Ffs

open Grid (Shape)

namespace Fs

variable {c : Config} {s : Fs} {blocks slots : Int → List (Nat × Nat)} {path filename : Str}
  {type : FileType} {d v : Int} {entries : List (Str × Int)} {size : Nat} {p : Nat × Nat}
  {cells : List (Nat × Nat)}

/-! ## Symbols -/

/-- The symbol that `allocate_symbol` chooses when it has one: the one suggested if it is free, and
otherwise the first. -/
theorem allocateSymbol_ok (h : s.availableSymbols ≠ []) (v : Int) (suggestedName : Str) :
    ∃ symbol ∈ s.availableSymbols, s.allocateSymbol v suggestedName = .ok { s with
      usedSymbols := s.usedSymbols ++ [symbol]
      availableSymbols := s.availableSymbols.erase symbol
      symbolMap := Function.update s.symbolMap v (some symbol) } := by
  unfold allocateSymbol
  by_cases hsuggested : suggestedName ∉ s.usedSymbols ∧ suggestedName ∈ s.availableSymbols
  · rw [if_pos hsuggested]
    exact ⟨suggestedName, hsuggested.2, rfl⟩
  · rw [if_neg hsuggested]
    cases havailable : s.availableSymbols with
    | nil => exact absurd havailable h
    | cons symbol rest => exact ⟨symbol, List.mem_cons_self, rfl⟩

/-- Without a symbol the assertion of `allocate_symbol` fails. -/
theorem allocateSymbol_error (h : s.availableSymbols = []) (v : Int) (suggestedName : Str) :
    s.allocateSymbol v suggestedName =
      .error (.assertionError "len(self.available_symbols) > 0") := by
  unfold allocateSymbol
  rw [if_neg (by simp [h]), h]
  rfl

theorem freeSymbol_ok {symbol : Str} (hsymbol : s.symbolMap v = some symbol)
    (hused : symbol ∈ s.usedSymbols) : s.freeSymbol v = .ok { s with
      symbolMap := Function.update s.symbolMap v none
      usedSymbols := s.usedSymbols.erase symbol
      availableSymbols := s.availableSymbols ++ [symbol] } := by
  unfold freeSymbol lookup
  rw [hsymbol]
  show (if symbol ∈ s.usedSymbols then _ else _) = _
  rw [if_pos hused]
  rfl

theorem lookup_eq_ok {α : Type} {m : Int → Option α} {a : α} (h : m v = some a) :
    lookup m v = .ok a := by
  unfold lookup
  rw [h]

/-! ## create -/

/-- The checks at the start of `do_create` that end the call. -/
inductive Rejected (s : Fs) (path : Str) (size : Nat) : Prop where
  | inodes (h : s.totalInodesFree = 0)
  | space (h : s.totalDataFree < size)
  | parent (h : s.nameToInode (getParent path).1 = -1)
  | present (entries : List (Str × Int))
      (h : s.dirData (s.nameToInode (getParent path).1) = some entries)
      (hmem : ∃ e ∈ entries, e.1 = (getParent path).2)

/-- A create past its first three checks goes on to look for its parent and for the name. -/
theorem doCreate_passed (hinodes : s.totalInodesFree ≠ 0) (hspace : ¬s.totalDataFree < size)
    (hparent : s.nameToInode (getParent path).1 ≠ -1) (fuel : Nat) (type : FileType) :
    s.doCreate c fuel path size type = (do
      let entries ← lookup s.dirData (s.nameToInode (getParent path).1)
      if entries.any (·.1 = (getParent path).2) then return some (-1, s)
      s.place c fuel path (getParent path).1 (getParent path).2 size type
        (s.nameToInode (getParent path).1)) := by
  unfold doCreate
  dsimp only
  rw [if_neg hinodes, if_neg hspace, if_neg hparent]

theorem any_name {filename : Str} :
    entries.any (·.1 = filename) = true ↔ ∃ e ∈ entries, e.1 = filename := by
  simp only [List.any_eq_true, decide_eq_true_eq]

/-- A rejected create returns -1 and changes nothing. -/
theorem doCreate_rejected (h : Rejected s path size) (fuel : Nat) (type : FileType) :
    s.doCreate c fuel path size type = .ok (some (-1, s)) := by
  by_cases hinodes : s.totalInodesFree = 0
  · unfold doCreate
    dsimp only
    rw [if_pos hinodes]
    rfl
  by_cases hspace : s.totalDataFree < size
  · unfold doCreate
    dsimp only
    rw [if_neg hinodes, if_pos hspace]
    rfl
  by_cases hparent : s.nameToInode (getParent path).1 = -1
  · unfold doCreate
    dsimp only
    rw [if_neg hinodes, if_neg hspace, if_pos hparent]
    rfl
  cases h with
  | inodes h => exact absurd h hinodes
  | space h => exact absurd h hspace
  | parent h => exact absurd h hparent
  | present entries h hmem =>
    rw [doCreate_passed hinodes hspace hparent, lookup_eq_ok h]
    show (if entries.any (·.1 = (getParent path).2) = true then _ else _) = _
    rw [if_pos (any_name.mpr hmem)]
    rfl

/-- A create below something that is no directory aborts. -/
theorem doCreate_notDirectory (hinodes : s.totalInodesFree ≠ 0)
    (hspace : ¬s.totalDataFree < size) (hparent : s.nameToInode (getParent path).1 ≠ -1)
    (hdir : s.dirData (s.nameToInode (getParent path).1) = none) (fuel : Nat) (type : FileType) :
    s.doCreate c fuel path size type = .error .keyError := by
  rw [doCreate_passed hinodes hspace hparent]
  unfold lookup
  rw [hdir]
  rfl

theorem nameToInode_eq (h : s.nameToInodeMap.lookup path = some v) : s.nameToInode path = v := by
  unfold nameToInode
  rw [h]
  rfl

/-- The checks of `do_create` let the call through: `d` is the parent directory. -/
structure Accepted (s : Fs) (path : Str) (size : Nat) (d : Int) (entries : List (Str × Int)) :
    Prop where
  inodes : s.totalInodesFree ≠ 0
  space : size ≤ s.totalDataFree
  parent : s.nameToInodeMap.lookup (getParent path).1 = some d
  dir : s.dirData d = some entries
  new : ∀ e ∈ entries, e.1 ≠ (getParent path).2

theorem nameToInode_ne (h : Stored c s blocks slots) (hlive : s.nameToInodeMap.lookup path = some v) :
    s.nameToInode path ≠ -1 := by
  obtain ⟨p, _, hnumber⟩ := h.slot hlive
  have hnonneg := @number_nonneg c.inodesPerGroup p
  rw [nameToInode_eq hlive]
  omega

theorem doCreate_accepted (h : Stored c s blocks slots) (hacc : Accepted s path size d entries)
    (fuel : Nat) (type : FileType) : s.doCreate c fuel path size type =
      s.place c fuel path (getParent path).1 (getParent path).2 size type d := by
  have hany : entries.any (·.1 = (getParent path).2) = false := by
    rw [Bool.eq_false_iff]
    intro hmem
    obtain ⟨e, he, heq⟩ := any_name.mp hmem
    exact hacc.new e he heq
  rw [doCreate_passed hacc.inodes (Nat.not_lt.mpr hacc.space) (nameToInode_ne h hacc.parent),
    nameToInode_eq hacc.parent, lookup_eq_ok hacc.dir]
  show (if entries.any (·.1 = (getParent path).2) = true then _ else _) = _
  rw [hany]
  rfl

/-- What the checks of `do_create` come to: a refusal, a parent that is no directory, or a call that
is let through. -/
theorem create_cases (s : Fs) (path : Str) (size : Nat) :
    Rejected s path size ∨
      (s.totalInodesFree ≠ 0 ∧ size ≤ s.totalDataFree ∧
        ∃ d, s.nameToInodeMap.lookup (getParent path).1 = some d ∧ s.dirData d = none) ∨
      ∃ d entries, Accepted s path size d entries := by
  by_cases hinodes : s.totalInodesFree = 0
  · exact Or.inl (.inodes hinodes)
  by_cases hspace : s.totalDataFree < size
  · exact Or.inl (.space hspace)
  cases hparent : s.nameToInodeMap.lookup (getParent path).1 with
  | none =>
    refine Or.inl (.parent ?_)
    unfold nameToInode
    rw [hparent]
    rfl
  | some d =>
    cases hdir : s.dirData d with
    | none => exact Or.inr (Or.inl ⟨hinodes, by omega, d, rfl, hdir⟩)
    | some entries =>
      by_cases hmem : ∃ e ∈ entries, e.1 = (getParent path).2
      · refine Or.inl (.present entries ?_ hmem)
        rw [nameToInode_eq hparent]
        exact hdir
      · refine Or.inr (Or.inr ⟨d, entries, hinodes, by omega, hparent, hdir, fun e he heq => ?_⟩)
        exact hmem ⟨e, he, heq⟩

/-- The contiguity policy asks for at least one block, or the scan meets free blocks only. -/
def ContigOk (c : Config) (s : Fs) (path : Str) (size : Nat) (type : FileType) : Prop :=
  1 ≤ c.contigAllocationPolicy ∨ ∀ (group : Int) (t : Nat),
    s.pickGroup c (getParent path).1 type = .ok group → s.destBlockGroup c group = .ok (t : Int) →
      ScanClear c s.dataBitmap t size

/-- What `pick_group` and `allocate_blocks` rely on: some block is asked for, the search for a group
ends at one with a free inode, and so does the search for blocks at a free block. -/
structure Allocates (c : Config) (s : Fs) (path : Str) (size : Nat) (type : FileType) : Prop where
  positive : 1 ≤ size
  window : type = .regular ∧ c.spreadInodes = false ∨ WindowOk c s
  contig : ContigOk c s path size type

/-- A geometry with one group to a window and a positive contiguity policy serves every create that
asks for a block. -/
theorem allocates_of_config (h : Stored c s blocks slots) (hfar : c.allocateFaraway = 1)
    (hcontig : 1 ≤ c.contigAllocationPolicy) (hinodes : s.totalInodesFree ≠ 0)
    (hsize : 1 ≤ size) (type : FileType) : Allocates c s path size type where
  positive := hsize
  window := by
    have hfree := h.inodesFree
    exact Or.inr (windowOk_one h.inodeShape (by omega) hfar)
  contig := Or.inl hcontig

/-- `install` after the blocks `cells` were marked for the inode in slot `p`. -/
def installed (c : Config) (s : Fs) (path : Str) (size : Nat) (type : FileType) (d : Int)
    (p : Nat × Nat) (cells : List (Nat × Nat)) : Except Abort (Option (Int × Fs)) := do
  let t ← { s with
    dataBitmap := Grid.putAll s.dataBitmap cells (some (number c.inodesPerGroup p)) }.install c path
      (getParent path).2 size type d p.1 p.2 (cells.map fun q : Nat × Nat => ((q.1 : Int), q.2))
  return some (0, t)

/-- A create past its checks finds a free inode and allocates its blocks; what is left is
`install`. -/
theorem place_eq (h : Stored c s blocks slots) (hacc : Accepted s path size d entries)
    (htype : type ≠ .empty) (halloc : Allocates c s path size type) :
    ∃ (p : Nat × Nat) (cells : List (Nat × Nat)) (enough : Nat),
      Grid.get? s.inodeBitmap p = some none ∧ cells.Nodup ∧
      (∀ q ∈ cells, Grid.get? s.dataBitmap q = some none) ∧ cells.length = size ∧
      s.place c enough path (getParent path).1 (getParent path).2 size type d =
        installed c s path size type d p cells ∧
      ∀ fuel, s.place c fuel path (getParent path).1 (getParent path).2 size type d = .ok none ∨
        s.place c fuel path (getParent path).1 (getParent path).2 size type d =
          installed c s path size type d p cells := by
  have hinodesFree := h.inodesFree
  have hdataFree := h.dataFree
  have hinodes := hacc.inodes
  have hspace := hacc.space
  have hsize := halloc.positive
  -- the group of the parent
  obtain ⟨q, hq, hnumber⟩ := h.slot hacc.parent
  have hmark := (h.inodes.mark_iff d q).mp (hq ▸ List.mem_singleton_self q)
  obtain ⟨hrow, hcol⟩ := h.inodeShape.lt_of_get? hmark
  have hgroup : s.nameToInode (getParent path).1 / c.inodesPerGroup = (q.1 : Int) := by
    rw [nameToInode_eq hacc.parent, hnumber]
    exact number_ediv hcol
  obtain ⟨g, hg, hpick, hroom⟩ :=
    pickGroup_ok h.inodeShape (by omega) hrow hgroup htype halloc.window
  obtain ⟨i, hi, hfind, hslot⟩ := findFreeInode_ok h.inodeShape hg hroom
  -- the group to start from
  obtain ⟨t, ht, hdest⟩ : ∃ t < c.numGroups, s.destBlockGroup c g = .ok (t : Int) := by
    unfold destBlockGroup
    by_cases hspread : c.spreadDataBlocks = true
    · rw [if_pos hspread]
      exact findMinDataUsage_ok h.dataShape (by omega)
    · rw [if_neg hspread]
      exact ⟨g, hg, rfl⟩
  obtain ⟨enough, cells, hblocks, hnodup, hfree, hlen⟩ :=
    allocateBlocks_ok h.dataShape ht hsize (by omega) h.dataFree
      (halloc.contig.imp_right fun hclear => hclear g t hpick hdest)
      (number c.inodesPerGroup (g, i))
  -- `place` after its searches: the scan for blocks decides
  have hmore : ∀ fuel, s.allocateBlocks c fuel t size (number c.inodesPerGroup (g, i)) = .ok none →
      s.place c fuel path (getParent path).1 (getParent path).2 size type d = .ok none := by
    intro fuel hr
    change s.allocateBlocks c fuel t size ((i : Int) + (g : Int) * c.inodesPerGroup) = .ok none at hr
    unfold place
    simp only [bind, Except.bind, hpick, hfind, hdest, hr, pure, Except.pure]
  have hinstall : ∀ fuel, s.allocateBlocks c fuel t size (number c.inodesPerGroup (g, i)) =
      .ok (some (cells.map fun p : Nat × Nat => ((p.1 : Int), p.2), { s with
        dataBitmap := Grid.putAll s.dataBitmap cells (some (number c.inodesPerGroup (g, i))) })) →
      s.place c fuel path (getParent path).1 (getParent path).2 size type d =
        installed c s path size type d (g, i) cells := by
    intro fuel hr
    have hlength : ¬(cells.map fun p : Nat × Nat => ((p.1 : Int), p.2)).length = 0 := by
      rw [List.length_map]
      omega
    change s.allocateBlocks c fuel t size ((i : Int) + (g : Int) * c.inodesPerGroup) = _ at hr
    unfold place installed
    simp only [bind, Except.bind, hpick, hfind, hdest, hr, if_neg hlength, pure, Except.pure]
  refine ⟨(g, i), cells, enough, hslot, hnodup, hfree, hlen, hinstall enough hblocks, fun fuel => ?_⟩
  rcases allocateBlocks_unique hblocks fuel with hnone | hsame
  · exact Or.inl (hmore fuel hnone)
  · exact Or.inr (hinstall fuel hsame)

/-- The state in which `install` asks for a symbol. -/
def unsymboled (c : Config) (s : Fs) (path : Str) (type : FileType) (d : Int)
    (entries : List (Str × Int)) (p : Nat × Nat) (cells : List (Nat × Nat)) : Fs :=
  { s with
    dataBitmap := Grid.putAll s.dataBitmap cells (some (number c.inodesPerGroup p))
    inodeBitmap := Grid.put s.inodeBitmap p (some (number c.inodesPerGroup p))
    dirData := Function.update s.dirData d
      (some (entries ++ [((getParent path).2, number c.inodesPerGroup p)]))
    inodeType := Function.update s.inodeType (number c.inodesPerGroup p) (some type)
    inodeBlocks := Function.update s.inodeBlocks (number c.inodesPerGroup p)
      (some (cells.map (number c.blocksPerGroup)))
    nameToInodeMap := s.nameToInodeMap.insert path (number c.inodesPerGroup p) }

/-- `install` up to its last two checks: the name, then the symbol. -/
theorem installed_eq (hslot : Grid.get? s.inodeBitmap p = some none)
    (hdir : s.dirData d = some entries) :
    installed c s path size type d p cells =
      if (s.nameToInodeMap.lookup path).isSome then .error .exit
      else do
        let t ← (unsymboled c s path type d entries p cells).allocateSymbol
          (number c.inodesPerGroup p) (getParent path).2
        return some (0, (t.fill type (number c.inodesPerGroup p)).account size) := by
  have hblocks : (cells.map fun q : Nat × Nat => ((q.1 : Int), q.2)).map
      (fun b : Int × Nat => b.2 + b.1 * c.blocksPerGroup) = cells.map (number c.blocksPerGroup) := by
    rw [List.map_map]
    rfl
  -- the steps before the name is entered
  have hmarked : ∀ t : Fs, t.inodeBitmap = s.inodeBitmap → t.markInodeUsed c p.1 p.2 =
      .ok { t with inodeBitmap := Grid.put t.inodeBitmap p (some (number c.inodesPerGroup p)) } := by
    intro t ht
    have hset := setCell_ok (ht ▸ hslot) (some (number c.inodesPerGroup p))
    unfold markInodeUsed
    show (setCell t.inodeBitmap p.1 p.2 (some (number c.inodesPerGroup p)) >>= _) = _
    rw [hset]
    rfl
  have hmark := hmarked { s with
    dataBitmap := Grid.putAll s.dataBitmap cells (some (number c.inodesPerGroup p)) } rfl
  unfold installed install
  simp only [bind, Except.bind, hmark, lookup_eq_ok hdir]
  unfold setNameToInode enter
  rw [hblocks]
  by_cases hpath : (s.nameToInodeMap.lookup path).isSome = true
  · simp only [if_pos hpath]
  · simp only [if_neg hpath]
    show (((unsymboled c s path type d entries p cells).allocateSymbol
        (number c.inodesPerGroup p) (getParent path).2 >>= fun t =>
          (.ok ((t.fill type (number c.inodesPerGroup p)).account size) : Except Abort Fs)) >>=
      fun t => (.ok (some (0, t)) : Except Abort (Option (Int × Fs)))) = _
    cases (unsymboled c s path type d entries p cells).allocateSymbol
      (number c.inodesPerGroup p) (getParent path).2 <;> rfl

/-- `install` leaves the state of a create, with one of the symbols that were available. -/
theorem installed_ok (hnamed : Named s) (hcr : Creating s path type d entries p cells)
    (hlen : cells.length = size) (hsymbols : s.availableSymbols ≠ []) :
    ∃ symbol ∈ s.availableSymbols, installed c s path size type d p cells =
      .ok (some (0, afterCreate c s path type d entries p cells symbol)) := by
  obtain ⟨symbol, hmem, hsymbol⟩ := @allocateSymbol_ok (unsymboled c s path type d entries p cells)
    hsymbols (number c.inodesPerGroup p) (getParent path).2
  refine ⟨symbol, hmem, ?_⟩
  rw [installed_eq hcr.slot hcr.dir, hnamed.not_mem hcr, hsymbol]
  unfold afterCreate account fill
  rw [hlen]
  by_cases htype : type = .directory
  · simp only [if_pos htype]
    rfl
  · simp only [if_neg htype]
    rfl

/-- `install` aborts on the name of the root, or without a symbol. -/
theorem installed_error (hnamed : Named s) (hslot : Grid.get? s.inodeBitmap p = some none)
    (hdir : s.dirData d = some entries) (h : path = ['/'] ∨ s.availableSymbols = []) :
    ∃ e, installed c s path size type d p cells = .error e := by
  rw [installed_eq hslot hdir]
  by_cases hpath : (s.nameToInodeMap.lookup path).isSome = true
  · rw [if_pos hpath]
    exact ⟨_, rfl⟩
  · rcases h with rfl | hsymbols
    · -- the root is in the map
      rw [hnamed.root] at hpath
      exact absurd rfl hpath
    · have herror := @allocateSymbol_error (unsymboled c s path type d entries p cells) hsymbols
        (number c.inodesPerGroup p) (getParent path).2
      rw [if_neg hpath, herror]
      exact ⟨_, rfl⟩

/-- A create that passes its checks and whose path is not the root's returns 0, as long as there
are symbols. -/
theorem doCreate_ok (h : Represents c s blocks slots) (hacc : Accepted s path size d entries)
    (htype : type ≠ .empty) (halloc : Allocates c s path size type) (hpath : path ≠ ['/'])
    (hsymbols : s.availableSymbols ≠ []) :
    ∃ p cells symbol enough, Creating s path type d entries p cells ∧ cells.length = size ∧
      symbol ∈ s.availableSymbols ∧
      s.doCreate c enough path size type =
        .ok (some (0, afterCreate c s path type d entries p cells symbol)) ∧
      ∀ fuel, s.doCreate c fuel path size type = .ok none ∨
        s.doCreate c fuel path size type =
          .ok (some (0, afterCreate c s path type d entries p cells symbol)) := by
  obtain ⟨p, cells, enough, hslot, hnodup, hfree, hlen, henough, hall⟩ :=
    place_eq h.toStored hacc htype halloc
  have hcr : Creating s path type d entries p cells :=
    ⟨hpath, hacc.parent, hacc.dir, hacc.new, htype, hslot, hnodup, hfree⟩
  obtain ⟨symbol, hsymbol, hinstalled⟩ := installed_ok h.toNamed hcr hlen hsymbols
  refine ⟨p, cells, symbol, enough, hcr, hlen, hsymbol, ?_, fun fuel => ?_⟩
  · rw [doCreate_accepted h.toStored hacc, henough, hinstalled]
  · rw [doCreate_accepted h.toStored hacc]
    exact (hall fuel).imp_right fun heq => heq.trans hinstalled

/-- After the blocks are allocated the create aborts on the name of the root, or without a
symbol. -/
theorem doCreate_error (h : Represents c s blocks slots) (hacc : Accepted s path size d entries)
    (htype : type ≠ .empty) (halloc : Allocates c s path size type)
    (hbad : path = ['/'] ∨ s.availableSymbols = []) :
    ∃ e enough, s.doCreate c enough path size type = .error e ∧
      ∀ fuel, s.doCreate c fuel path size type = .ok none ∨
        s.doCreate c fuel path size type = .error e := by
  obtain ⟨p, cells, enough, hslot, _, _, _, henough, hall⟩ :=
    place_eq h.toStored hacc htype halloc
  obtain ⟨e, hinstalled⟩ := installed_error h.toNamed hslot hacc.dir hbad
  refine ⟨e, enough, ?_, fun fuel => ?_⟩
  · rw [doCreate_accepted h.toStored hacc, henough, hinstalled]
  · rw [doCreate_accepted h.toStored hacc]
    exact (hall fuel).imp_right fun heq => heq.trans hinstalled

/-! ## delete -/

/-- `do_delete` divides by the number of groups where `do_create` works with the size of a group;
for the blocks and the inode of `v` it makes no difference. -/
def SplitsAlike (c : Config) (s : Fs) (v : Int) : Prop :=
  (∀ numbers, s.inodeBlocks v = some numbers → ∀ b ∈ numbers,
    b / c.numGroups = b / c.blocksPerGroup ∧ b % c.numGroups = b % c.blocksPerGroup) ∧
  v / c.numGroups = v / c.inodesPerGroup ∧ v % c.numGroups = v % c.inodesPerGroup

/-- Clearing cells by their numbers, where both divisions agree on each: the cells are free, and no
other has changed. -/
theorem clear_ok {cols : Nat} {ps : List (Nat × Nat)} {bitmap : Bitmap}
    (hps : ∀ q ∈ ps, q.2 < cols ∧ ∃ mark, Grid.get? bitmap q = some mark)
    (hsplit : ∀ b ∈ ps.map (number cols), b / c.numGroups = b / cols ∧ b % c.numGroups = b % cols) :
    (ps.map (number cols)).foldlM
      (fun bitmap b => setCell bitmap (b / c.numGroups) (b % c.numGroups) none) bitmap =
      .ok (Grid.putAll bitmap ps none) := by
  induction ps generalizing bitmap with
  | nil => rfl
  | cons q ps ih =>
    rw [List.forall_mem_cons] at hps
    rw [List.map_cons, List.forall_mem_cons] at hsplit
    obtain ⟨⟨hcol, mark, hmark⟩, hps⟩ := hps
    obtain ⟨⟨hdiv, hmod⟩, hsplit⟩ := hsplit
    rw [List.map_cons, List.foldlM_cons, hdiv, hmod, number_ediv hcol, number_emod hcol,
      setCell_ok hmark]
    refine ih (fun r hr => ⟨(hps r hr).1, ?_⟩) hsplit
    rw [Grid.get?_put hmark]
    split
    · exact ⟨none, rfl⟩
    · exact (hps r hr).2

theorem find?_name {n : Str} (hnodup : (entries.map Prod.fst).Nodup) (hmem : (n, v) ∈ entries) :
    entries.find? (·.1 = n) = some (n, v) := by
  cases hfound : entries.find? (·.1 = n) with
  | none =>
    have hnot := List.find?_eq_none.mp hfound _ hmem
    simp at hnot
  | some e =>
    have hname : e.1 = n := by simpa using List.find?_some hfound
    have heq := List.inj_on_of_nodup_map hnodup (List.mem_of_find?_eq_some hfound) hmem hname
    rw [heq]

/-- A delete that finds nothing, or a directory, returns -1 and changes nothing. -/
theorem doDelete_refused (h : Represents c s blocks slots)
    (hrefused : s.nameToInodeMap.lookup (getParent path).1 = none ∨
      ∃ d entries, s.nameToInodeMap.lookup (getParent path).1 = some d ∧
        s.dirData d = some entries ∧ ∀ v, ((getParent path).2, v) ∈ entries →
          s.inodeType v = some .directory) : s.doDelete c path = .ok (-1, s) := by
  unfold doDelete
  dsimp only
  rcases hrefused with hnone | ⟨d, entries, hparent, hdir, hall⟩
  · have hminus : s.nameToInode (getParent path).1 = -1 := by
      unfold nameToInode
      rw [hnone]
      rfl
    rw [if_pos hminus]
    rfl
  · rw [if_neg (nameToInode_ne h.toStored hparent), nameToInode_eq hparent]
    simp only [bind, Except.bind, lookup_eq_ok hdir]
    cases hfound : entries.find? (·.1 = (getParent path).2) with
    | none => rfl
    | some e =>
      have hname : e.1 = (getParent path).2 := by simpa using List.find?_some hfound
      have hmem : ((getParent path).2, e.2) ∈ entries := by
        rw [← hname]
        exact List.mem_of_find?_eq_some hfound
      obtain ⟨name, v⟩ := e
      dsimp only
      rw [lookup_eq_ok (hall v hmem)]
      rfl

/-- A delete that finds a regular file, up to the removal of the name: it clears the cells that its
own divisions name. -/
theorem doDelete_found (h : Represents c s blocks slots)
    (hparent : s.nameToInodeMap.lookup (getParent path).1 = some d)
    (hdir : s.dirData d = some entries) (hmem : ((getParent path).2, v) ∈ entries)
    (hregular : s.inodeType v = some .regular) (hsplit : SplitsAlike c s v) :
    ∃ p symbol, slots v = [p] ∧ s.symbolMap v = some symbol ∧ symbol ∈ s.usedSymbols ∧
      s.doDelete c path = if (s.nameToInodeMap.lookup path).isNone then .error .keyError
        else .ok (0, afterDelete s path d v entries p (blocks v) symbol) := by
  -- the entry names a live file
  obtain ⟨f, hf⟩ : ∃ f, s.nameToInodeMap.lookup f = some v := by
    rcases h.name hdir hmem with rfl | ⟨f, _, hf, _⟩
    · exact ⟨_, h.root⟩
    · exact ⟨f, hf⟩
  obtain ⟨p, hp, hnumber⟩ := h.slot hf
  obtain ⟨symbol, hused, hsymbol⟩ := h.symbol hf
  have hlisted := h.listed hf
  obtain ⟨hblocks, hdiv, hmod⟩ := hsplit
  refine ⟨p, symbol, hp, hsymbol, hused, ?_⟩
  have hmark := (h.inodes.mark_iff v p).mp (hp ▸ List.mem_singleton_self p)
  have hcol := (h.inodeShape.lt_of_get? hmark).2
  have hcells : ∀ q ∈ blocks v, q.2 < c.blocksPerGroup ∧
      ∃ mark, Grid.get? s.dataBitmap q = some mark := by
    intro q hq
    have hcell := (h.data.mark_iff v q).mp hq
    exact ⟨(h.dataShape.lt_of_get? hcell).2, _, hcell⟩
  have hclear := clear_ok hcells (hblocks _ hlisted)
  have hinode : setCell s.inodeBitmap (v / c.numGroups) (v % c.numGroups) none =
      .ok (Grid.put s.inodeBitmap p none) := by
    rw [hdiv, hmod, hnumber, number_ediv hcol, number_emod hcol]
    exact setCell_ok hmark none
  -- the symbol is freed in the state with the cells cleared
  have hfree := @freeSymbol_ok { s with
    dirData := Function.update s.dirData d (some (entries.erase ((getParent path).2, v)))
    dataBitmap := Grid.putAll s.dataBitmap (blocks v) none
    inodeBitmap := Grid.put s.inodeBitmap p none } v symbol hsymbol hused
  have hremove : s.remove c path (getParent path).2 d v entries =
      if (s.nameToInodeMap.lookup path).isNone then .error .keyError
      else .ok (0, afterDelete s path d v entries p (blocks v) symbol) := by
    unfold remove afterDelete
    simp only [bind, Except.bind, lookup_eq_ok hlisted, hclear, hinode, hfree, List.length_map]
    rfl
  unfold doDelete
  dsimp only
  rw [if_neg (nameToInode_ne h.toStored hparent), nameToInode_eq hparent]
  simp only [bind, Except.bind, lookup_eq_ok hdir, find?_name (h.toNamed.nodup hdir) hmem,
    lookup_eq_ok hregular, hremove]
  rfl

/-- A delete below something that is no directory aborts. -/
theorem doDelete_notDirectory (h : Stored c s blocks slots)
    (hparent : s.nameToInodeMap.lookup (getParent path).1 = some d) (hdir : s.dirData d = none) :
    s.doDelete c path = .error .keyError := by
  unfold doDelete
  dsimp only
  rw [if_neg (nameToInode_ne h hparent), nameToInode_eq hparent]
  unfold lookup
  rw [hdir]
  rfl

/-- What a delete finds: nothing or a directory, a parent that is no directory, or a regular
file. -/
theorem delete_cases (h : Named s) (path : Str) :
    (s.nameToInodeMap.lookup (getParent path).1 = none ∨
      ∃ d entries, s.nameToInodeMap.lookup (getParent path).1 = some d ∧
        s.dirData d = some entries ∧ ∀ v, ((getParent path).2, v) ∈ entries →
          s.inodeType v = some .directory) ∨
      (∃ d, s.nameToInodeMap.lookup (getParent path).1 = some d ∧ s.dirData d = none) ∨
      ∃ d entries v, s.nameToInodeMap.lookup (getParent path).1 = some d ∧
        s.dirData d = some entries ∧ ((getParent path).2, v) ∈ entries ∧
          s.inodeType v = some .regular := by
  cases hparent : s.nameToInodeMap.lookup (getParent path).1 with
  | none => exact Or.inl (Or.inl rfl)
  | some d =>
    cases hdir : s.dirData d with
    | none => exact Or.inr (Or.inl ⟨d, rfl, hdir⟩)
    | some entries =>
      by_cases hregular : ∃ v, ((getParent path).2, v) ∈ entries ∧ s.inodeType v = some .regular
      · obtain ⟨v, hmem, hregular⟩ := hregular
        exact Or.inr (Or.inr ⟨d, entries, v, rfl, hdir, hmem, hregular⟩)
      · refine Or.inl (Or.inr ⟨d, entries, rfl, hdir, fun v hmem => ?_⟩)
        -- a live inode that is not regular is a directory
        rcases h.name hdir hmem with rfl | ⟨f, _, hf, _⟩
        · exact h.rootType
        · rcases h.typed hf with ⟨hreg, _⟩ | ⟨hdirectory, _⟩
          · exact absurd ⟨v, hmem, hreg⟩ hregular
          · exact hdirectory

/-- The file that a delete finds under its own name. -/
theorem deleting_of_found (h : Named s)
    (hparent : s.nameToInodeMap.lookup (getParent path).1 = some d)
    (hdir : s.dirData d = some entries) (hmem : ((getParent path).2, v) ∈ entries)
    (hregular : s.inodeType v = some .regular) (hpath : path ≠ ['/'])
    (hlive : (s.nameToInodeMap.lookup path).isSome = true) : Deleting s path d v entries := by
  obtain ⟨w, hw⟩ := Option.isSome_iff_exists.mp hlive
  obtain ⟨d', entries', hparent', hdir', hmem'⟩ := h.entry hpath hw
  rw [hparent] at hparent'
  obtain rfl := Option.some.inj hparent'
  rw [hdir] at hdir'
  obtain rfl := Option.some.inj hdir'
  -- one entry for the name
  have heq := List.inj_on_of_nodup_map (h.nodup hdir) hmem hmem' rfl
  obtain rfl : v = w := congrArg Prod.snd heq
  exact ⟨hpath, hw, hregular, hparent, hdir, hmem⟩

end Fs

end OsLab.Ffs
