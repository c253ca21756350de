import OsLab.Ffs.Operations

/-!
# The accounting over whole runs

What `do_verify` checks holds in every state that is consistent, and commands keep a state
consistent: a create always does, a delete when it frees the cells of its own file. `do_delete`
divides by the number of groups where the cells were numbered with the size of a group, so this is a
condition.

* **`consistent_new`** -- `__init__` leaves a consistent file system.
* **`Represents.doVerify_ok`** -- no assertion of `do_verify` fails in a consistent state.
* **`FreesOwn`** -- the condition on a delete, which the state in front of it decides.
* **`Consistent.step`**, **`consistent_of_reachable`** -- the step and the run.
* **`accounted_of_reachable`**, **`not_accounted_delete`** -- the accounts over runs, and the delete
  that breaks them.
-/

namespace OsLab.Ffs

open Grid (Shape)

variable {c : Config} {s t : Fs} {cmd : Command}

/-! ## The file system `__init__` builds -/

/-- `__init__` marks the first cell; there must be one. -/
theorem setCell_first {rows cols : Nat} {mark : Option Int} {bitmap : Bitmap}
    (h : setCell (List.replicate rows (List.replicate cols none)) 0 0 mark = .ok bitmap) :
    Grid.get? (List.replicate rows (List.replicate cols (none : Option Int))) (0, 0) = some none ∧
      bitmap = Grid.put (List.replicate rows (List.replicate cols none)) (0, 0) mark := by
  have hfirst : Grid.get? (List.replicate rows (List.replicate cols (none : Option Int))) (0, 0) =
      some none := by
    cases rows with
    | zero => cases h
    | succ rows =>
      cases cols with
      | zero =>
        have hrow : item (List.replicate (rows + 1) (List.replicate 0 (none : Option Int))) 0 =
            .ok [] := item_natCast_eq_ok.mpr rfl
        unfold setCell at h
        rw [hrow] at h
        cases h
      | succ cols => rfl
  have hset := setCell_ok hfirst mark
  exact ⟨hfirst, Except.ok.inj (h.symm.trans hset)⟩

theorem get?_replicate {rows cols : Nat} {p : Nat × Nat} {o : Int} :
    Grid.get? (List.replicate rows (List.replicate cols (none : Option Int))) p ≠ some (some o) := by
  intro h
  obtain ⟨row, hrow, hcell⟩ := Grid.get?_eq_some.mp h
  rw [List.eq_of_mem_replicate (List.mem_of_getElem? hrow)] at hcell
  cases List.eq_of_mem_replicate (List.mem_of_getElem? hcell)

theorem initSymbols_nodup : initSymbols.Nodup := by
  apply List.Nodup.map
  · intro a b h
    exact List.singleton_injective h
  · decide

/-- `name_to_inode_map` of the new file system. -/
def rootNames : AList fun _ : Str => Int := AList.singleton ['/'] 0

/-- A new file system is consistent: the root has the first slot and the first block of its group,
and nobody else has anything. -/
theorem consistent_new (h : Fs.new c = .ok s) : Consistent c s := by
  unfold Fs.new at h
  obtain ⟨inodeBitmap, hinode, h⟩ := bind_eq_ok.mp h
  obtain ⟨dataBitmap, hdata, h⟩ := bind_eq_ok.mp h
  obtain ⟨hinodeFree, rfl⟩ := setCell_first hinode
  obtain ⟨hdataFree, rfl⟩ := setCell_first hdata
  -- the root takes the symbol `/`
  obtain rfl := Except.ok.inj h
  have hroot : ∀ {f v}, rootNames.lookup f = some v →
      f = ['/'] ∧ v = 0 := by
    intro f v hf
    by_cases hne : f = ['/']
    · subst hne
      exact ⟨rfl, (Option.some.inj hf).symm⟩
    · have hnone : rootNames.lookup f = none := by
        rw [AList.lookup_eq_none]
        exact fun hmem => hne (List.mem_singleton.mp hmem)
      rw [hnone] at hf
      cases hf
  have hzero : (0 : Int) = number c.inodesPerGroup (0, 0) := by simp [number]
  have hother : ∀ {v : Int}, (∀ f, rootNames.lookup f ≠ some v) → v ≠ 0 := by
    rintro v hv rfl
    exact hv ['/'] rfl
  have hdir : ∀ {d : Int} {entries : List (Str × Int)},
      Function.update (fun _ => none) 0 (some emptyDirectory) d = some entries →
        d = 0 ∧ entries = emptyDirectory := by
    intro d entries hd
    by_cases hd0 : d = 0
    · subst hd0
      rw [Function.update_self] at hd
      exact ⟨rfl, (Option.some.inj hd).symm⟩
    · rw [Function.update_of_ne hd0] at hd
      cases hd
  have hcount : ∀ {cols : Nat}, Grid.get? (List.replicate c.numGroups
      (List.replicate cols (none : Option Int))) (0, 0) = some none →
      Grid.count (·.isNone) (Grid.put (List.replicate c.numGroups (List.replicate cols none)) (0, 0)
        (some (0 : Int))) = cols * c.numGroups - 1 := by
    intro cols hfree
    have hput := Grid.count_put (f := (·.isNone)) hfree (some (0 : Int))
    rw [Grid.count_replicate rfl, Nat.mul_comm] at hput
    simp only [Option.isNone_none, Option.isNone_some, Bool.toNat_true, Bool.toNat_false] at hput
    omega
  refine ⟨Function.update (fun _ => []) 0 [(0, 0)], Function.update (fun _ => []) 0 [(0, 0)],
    ⟨?_, ?_, ?_, ?_, ?_, ?_, ?_, ?_, ?_, ?_⟩, ⟨?_, ?_, ?_, ?_, ?_, ?_, ?_, ?_⟩, ⟨?_, ?_, ?_⟩⟩
  · exact (Grid.shape_replicate _ _ _).put _ _
  · exact (Grid.shape_replicate _ _ _).put _ _
  · exact hcount hdataFree
  · exact hcount hinodeFree
  · exact (Ledger.empty fun _ _ => get?_replicate).take_one rfl hdataFree
  · exact (Ledger.empty fun _ _ => get?_replicate).take_one rfl hinodeFree
  · intro f v hf
    obtain ⟨_, rfl⟩ := hroot hf
    exact ⟨(0, 0), rfl, hzero⟩
  · intro v hv
    exact Function.update_of_ne (hother hv) ..
  · intro f v hf
    obtain ⟨_, rfl⟩ := hroot hf
    show some [(0 : Int)] = some [number c.blocksPerGroup (0, 0)]
    simp [number]
  · intro v hv
    exact Function.update_of_ne (hother hv) ..
  · rfl
  · rfl
  · intro f f' v hf hf'
    rw [(hroot hf).1, (hroot hf').1]
  · intro f v hf
    obtain ⟨_, rfl⟩ := hroot hf
    exact Or.inr ⟨rfl, emptyDirectory, rfl⟩
  · intro d entries hd
    obtain ⟨rfl, _⟩ := hdir hd
    exact ⟨['/'], rfl⟩
  · intro d entries hd
    obtain ⟨_, rfl⟩ := hdir hd
    decide
  · intro f v hne hf
    exact absurd (hroot hf).1 hne
  · intro d entries n v hd hmem
    obtain ⟨_, rfl⟩ := hdir hd
    simp only [emptyDirectory, List.mem_cons, Prod.mk.injEq, List.not_mem_nil, or_false] at hmem
    omega
  · have hperm : ([['/']] ++ initSymbols.erase ['/']).Perm initSymbols :=
      (List.perm_cons_erase (by decide)).symm
    exact hperm.nodup_iff.mpr initSymbols_nodup
  · intro f v hf
    obtain ⟨_, rfl⟩ := hroot hf
    exact ⟨['/'], List.mem_singleton_self _, rfl⟩
  · intro f f' v w hf hf' _
    rw [(hroot hf).2, (hroot hf').2]

/-! ## do_verify -/

/-- The loops of `do_verify` over a bitmap count its used cells, without an index out of range. -/
theorem countUsed_ok {rows cols : Nat} {bitmap : Bitmap} (hshape : Shape rows cols bitmap) :
    Fs.countUsed bitmap rows cols = .ok (Grid.count (·.isSome) bitmap) := by
  -- one group
  have hrows : ∀ (g : Nat) (row : List (Option Int)), bitmap[g]? = some row → ∀ used,
      ((List.range cols).foldlM (fun used (i : Nat) => do
        let mark ← cell bitmap g i
        return if mark.isSome then used + 1 else used) used : Except Abort Nat) =
        .ok (used + row.countP (·.isSome)) := by
    intro g row hrow used
    have hcells : ∀ (i : Nat) (mark : Option Int), row[i]? = some mark → ∀ used : Nat,
        (do let mark ← cell bitmap g i
            return if mark.isSome then used + 1 else used : Except Abort Nat) =
          .ok (if mark.isSome then used + 1 else used) := by
      intro i mark hi used
      rw [cell_eq_ok.mpr (Grid.get?_eq_some.mpr ⟨row, hrow, hi⟩)]
      rfl
    have hloop := foldlM_range_eq_ok hcells used
    rw [hshape.cols row (List.mem_of_getElem? hrow), foldl_count] at hloop
    exact hloop
  have hloop := foldlM_range_eq_ok hrows 0
  rw [hshape.rows] at hloop
  have hsum : ∀ n, bitmap.foldl (fun used row => used + row.countP (·.isSome)) n =
      n + Grid.count (·.isSome) bitmap := by
    clear hloop hrows hshape
    induction bitmap with
    | nil => simp
    | cons row bitmap ih =>
      intro n
      rw [List.foldl_cons, ih, Grid.count_cons]
      omega
  rw [hsum, Nat.zero_add] at hloop
  exact hloop

/-- No assertion of `do_verify` fails in a consistent state: the counters agree with the bitmaps,
and each listed block is marked for its file. -/
theorem Represents.doVerify_ok {blocks slots : Int → List (Nat × Nat)}
    (h : Represents c s blocks slots) : s.doVerify c = .ok () := by
  have htotal : ∀ {cols free : Nat} {bitmap : Bitmap}, Shape c.numGroups cols bitmap →
      Grid.count (·.isNone) bitmap = free →
      Grid.count (·.isSome) bitmap + free = c.numGroups * cols := by
    intro cols free bitmap hshape hfree
    have hsum := hshape.count_add_count (f := (·.isSome))
    have hnot : (fun mark : Option Int => !mark.isSome) = (·.isNone) := by
      funext mark
      cases mark <;> rfl
    rw [hnot] at hsum
    omega
  have hnames : (s.nameToInodeMap.entries.forM fun e => do
      let blocks ← lookup s.inodeBlocks e.2
      blocks.forM fun b => do
        let mark ← cell s.dataBitmap (b / c.blocksPerGroup) (b % c.blocksPerGroup)
        assert (mark = some e.2) "self.data_bitmap[data_group][data_index] == inode_number") =
      .ok () := by
    apply forM_eq_ok
    rintro ⟨f, v⟩ he
    have hlive : s.nameToInodeMap.lookup f = some v := AList.mem_lookup_iff.mpr he
    rw [Fs.lookup_eq_ok (h.listed hlive)]
    apply forM_eq_ok
    intro b hb
    obtain ⟨q, hq, rfl⟩ := List.mem_map.mp hb
    have hmark := (h.data.mark_iff v q).mp hq
    have hcol := (h.dataShape.lt_of_get? hmark).2
    rw [number_ediv hcol, number_emod hcol, cell_eq_ok.mpr hmark]
    show assert (decide (some v = some v)) _ = _
    rw [decide_eq_true rfl]
    rfl
  have hassert : ∀ {p : Prop} [Decidable p] (text : String), p → assert (decide p) text = .ok () :=
    fun text hp => congrArg (assert · text) (decide_eq_true hp)
  unfold Fs.doVerify
  simp only [bind, Except.bind, countUsed_ok h.dataShape, countUsed_ok h.inodeShape,
    hassert _ (htotal h.dataShape h.dataFree), hassert _ (htotal h.inodeShape h.inodesFree)]
  exact hnames

/-! ## Steps -/

/-- The arguments of the `do_create` that a command runs. -/
def Command.creates : Command → Option (Str × Nat × FileType)
  | file path size => some (path, size, .regular)
  | dir path => some (path, 1, .directory)
  | delete _ => none

/-- A `file` command asks for at least one block; a directory always has one. -/
def Command.Sized (cmd : Command) : Prop :=
  ∀ path size type, cmd.creates = some (path, size, type) → 1 ≤ size

/-- What makes a `delete` free the cells of its file: the regular file it finds lies at the same
group and index under both divisions, and its path is not the name of the root. -/
def FreesOwn (c : Config) (s : Fs) : Command → Prop
  | .file _ _ => True
  | .dir _ => True
  | .delete path => ∀ d entries v, s.nameToInodeMap.lookup (getParent path).1 = some d →
      s.dirData d = some entries → ((getParent path).2, v) ∈ entries →
      s.inodeType v = some .regular → path ≠ ['/'] ∧ Fs.SplitsAlike c s v

section Steps

variable {path : Str} {size fuel : Nat} {type : FileType} {rc : Int}

/-- A create that returns leaves the state alone or enters the new file. -/
theorem Represents.create_changes {blocks slots : Int → List (Nat × Nat)}
    (h : Represents c s blocks slots) (htype : type ≠ .empty)
    (halloc : ∀ d entries, Fs.Accepted s path size d entries → Fs.Allocates c s path size type)
    (hrun : s.doCreate c fuel path size type = .ok (some (rc, t))) :
    t = s ∨ ∃ d entries p cells symbol, Creating s path type d entries p cells ∧
      cells.length = size ∧ symbol ∈ s.availableSymbols ∧
      t = afterCreate c s path type d entries p cells symbol := by
  rcases Fs.create_cases s path size with
    hrejected | ⟨hinodes, hspace, d, hparent, hdir⟩ | ⟨d, entries, hacc⟩
  · rw [Fs.doCreate_rejected hrejected] at hrun
    cases hrun
    exact Or.inl rfl
  · -- the parent is a regular file
    rw [Fs.doCreate_notDirectory hinodes (Nat.not_lt.mpr hspace)
      (Fs.nameToInode_ne h.toStored hparent) (by rw [Fs.nameToInode_eq hparent, hdir])] at hrun
    cases hrun
  · have halloc := halloc d entries hacc
    by_cases hbad : path = ['/'] ∨ s.availableSymbols = []
    · obtain ⟨e, _, _, hall⟩ := Fs.doCreate_error h hacc htype halloc hbad
      rcases hall fuel with hnone | herror
      · rw [hnone] at hrun
        cases hrun
      · rw [herror] at hrun
        cases hrun
    · rw [not_or] at hbad
      obtain ⟨p, cells, symbol, _, hcr, hlength, hsymbol, _, hall⟩ :=
        Fs.doCreate_ok h hacc htype halloc hbad.1 hbad.2
      rcases hall fuel with hnone | hsame
      · rw [hnone] at hrun
        cases hrun
      · rw [hsame] at hrun
        cases hrun
        exact Or.inr ⟨d, entries, p, cells, symbol, hcr, hlength, hsymbol, rfl⟩

/-- A delete that returns and frees the cells of its own file leaves the state alone or takes the
file out. -/
theorem Represents.delete_changes {blocks slots : Int → List (Nat × Nat)}
    (h : Represents c s blocks slots) (hown : FreesOwn c s (.delete path))
    (hrun : s.doDelete c path = .ok (rc, t)) :
    t = s ∨ ∃ d entries v p symbol, Deleting s path d v entries ∧ slots v = [p] ∧
      s.symbolMap v = some symbol ∧ symbol ∈ s.usedSymbols ∧
      t = afterDelete s path d v entries p (blocks v) symbol := by
  rcases Fs.delete_cases h.toNamed path with
    hrefused | ⟨d, hparent, hdir⟩ | ⟨d, entries, v, hparent, hdir, hmem, hregular⟩
  · rw [Fs.doDelete_refused h hrefused] at hrun
    cases hrun
    exact Or.inl rfl
  · rw [Fs.doDelete_notDirectory h.toStored hparent hdir] at hrun
    cases hrun
  · obtain ⟨hpath, hsplit⟩ := hown d entries v hparent hdir hmem hregular
    obtain ⟨p, symbol, hp, hsymbol, hused, heq⟩ :=
      Fs.doDelete_found h hparent hdir hmem hregular hsplit
    rw [heq] at hrun
    by_cases hlive : (s.nameToInodeMap.lookup path).isSome = true
    · rw [if_neg (by simp [Option.isSome_iff_ne_none.mp hlive])] at hrun
      cases hrun
      have hdel := Fs.deleting_of_found h.toNamed hparent hdir hmem hregular hpath hlive
      exact Or.inr ⟨d, entries, v, p, symbol, hdel, hp, hsymbol, hused, rfl⟩
    · -- the entry belongs to a path spelled in another way
      rw [if_pos (by simpa using hlive)] at hrun
      cases hrun

/-- A create that returns keeps the invariant, whether it succeeds or is refused. -/
theorem Consistent.create (h : Consistent c s) (htype : type ≠ .empty)
    (halloc : ∀ d entries, Fs.Accepted s path size d entries → Fs.Allocates c s path size type)
    (hrun : s.doCreate c fuel path size type = .ok (some (rc, t))) : Consistent c t := by
  have hcons := h
  obtain ⟨blocks, slots, h⟩ := h
  rcases h.create_changes htype halloc hrun with
    rfl | ⟨d, entries, p, cells, symbol, hcr, _, hsymbol, rfl⟩
  · exact hcons
  · exact ⟨_, _, h.created hcr hsymbol⟩

/-- A delete that returns and frees the cells of its own file keeps the invariant. -/
theorem Consistent.delete (h : Consistent c s) (hown : FreesOwn c s (.delete path))
    (hrun : s.doDelete c path = .ok (rc, t)) : Consistent c t := by
  have hcons := h
  obtain ⟨blocks, slots, h⟩ := h
  rcases h.delete_changes hown hrun with
    rfl | ⟨d, entries, v, p, symbol, hdel, hp, hsymbol, hused, rfl⟩
  · exact hcons
  · exact ⟨_, _, h.deleted hdel hp hsymbol hused⟩

/-- A command that returns keeps the invariant, if its allocators work or it frees its own
cells. -/
theorem Consistent.step (h : Consistent c s)
    (halloc : ∀ path size type, cmd.creates = some (path, size, type) →
      ∀ d entries, Fs.Accepted s path size d entries → Fs.Allocates c s path size type)
    (hown : FreesOwn c s cmd) (hstep : (commands c).step s cmd t) : Consistent c t := by
  obtain ⟨fuel, rc, hrun⟩ := hstep
  cases cmd with
  | file path size => exact h.create (by decide) (halloc _ _ _ rfl) hrun
  | dir path => exact h.create (by decide) (halloc _ _ _ rfl) hrun
  | delete path =>
    obtain ⟨r, hdelete, hrun⟩ := bind_eq_ok.mp hrun
    cases hrun
    exact h.delete hown hdelete

end Steps

/-- With one group to a window and a positive contiguity policy, every state that sized commands
reach is consistent while each delete frees its own cells. -/
theorem consistent_of_reachable {P : Fs → Command → Prop} (hfar : c.allocateFaraway = 1)
    (hcontig : 1 ≤ c.contigAllocationPolicy)
    (hP : ∀ s cmd, P s cmd → cmd.Sized ∧ FreesOwn c s cmd)
    (h : ((commands c).restrict P).Reachable s) : Consistent c s := by
  apply h.invariant
  · intro s hinit
    exact consistent_new hinit
  · rintro s cmd t hs ⟨hcmd, hstep⟩
    obtain ⟨hsized, hown⟩ := hP s cmd hcmd
    have hcons := hs
    obtain ⟨_, _, hrep⟩ := hs
    refine hcons.step (fun path size type hcreates d entries hacc => ?_) hown hstep
    exact Fs.allocates_of_config hrep.toStored hfar hcontig hacc.inodes
      (hsized path size type hcreates) type

/-! ## Ownership -/

/-- `do_verify` passes, every used block is listed by one live file and every used inode slot
belongs to one live name. -/
structure Accounted (c : Config) (s : Fs) : Prop where
  verified : s.doVerify c = .ok ()
  block : ∀ (group index : Nat) (mark : Int), cell s.dataBitmap group index = .ok (some mark) →
    ∃! f, ∃ v numbers, s.nameToInodeMap.lookup f = some v ∧ s.inodeBlocks v = some numbers ∧
      (index + group * c.blocksPerGroup : Int) ∈ numbers
  inode : ∀ (group index : Nat) (mark : Int), cell s.inodeBitmap group index = .ok (some mark) →
    ∃! f, s.nameToInodeMap.lookup f = some (index + group * c.inodesPerGroup : Int)

/-- Who holds something is live. -/
theorem Stored.live_of_mem {blocks slots : Int → List (Nat × Nat)} {v : Int} {p : Nat × Nat}
    (h : Stored c s blocks slots) (hp : p ∈ blocks v ∨ p ∈ slots v) :
    ∃ f, s.nameToInodeMap.lookup f = some v := by
  by_contra hnone
  have hall : ∀ f, s.nameToInodeMap.lookup f ≠ some v := fun f hf => hnone ⟨f, hf⟩
  rw [h.noBlocks hall, h.noSlot hall] at hp
  simp at hp

/-- In a consistent state the accounts agree: cells are owned by live inodes, each by one. -/
theorem Represents.accounted {blocks slots : Int → List (Nat × Nat)}
    (h : Represents c s blocks slots) : Accounted c s := by
  refine ⟨h.doVerify_ok, fun group index mark hcell => ?_, fun group index mark hcell => ?_⟩
  · have hmark := cell_eq_ok.mp hcell
    have hcol := (h.dataShape.lt_of_get? hmark).2
    obtain ⟨v, hv, honly⟩ := h.data.existsUnique_holder hmark
    obtain ⟨f, hf⟩ := h.toStored.live_of_mem (Or.inl hv)
    refine ⟨f, ⟨v, _, hf, h.listed hf, List.mem_map_of_mem hv⟩, ?_⟩
    rintro f' ⟨v', numbers, hf', hlisted, hmem⟩
    -- the block number stands for this cell only
    rw [h.listed hf'] at hlisted
    obtain rfl := Option.some.inj hlisted
    obtain ⟨q, hq, hnumber⟩ := List.mem_map.mp hmem
    have hqcol := (h.dataShape.lt_of_get? ((h.data.mark_iff v' q).mp hq)).2
    obtain rfl : q = (group, index) := number_inj hqcol hcol hnumber
    obtain rfl : v' = v := honly v' hq
    exact h.inj hf' hf
  · have hmark := cell_eq_ok.mp hcell
    have hcol := (h.inodeShape.lt_of_get? hmark).2
    obtain ⟨v, hv, _⟩ := h.inodes.existsUnique_holder hmark
    obtain ⟨f, hf⟩ := h.toStored.live_of_mem (Or.inr hv)
    obtain ⟨q, hq, hnumber⟩ := h.slot hf
    obtain rfl : (group, index) = q := by
      rw [hq] at hv
      exact List.mem_singleton.mp hv
    rw [hnumber] at hf
    exact ⟨f, hf, fun f' hf' => h.inj hf' hf⟩

/-- **The accounts agree over whole runs.** As long as every delete frees the cells of its own file,
they do after every command. -/
theorem accounted_of_reachable (hfar : c.allocateFaraway = 1)
    (hcontig : 1 ≤ c.contigAllocationPolicy)
    (h : ((commands c).restrict fun s cmd => cmd.Sized ∧ FreesOwn c s cmd).Reachable s) :
    Accounted c s := by
  obtain ⟨_, _, hrep⟩ := consistent_of_reachable hfar hcontig (fun _ _ hcmd => hcmd) h
  exact hrep.accounted

/-- `groups` groups of `size` blocks and `size` inodes. -/
def squareConfig (groups size : Nat) : Config where
  numGroups := groups
  blocksPerGroup := size
  inodesPerGroup := size
  largeFileException := 0
  spreadInodes := false
  contigAllocationPolicy := 1
  spreadDataBlocks := false
  allocateFaraway := 1

/-- Where a group has as many blocks and inodes as there are groups, both divisions agree. -/
theorem splitsAlike_square (n : Nat) (s : Fs) (v : Int) :
    Fs.SplitsAlike (squareConfig n n) s v := by
  refine ⟨fun numbers _ b _ => ?_, rfl, rfl⟩
  exact ⟨rfl, rfl⟩

theorem accounted_of_reachable_square : ∃ s t, Fs.new (squareConfig 3 3) = .ok s ∧
    runCommands (squareConfig 3 3) 9 [.dir ['/', 'd'], .file ['/', 'd', '/', 'a'] 2,
      .file ['/', 'b'] 1, .delete ['/', 'd', '/', 'a']] s = .ok (some t) ∧
    Accounted (squareConfig 3 3) t := by
  have hrun : ∃ s t, Fs.new (squareConfig 3 3) = .ok s ∧
      runCommands (squareConfig 3 3) 9 [.dir ['/', 'd'], .file ['/', 'd', '/', 'a'] 2,
        .file ['/', 'b'] 1, .delete ['/', 'd', '/', 'a']] s = .ok (some t) :=
    ⟨_, _, rfl, rfl⟩
  obtain ⟨s, t, hinit, hrun⟩ := hrun
  have hcommands : ∀ cmd ∈ [Command.dir ['/', 'd'], .file ['/', 'd', '/', 'a'] 2,
      .file ['/', 'b'] 1, .delete ['/', 'd', '/', 'a']],
      ∀ s, cmd.Sized ∧ FreesOwn (squareConfig 3 3) s cmd := by
    simp [Command.Sized, Command.creates, FreesOwn, splitsAlike_square]
  have hreach := (run_of_runCommands hrun).restrict hcommands
  exact ⟨s, t, hinit, hrun,
    accounted_of_reachable rfl (by decide) ⟨s, _, hinit, hreach⟩⟩

/-- With 2 groups of 4, deleting the second file clears a cell of the other group. -/
theorem not_accounted_delete : ¬∀ (c : Config) (s : Fs), c.allocateFaraway = 1 →
    1 ≤ c.contigAllocationPolicy →
    ((commands c).restrict fun _ cmd => cmd.Sized).Reachable s → s.doVerify c = .ok () := by
  intro h
  have hrun : ∃ s t, Fs.new (squareConfig 2 4) = .ok s ∧
      runCommands (squareConfig 2 4) 9
        [.file ['/', 'a'] 1, .file ['/', 'b'] 1, .delete ['/', 'b']] s = .ok (some t) ∧
      t.doVerify (squareConfig 2 4) = .error (.assertionError
        "data_used + self.total_data_free == (self.num_groups * self.blocks_per_group)") :=
    ⟨_, _, rfl, rfl, rfl⟩
  obtain ⟨s, t, hinit, hrun, hverify⟩ := hrun
  have hsized : ∀ cmd ∈ [Command.file ['/', 'a'] 1, .file ['/', 'b'] 1, .delete ['/', 'b']],
      ∀ _ : Fs, cmd.Sized := by
    simp [Command.Sized, Command.creates]
  have hok := h (squareConfig 2 4) t rfl (by decide)
    ⟨s, _, hinit, (run_of_runCommands hrun).restrict hsized⟩
  rw [hverify] at hok
  cases hok

end OsLab.Ffs
