import Mathlib.Algebra.BigOperators.Group.Finset.Piecewise
import Mathlib.Algebra.Order.BigOperators.Group.Finset
import OsLab.Lfs.Reading
import OsLab.Lfs.Tree

/-!
# What holds of an LFS whatever the paths are

A run may enter the marker of a free slot as a name, and then a later entry overwrites it. Still
every number in use leads to an inode, directories can be read, an entry names a number in use, and
a file has at least as many references as entries. So no operation aborts but in a walk.

* **`LFS.naming`**, **`LiveAt`**, **`Counted`**, **`Valid`** -- the invariant, with an inequality
  where the consistent file system has an equation.
* **`Update`**, **`Update.valid`** -- the directory `p` and the number `i` are remapped: what there
  is to check.
* **`DirRead`**, **`DirRead.createFile`**, **`DirRead.link`**, **`DirRead.removeLast`**,
  **`DirRead.removeMore`** -- a directory that has been read, and each operation on it.
* **`Valid.run`**, **`valid_reachable`** -- the step and the run.
-/

namespace OsLab.Lfs

open LFS

/-- How many slots of live directories name `i`. -/
def LFS.naming (s : LFS) (i : Inum) : Nat := ∑ d : Inum, (s.slots d).countP fun e => e.2 = some i

/-- Number `i` leads to `inode`, which can be read. -/
structure LiveAt (s : LFS) (i : Inum) (inode : Inode) : Prop where
  inodeOf : s.inodeOf i = some inode
  dir : inode.type = .directory → ∃ addrs blocks, DirBlocks s.disk inode addrs blocks

/-- A number that no entry of its own accounts for is a file with spare references. -/
structure Counted (s : LFS) (i : Inum) : Prop where
  free : s.inodeMap i = none → s.naming i = 0
  refs : ∀ inode, s.inodeOf i = some inode → inode.type = .regular → s.naming i ≤ inode.refs

structure Valid (s : LFS) : Prop where
  inMemory : s.useDiskCr = false
  checkpoint : HasCheckpoint s.disk
  root : s.isDir ROOT_INODE = true
  live : ∀ i, s.inodeMap i ≠ none → ∃ inode, LiveAt s i inode
  counted : ∀ i, Counted s i

/-! ## Reading -/

section Reading

variable {s t : LFS} {i j d p : Inum} {inode : Inode}

theorem isDir_eq_true : s.isDir i = true ↔ ∃ inode, s.inodeOf i = some inode ∧
    inode.type = .directory := by
  unfold isDir
  cases s.inodeOf i <;> simp

theorem slots_regular (hi : s.inodeOf i = some inode) (htype : inode.type = .regular) :
    s.slots i = [] := by
  unfold slots
  rw [hi]
  obtain ⟨type, size, refs, pointers⟩ := inode
  obtain rfl : type = .regular := htype
  rfl

theorem slots_none (hi : s.inodeOf i = none) : s.slots i = [] := by
  unfold slots
  rw [hi]

/-- The slots of a directory that can be read are those of its blocks. -/
theorem slots_dir {addrs : List Nat} {blocks : List (List Slot)} (hi : s.inodeOf i = some inode)
    (htype : inode.type = .directory) (h : DirBlocks s.disk inode addrs blocks) :
    s.slots i = blocks.flatten := by
  unfold slots
  rw [hi]
  obtain ⟨type, size, refs, pointers⟩ := inode
  obtain rfl : type = .directory := htype
  exact h.slots_eq

theorem inodeOf_free (hi : s.inodeMap i = none) : s.inodeOf i = none := by
  cases hinode : s.inodeOf i with
  | none => rfl
  | some inode =>
    obtain ⟨a, hmap, _⟩ := inodeOf_eq_some.mp hinode
    rw [hi] at hmap
    cases hmap

theorem inodeOf_extend (hdisk : Extends s.disk t.disk) (hmap : t.inodeMap i = s.inodeMap i)
    (hi : s.inodeOf i = some inode) : t.inodeOf i = some inode := by
  obtain ⟨a, ha, hget⟩ := inodeOf_eq_some.mp hi
  refine inodeOf_eq_some.mpr ⟨a, hmap.trans ha, hdisk a _ hget fun entries heq => ?_⟩
  cases heq

/-- A number that is not remapped is read as before. -/
theorem Valid.frame (h : Valid s) (hdisk : Extends s.disk t.disk)
    (hmap : t.inodeMap i = s.inodeMap i) : t.inodeOf i = s.inodeOf i ∧ t.slots i = s.slots i := by
  by_cases hfree : s.inodeMap i = none
  · have hnone := inodeOf_free hfree
    have hnone' := inodeOf_free (hmap.trans hfree)
    exact ⟨hnone'.trans hnone.symm, (slots_none hnone').trans (slots_none hnone).symm⟩
  · obtain ⟨inode, hinode, hdir⟩ := h.live i hfree
    have hinode' := inodeOf_extend hdisk hmap hinode
    refine ⟨hinode'.trans hinode.symm, ?_⟩
    cases htype : inode.type with
    | directory =>
      obtain ⟨addrs, blocks, hblocks⟩ := hdir htype
      rw [slots_dir hinode htype hblocks, slots_dir hinode' htype (hblocks.extend hdisk)]
    | regular => rw [slots_regular hinode htype, slots_regular hinode' htype]

theorem LiveAt.extend (h : LiveAt s i inode) (hdisk : Extends s.disk t.disk)
    (hmap : t.inodeMap i = s.inodeMap i) : LiveAt t i inode where
  inodeOf := inodeOf_extend hdisk hmap h.inodeOf
  dir htype := by
    obtain ⟨addrs, blocks, hblocks⟩ := h.dir htype
    exact ⟨addrs, blocks, hblocks.extend hdisk⟩

/-- `b` entries of `p` go and `c` come. -/
theorem naming_le {b c : Nat}
    (h : ∀ d, (t.slots d).countP (fun e => e.2 = some j) + (if d = p then b else 0) ≤
      (s.slots d).countP (fun e => e.2 = some j) + if d = p then c else 0) :
    t.naming j + b ≤ s.naming j + c := by
  have hsum := Finset.sum_le_sum fun d (_ : d ∈ Finset.univ) => h d
  rw [Finset.sum_add_distrib, Finset.sum_add_distrib, Finset.sum_ite_eq' Finset.univ p,
    Finset.sum_ite_eq' Finset.univ p, if_pos (Finset.mem_univ p), if_pos (Finset.mem_univ p)] at hsum
  exact hsum

end Reading

/-! ## Two numbers are remapped -/

section Update

variable {s t : LFS} {p i : Inum} {newParent : Inode}

/-- The directory `p` and the number `i` are remapped; no other number gains an entry. -/
structure Update (s t : LFS) (p i : Inum) (newParent : Inode) : Prop where
  disk : Extends s.disk t.disk
  checkpoint : HasCheckpoint t.disk
  useDiskCr : t.useDiskCr = s.useDiskCr
  other : ∀ j, j ≠ p → j ≠ i → t.inodeMap j = s.inodeMap j
  parent : LiveAt t p newParent
  parentDir : newParent.type = .directory

theorem Update.slots_other (h : Update s t p i newParent) (hs : Valid s) {d : Inum} (hp : d ≠ p)
    (hi : d ≠ i) : t.inodeOf d = s.inodeOf d ∧ t.slots d = s.slots d :=
  hs.frame h.disk (h.other d hp hi)

/-- An update leaves a valid state, if what it remaps can be read and is counted. -/
theorem Update.valid (h : Update s t p i newParent) (hs : Valid s)
    (hlive : t.inodeMap i ≠ none → ∃ inode, LiveAt t i inode) (hroot : i ≠ ROOT_INODE)
    (hnaming : ∀ j, j ≠ p → j ≠ i → t.naming j ≤ s.naming j) (hcounted : Counted t i) :
    Valid t where
  inMemory := h.useDiskCr.trans hs.inMemory
  checkpoint := h.checkpoint
  root := by
    -- The root may itself be the directory that is logged anew.
    by_cases hp : ROOT_INODE = p
    · rw [hp]
      exact isDir_eq_true.mpr ⟨newParent, h.parent.inodeOf, h.parentDir⟩
    · unfold isDir
      rw [(h.slots_other hs hp hroot.symm).1]
      exact hs.root
  live j hj := by
    by_cases hp : j = p
    · exact hp ▸ ⟨newParent, h.parent⟩
    · by_cases hi : j = i
      · exact hi ▸ hlive (hi ▸ hj)
      · have hmap := h.other j hp hi
        rw [hmap] at hj
        obtain ⟨inode, hinode⟩ := hs.live j hj
        exact ⟨inode, hinode.extend h.disk hmap⟩
  counted j := by
    by_cases hp : j = p
    · -- a directory has no count to keep
      subst hp
      constructor
      · intro hfree
        have hnone := inodeOf_free hfree
        rw [h.parent.inodeOf] at hnone
        cases hnone
      · intro inode hinode hfile
        obtain rfl : newParent = inode := Option.some.inj (h.parent.inodeOf.symm.trans hinode)
        have heq := h.parentDir.symm.trans hfile
        cases heq
    · by_cases hi : j = i
      · exact hi ▸ hcounted
      -- Another file has lost no link that its count still holds.
      · have hle := hnaming j hp hi
        constructor
        · intro hfree
          have hzero := (hs.counted j).free ((h.other j hp hi).symm.trans hfree)
          omega
        · intro inode hinode hfile
          have hrefs := (hs.counted j).refs inode ((h.slots_other hs hp hi).1.symm.trans hinode) hfile
          omega

/-- How many entries name a number behind an update, by those of the directory. -/
theorem Update.naming_le (h : Update s t p i newParent) (hs : Valid s) {j : Inum} {b c : Nat}
    (hi : (t.slots i).countP (fun e => e.2 = some j) = 0) (hne : i ≠ p)
    (hp : (t.slots p).countP (fun e => e.2 = some j) + b ≤
      (s.slots p).countP (fun e => e.2 = some j) + c) :
    t.naming j + b ≤ s.naming j + c := by
  refine Lfs.naming_le (p := p) fun d => ?_
  by_cases hdp : d = p
  · subst hdp
    rw [if_pos rfl, if_pos rfl]
    exact hp
  · rw [if_neg hdp, if_neg hdp]
    by_cases hdi : d = i
    · subst hdi
      omega
    · rw [(h.slots_other hs hdp hdi).2]

end Update

/-! ## Entering and removing -/

section Entries

variable {disk disk' : List Block} {inode : Inode} {addrs : List Nat} {blocks : List (List Slot)}
  {name : Str} {i : Inum} {k size a : Nat} {entries : List Slot}

/-- The directory with one entry more, in a slot that was free or in a block of its own. -/
theorem DirBlocks.add (h : DirBlocks disk inode addrs blocks)
    (hadd : addDirEntry disk inode name i = .ok (some (k, size, entries)))
    (hdisk : Extends disk disk') (ha : disk'[a]? = some (.dataDirectory entries)) :
    ∃ addrs' blocks', DirBlocks disk' (pointTo { inode with size := size } k a) addrs' blocks' ∧
      ∀ j, blocks'.flatten.countP (fun e => e.2 = some j) ≤
        blocks.flatten.countP (fun e => e.2 = some j) + if i = j then 1 else 0 := by
  have hblocks := h.extend hdisk
  rcases h.addDirEntry_spec hadd with
    ⟨old, slot, e, hk, hslot, _, rfl, rfl⟩ | ⟨rfl, rfl, hsize, rfl⟩
  · obtain ⟨hlt, _⟩ := List.getElem?_eq_some_iff.mp hk
    obtain ⟨l₁, l₂, hflat, hset⟩ := flatten_set hk hslot (name, some i)
    refine ⟨_, _, hblocks.setBlock hlt ha, fun j => ?_⟩
    rw [hset, hflat]
    simp only [List.countP_append, List.countP_cons, Option.some.injEq, decide_eq_true_eq]
    omega
  · refine ⟨_, _, hblocks.addBlock hsize ha, fun j => ?_⟩
    have hfree : (List.replicate 7 freeSlot).countP (fun e => e.2 = some j) = 0 := by
      simp [freeSlot]
    rw [List.flatten_append, List.flatten_singleton, List.countP_append, List.countP_cons, hfree]
    simp

/-- The slot that is freed is the one the lookup found. -/
theorem DirBlocks.remove (h : DirBlocks disk inode addrs blocks)
    (hlookup : lookupLoop disk name inode.pointers = .ok (some i)) {slot : Nat}
    (hslot : findMatchingDirSlot disk name inode = .ok (some (k, slot)))
    (hread : readDirblock disk inode k = .ok entries) (hdisk : Extends disk disk')
    (ha : disk'[a]? = some (.dataDirectory (entries.set slot freeSlot))) :
    ∃ addrs' blocks', DirBlocks disk' (pointTo inode k a) addrs' blocks' ∧
      ∀ j, blocks'.flatten.countP (fun e => e.2 = some j) + (if i = j then 1 else 0) =
        blocks.flatten.countP (fun e => e.2 = some j) := by
  rcases h.findMatchingDirSlot_spec name with
    ⟨hnone, _⟩ | ⟨k', slot', old, e, hsome, hk, he, hfirst⟩
  · rw [hnone] at hslot
    cases hslot
  · obtain ⟨rfl, rfl⟩ : k' = k ∧ slot' = slot := by simpa using hsome.symm.trans hslot
    obtain rfl : old = entries := Except.ok.inj ((h.readDirblock_ok hk).symm.trans hread)
    obtain ⟨hlt, _⟩ := List.getElem?_eq_some_iff.mp hk
    obtain ⟨l₁, l₂, hflat, hset⟩ := flatten_set hk he freeSlot
    have hi : e.2 = some i := by
      rw [h.lookup_eq, hfirst] at hlookup
      exact Except.ok.inj hlookup
    refine ⟨_, _, (h.extend hdisk).setBlock hlt ha, fun j => ?_⟩
    rw [hset, hflat]
    simp [List.countP_append, List.countP_cons, hi, freeSlot]
    omega

end Entries

/-! ## The operations -/

section Operations

variable {s t u : LFS} {path : Str} {rc : Int} {p i : Inum}

theorem Valid.errors (h : Valid s) (e : List Str) : Valid { s with errorList := e } :=
  ⟨h.inMemory, h.checkpoint, h.root, fun i hi => by
    obtain ⟨inode, hinode, hdir⟩ := h.live i hi
    exact ⟨inode, hinode, hdir⟩, fun i => ⟨(h.counted i).free, (h.counted i).refs⟩⟩

/-- The directory `p` as an operation has read it. -/
structure DirRead (s : LFS) (p : Inum) (parentInode : Inode) (addrs : List Nat)
    (blocks : List (List Slot)) : Prop where
  inodeOf : s.inodeOf p = some parentInode
  type : parentInode.type = .directory
  read : DirBlocks s.disk parentInode addrs blocks

theorem Valid.inodeOf (h : Valid s) {inode : Inode} (hread : s.getInodeFromInumber i = .ok inode) :
    s.inodeOf i = some inode :=
  inodeOf_eq_some.mpr (getInode_eq_ok h.inMemory hread)

theorem inodeMap_of_inodeOf {inode : Inode} (hi : s.inodeOf i = some inode) :
    s.inodeMap i ≠ none := by
  intro hfree
  rw [inodeOf_free hfree] at hi
  cases hi

/-- A directory in use can be read. -/
theorem Valid.dirRead (h : Valid s) {parentInode : Inode} (hp : s.inodeOf p = some parentInode)
    (htype : parentInode.type = .directory) :
    ∃ addrs blocks, DirRead s p parentInode addrs blocks := by
  obtain ⟨inode, hinode, hdir⟩ := h.live p (inodeMap_of_inodeOf hp)
  obtain rfl : parentInode = inode := Option.some.inj (hp.symm.trans hinode)
  obtain ⟨addrs, blocks, hblocks⟩ := hdir htype
  exact ⟨addrs, blocks, hp, htype, hblocks⟩

theorem DirRead.slots {parentInode : Inode} {addrs : List Nat} {blocks : List (List Slot)}
    (h : DirRead s p parentInode addrs blocks) : s.slots p = blocks.flatten :=
  slots_dir h.inodeOf h.type h.read

/-- An inode that was logged and remapped is read in the end. -/
theorem LFS.Settled.inodeOf (h : Settled u t) {d blocks : List Block} (hdisk : u.disk = d ++ blocks)
    {k : Nat} {inode : Inode} (hk : blocks[k]? = some (.inode inode))
    (hmap : u.inodeMap i = some (d.length + k)) : t.inodeOf i = some inode := by
  refine inodeOf_eq_some.mpr ⟨d.length + k, ?_, h.get hdisk hk (by simp)⟩
  rw [h.inodeMap, hmap]

theorem DirRead.isDir {parentInode : Inode} {addrs : List Nat} {blocks : List (List Slot)}
    (h : DirRead s p parentInode addrs blocks) : s.isDir p = true :=
  isDir_eq_true.mpr ⟨parentInode, h.inodeOf, h.type⟩

theorem isDir_free (hi : s.inodeMap i = none) : s.isDir i = false := by
  unfold LFS.isDir
  rw [inodeOf_free hi]
  rfl

theorem isDir_regular {inode : Inode} (hi : s.inodeOf i = some inode)
    (htype : inode.type = .regular) : s.isDir i = false := by
  unfold LFS.isDir
  rw [hi]
  simp [htype]

theorem ne_of_isDir (hi : s.isDir i = false) (hp : s.isDir p = true) : i ≠ p := by
  rintro rfl
  rw [hp] at hi
  cases hi

theorem LiveAt.regular {inode : Inode} (hi : s.inodeOf i = some inode)
    (htype : inode.type = .regular) : LiveAt s i inode where
  inodeOf := hi
  dir hdir := by
    have heq := hdir.symm.trans htype
    cases heq

/-- The number of a file is counted if its references are. -/
theorem Counted.regular {inode : Inode} (hi : s.inodeOf i = some inode)
    (hle : s.naming i ≤ inode.refs) : Counted s i where
  free hfree := absurd hfree (inodeMap_of_inodeOf hi)
  refs inode' hi' _ := by
    obtain rfl : inode = inode' := Option.some.inj (hi.symm.trans hi')
    exact hle

/-- A directory is named by its own entries, and its number is not counted. -/
theorem Counted.directory {inode : Inode} (hi : s.inodeOf i = some inode)
    (htype : inode.type = .directory) : Counted s i where
  free hfree := absurd hfree (inodeMap_of_inodeOf hi)
  refs inode' hi' hfile := by
    obtain rfl : inode = inode' := Option.some.inj (hi.symm.trans hi')
    have heq := htype.symm.trans hfile
    cases heq

section Enter

variable {parentInode logged : Inode} {name : Str} {k size : Nat} {entries : List Slot}
  {addrs : List Nat} {blocks : List (List Slot)}

/-- `p` is logged with the new entry. -/
theorem DirRead.enter (h : DirRead s p parentInode addrs blocks)
    (hslot : addDirEntry s.disk parentInode name i = .ok (some (k, size, entries)))
    (ht : Settled u t) {l : List Block} (hu : u.disk = s.disk ++ (.dataDirectory entries :: l))
    (hmem : u.useDiskCr = s.useDiskCr)
    (hother : ∀ j, j ≠ p → j ≠ i → u.inodeMap j = s.inodeMap j)
    (hnew : t.inodeOf p = some logged) (htype : logged.type = parentInode.type)
    (hsize : logged.size = size)
    (hpointers : logged.pointers = parentInode.pointers.set k (some s.disk.length)) :
    Update s t p i logged ∧ ∀ j, (t.slots p).countP (fun e => e.2 = some j) ≤
      (s.slots p).countP (fun e => e.2 = some j) + if i = j then 1 else 0 := by
  have hdisk : Extends s.disk t.disk := Extends.trans (hu ▸ extends_append _ _) ht.extend
  obtain ⟨addrs', blocks', hblocks, hcount⟩ := h.read.add hslot hdisk
    (ht.get (k := 0) hu rfl (by simp))
  have hblocks' : DirBlocks t.disk logged addrs' blocks' := hblocks.congr hsize hpointers
  refine ⟨⟨hdisk, ht.checkpoint, ht.useDiskCr.trans hmem, ?_, ⟨hnew, fun _ => ⟨_, _, hblocks'⟩⟩,
    htype.trans h.type⟩, fun j => ?_⟩
  · intro j hjp hji
    rw [ht.inodeMap]
    exact hother j hjp hji
  · rw [slots_dir hnew (htype.trans h.type) hblocks', h.slots]
    exact hcount j

/-- `file_create` enters a file with one reference. -/
theorem DirRead.createFile (h : DirRead s p parentInode addrs blocks) (hs : Valid s)
    (hi : s.inodeMap i = none)
    (hslot : addDirEntry s.disk parentInode name i = .ok (some (k, size, entries)))
    (ht : Settled u t) (hu : u.disk = s.disk ++ [.dataDirectory entries,
      .inode (pointTo (newParent true parentInode size) k s.disk.length),
      .inode (makeInode .regular 0 1)])
    (hmap : u.inodeMap = Function.update (Function.update (Function.update s.inodeMap i (some 1)) p
      (some (s.disk.length + 1))) i (some (s.disk.length + 2)))
    (hmem : u.useDiskCr = s.useDiskCr) : Valid t := by
  have hne := ne_of_isDir (isDir_free hi) h.isDir
  have hp : t.inodeOf p = _ := ht.inodeOf (k := 1) hu rfl (by
    rw [hmap, Function.update_of_ne hne.symm, Function.update_self])
  have hfile : t.inodeOf i = some (makeInode .regular 0 1) := ht.inodeOf (k := 2) hu rfl (by
    rw [hmap, Function.update_self])
  obtain ⟨hupdate, hcount⟩ := h.enter (i := i) hslot ht hu hmem (fun j hjp hji => by
    rw [hmap, Function.update_of_ne hji, Function.update_of_ne hjp, Function.update_of_ne hji])
    hp rfl rfl rfl
  have hempty : t.slots i = [] := slots_regular hfile rfl
  have hnaming : ∀ j, t.naming j + 0 ≤ s.naming j + if i = j then 1 else 0 :=
    fun j => hupdate.naming_le hs (by rw [hempty]; rfl) hne (hcount j)
  refine hupdate.valid hs (fun _ => ⟨_, .regular hfile rfl⟩) (ne_of_isDir (isDir_free hi) hs.root)
    (fun j _ hji => ?_) (.regular hfile ?_)
  · have hle := hnaming j
    rw [if_neg (Ne.symm hji)] at hle
    omega
  · -- no entry names a free number
    have hle := hnaming i
    have hzero := (hs.counted i).free hi
    rw [if_pos rfl] at hle
    show (t.naming i : Int) ≤ 1
    omega

/-- `dir_create` enters a directory. -/
theorem DirRead.createDir (h : DirRead s p parentInode addrs blocks) (hs : Valid s)
    (hi : s.inodeMap i = none)
    (hslot : addDirEntry s.disk parentInode name i = .ok (some (k, size, entries)))
    (ht : Settled u t) (hu : u.disk = s.disk ++ [.dataDirectory entries, makeNewDirblock p i,
      .inode (pointTo (newParent false parentInode size) k s.disk.length),
      .inode (pointTo (makeInode .directory 1 2) 0 (s.disk.length + 1))])
    (hmap : u.inodeMap = Function.update (Function.update (Function.update s.inodeMap i (some 1)) p
      (some (s.disk.length + 2))) i (some (s.disk.length + 3)))
    (hmem : u.useDiskCr = s.useDiskCr) : Valid t := by
  have hne := ne_of_isDir (isDir_free hi) h.isDir
  have hp : t.inodeOf p = _ := ht.inodeOf (k := 2) hu rfl (by
    rw [hmap, Function.update_of_ne hne.symm, Function.update_self])
  have hdir : t.inodeOf i = _ := ht.inodeOf (k := 3) hu rfl (by rw [hmap, Function.update_self])
  have hblocks := newDir_blocks (ht.get (k := 1) hu rfl (by simp [makeNewDirblock]))
  obtain ⟨hupdate, hcount⟩ := h.enter (i := i) hslot ht hu hmem (fun j hjp hji => by
    rw [hmap, Function.update_of_ne hji, Function.update_of_ne hjp, Function.update_of_ne hji])
    hp rfl rfl rfl
  refine hupdate.valid hs (fun _ => ⟨_, hdir, fun _ => ⟨_, _, hblocks⟩⟩)
    (ne_of_isDir (isDir_free hi) hs.root) (fun j hjp hji => ?_) (.directory hdir rfl)
  -- the new block names `i` and `p` only
  have hzero : (t.slots i).countP (fun e => e.2 = some j) = 0 := by
    rw [slots_dir hdir rfl hblocks]
    simp [freeSlot, Ne.symm hji, Ne.symm hjp]
  have hle := hupdate.naming_le (b := 0) hs hzero hne (hcount j)
  rw [if_neg (Ne.symm hji)] at hle
  omega

/-- `file_link` enters a file once more and adds a reference. -/
theorem DirRead.link (h : DirRead s p parentInode addrs blocks) (hs : Valid s) {inode : Inode}
    (hi : s.inodeOf i = some inode) (htype : inode.type = .regular)
    (hslot : addDirEntry s.disk parentInode name i = .ok (some (k, size, entries)))
    (ht : Settled u t) (hu : u.disk = s.disk ++ [.dataDirectory entries,
      .inode (pointTo { parentInode with size := size } k s.disk.length),
      .inode { inode with refs := inode.refs + 1 }])
    (hmap : u.inodeMap = Function.update (Function.update s.inodeMap p (some (s.disk.length + 1))) i
      (some (s.disk.length + 2)))
    (hmem : u.useDiskCr = s.useDiskCr) : Valid t := by
  have hnd := isDir_regular hi htype
  have hne := ne_of_isDir hnd h.isDir
  have hp : t.inodeOf p = _ := ht.inodeOf (k := 1) hu rfl (by
    rw [hmap, Function.update_of_ne hne.symm, Function.update_self])
  have hfile : t.inodeOf i = some { inode with refs := inode.refs + 1 } :=
    ht.inodeOf (k := 2) hu rfl (by rw [hmap, Function.update_self])
  obtain ⟨hupdate, hcount⟩ := h.enter (i := i) hslot ht hu hmem (fun j hjp hji => by
    rw [hmap, Function.update_of_ne hji, Function.update_of_ne hjp]) hp rfl rfl rfl
  have hempty : t.slots i = [] := slots_regular hfile htype
  have hnaming : ∀ j, t.naming j + 0 ≤ s.naming j + if i = j then 1 else 0 :=
    fun j => hupdate.naming_le hs (by rw [hempty]; rfl) hne (hcount j)
  refine hupdate.valid hs (fun _ => ⟨_, .regular hfile htype⟩) (ne_of_isDir hnd hs.root)
    (fun j _ hji => ?_) (.regular hfile ?_)
  · have hle := hnaming j
    rw [if_neg (Ne.symm hji)] at hle
    omega
  · have hle := hnaming i
    have hrefs := (hs.counted i).refs inode hi htype
    rw [if_pos rfl] at hle
    show (t.naming i : Int) ≤ inode.refs + 1
    omega

/-- The parent that a walk returns has been read as a directory. -/
theorem Valid.parent (h : Valid s) {found : Option Inum} {s' : LFS}
    (hwalk : s.walkPath path = .ok (⟨found, name, some (p, parentInode)⟩, s')) :
    ∃ addrs blocks, DirRead s p parentInode addrs blocks := by
  obtain ⟨hread, htype, _⟩ := walkPath_parent hwalk
  exact h.dirRead (h.inodeOf hread) htype

/-- A creation leaves a valid state, whatever its path. -/
theorem Valid.create (h : Valid s) {isFile : Bool} {pick : Nat}
    (hrun : s.create path isFile pick = .ok (rc, t)) : Valid t := by
  rcases create_cases hrun with ⟨_, e, rfl⟩ | ⟨_, s', p, i, parentInode, name, k, size, entries,
    hplan, rfl⟩
  · exact h.errors e
  · obtain ⟨addrs, blocks, hp⟩ := h.parent hplan.walk
    obtain ⟨e, rfl⟩ := hplan.frame
    cases isFile with
    | true =>
      rw [createWrites_file]
      exact hp.createFile h hplan.free hplan.slot (settled (h.checkpoint.append _) _) rfl rfl rfl
    | false =>
      rw [createWrites_dir]
      exact hp.createDir h hplan.free hplan.slot (settled (h.checkpoint.append _) _) rfl rfl rfl

/-- So does a link. -/
theorem Valid.link (h : Valid s) {srcpath dstpath : Str}
    (hrun : s.fileLink srcpath dstpath = .ok (rc, t)) : Valid t := by
  rcases fileLink_cases hrun with ⟨_, e, rfl⟩ | ⟨_, s', i, p, inode, parentInode, name, k, size,
    entries, hplan, rfl⟩
  · exact h.errors e
  · obtain ⟨w, s₁, hsrc, _, hdst⟩ := hplan.src
    obtain ⟨e, rfl⟩ := walkPath_frame hsrc
    obtain ⟨addrs, blocks, hp⟩ := (h.errors e).parent hdst
    obtain ⟨e', rfl⟩ := walkPath_frame hdst
    rw [linkWrites_eq]
    exact hp.link (h.errors e) (h.inodeOf hplan.read) hplan.type hplan.slot
      (settled (h.checkpoint.append _) _) rfl rfl rfl

end Enter

section Leave

variable {inode parentInode : Inode} {name : Str} {k slot : Nat} {entries : List Slot}
  {addrs : List Nat} {blocks : List (List Slot)}

/-- A file is logged again. -/
theorem Valid.rewrite (h : Valid s) {newInode : Inode} {data : List Block}
    (hi : s.inodeOf i = some inode) (htype : inode.type = .regular)
    (hnew : newInode.type = inode.type ∧ newInode.refs = inode.refs) (ht : Settled u t)
    (hu : u.disk = s.disk ++ (data ++ [.inode newInode]))
    (hmap : u.inodeMap = Function.update s.inodeMap i (some (s.disk ++ data).length))
    (hmem : u.useDiskCr = s.useDiskCr) : Valid t := by
  have hdisk : Extends s.disk t.disk := Extends.trans (hu ▸ extends_append _ _) ht.extend
  obtain ⟨root, hroot, hdir⟩ := isDir_eq_true.mp h.root
  have hne := ne_of_isDir (isDir_regular hi htype) h.root
  have hother : ∀ j, j ≠ i → t.inodeMap j = s.inodeMap j := by
    intro j hji
    rw [ht.inodeMap, hmap, Function.update_of_ne hji]
  have hfile : t.inodeOf i = some newInode := ht.inodeOf (k := data.length) hu (by simp) (by
    rw [hmap, Function.update_self, List.length_append])
  have htype' : newInode.type = .regular := hnew.1.trans htype
  have hempty : t.slots i = [] := slots_regular hfile htype'
  obtain ⟨addrs, blocks, hp⟩ := h.dirRead hroot hdir
  have hlive : LiveAt s ROOT_INODE root := ⟨hroot, fun _ => ⟨_, _, hp.read⟩⟩
  -- the root stands for the directory, which stays as it is
  have hupdate : Update s t ROOT_INODE i root := ⟨hdisk, ht.checkpoint, ht.useDiskCr.trans hmem,
    fun j _ hji => hother j hji, hlive.extend hdisk (hother _ hne.symm), hdir⟩
  have hnaming : ∀ j, t.naming j + 0 ≤ s.naming j + 0 := fun j =>
    hupdate.naming_le h (by rw [hempty]; rfl) hne (by rw [(h.frame hdisk (hother _ hne.symm)).2])
  refine hupdate.valid h (fun _ => ⟨_, .regular hfile htype'⟩) hne (fun j _ _ => ?_)
    (.regular hfile ?_)
  · have hle := hnaming j
    omega
  · have hrefs := (h.counted i).refs inode hi htype
    have hle := hnaming i
    rw [hnew.2]
    omega

/-- So does a write. -/
theorem Valid.write (h : Valid s) {offset numBlks : Int} {draw : Nat → Char}
    (hrun : s.fileWrite path offset numBlks draw = .ok (rc, t)) : Valid t := by
  rcases fileWrite_cases hrun with ⟨_, e, rfl⟩ | ⟨s', i, inode, hplan, _, written, _, hwrites⟩
  · exact h.errors e
  · obtain ⟨e, rfl⟩ := hplan.frame
    rw [fileWrites_eq _ i inode _ _ rfl] at hwrites
    obtain ⟨_, rfl⟩ := Prod.mk.inj hwrites
    exact (h.errors e).rewrite (h.inodeOf hplan.read) hplan.type (writtenInode_same ..)
      (settled (h.checkpoint.append _) _) rfl rfl rfl

/-- The directory is logged without the entry; `hcounted` is what is left of the file. -/
theorem DirRead.remove (h : DirRead s p parentInode addrs blocks) (hs : Valid s)
    (hi : s.inodeOf i = some inode) (htype : inode.type = .regular)
    (hlookup : lookupLoop s.disk name parentInode.pointers = .ok (some i))
    (hslot : findMatchingDirSlot s.disk name parentInode = .ok (some (k, slot)))
    (hread : readDirblock s.disk parentInode k = .ok entries) (ht : Settled u t) {l : List Block}
    (hu : u.disk = s.disk ++ (.dataDirectory (entries.set slot freeSlot) ::
      .inode (pointTo parentInode k s.disk.length) :: l))
    (hmapp : u.inodeMap p = some (s.disk.length + 1))
    (hother : ∀ j, j ≠ p → j ≠ i → u.inodeMap j = s.inodeMap j)
    (hmem : u.useDiskCr = s.useDiskCr) (hlive : t.inodeMap i ≠ none → ∃ inode, LiveAt t i inode)
    (hempty : t.slots i = []) (hcounted : t.naming i + 1 ≤ s.naming i → Counted t i) : Valid t := by
  have hdisk : Extends s.disk t.disk := Extends.trans (hu ▸ extends_append _ _) ht.extend
  have hnd := isDir_regular hi htype
  have hne := ne_of_isDir hnd h.isDir
  have hp : t.inodeOf p = _ := ht.inodeOf (k := 1) hu rfl hmapp
  obtain ⟨addrs', blocks', hblocks, hcount⟩ := h.read.remove hlookup hslot hread hdisk
    (ht.get (k := 0) hu rfl (by simp))
  have hupdate : Update s t p i (pointTo parentInode k s.disk.length) :=
    ⟨hdisk, ht.checkpoint, ht.useDiskCr.trans hmem, fun j hjp hji => by
      rw [ht.inodeMap]
      exact hother j hjp hji, ⟨hp, fun _ => ⟨_, _, hblocks⟩⟩, h.type⟩
  have hnaming : ∀ j, t.naming j + (if i = j then 1 else 0) ≤ s.naming j + 0 := by
    intro j
    refine hupdate.naming_le hs (by rw [hempty]; rfl) hne ?_
    rw [slots_dir hp h.type hblocks, h.slots, hcount j]
    omega
  refine hupdate.valid hs hlive (ne_of_isDir hnd hs.root) (fun j _ hji => ?_) (hcounted ?_)
  · have hle := hnaming j
    rw [if_neg (Ne.symm hji)] at hle
    omega
  · have hle := hnaming i
    rw [if_pos rfl] at hle
    omega

/-- A file that is found has a reference. -/
theorem DirRead.refs_pos (h : DirRead s p parentInode addrs blocks) (hs : Valid s)
    (hi : s.inodeOf i = some inode) (htype : inode.type = .regular)
    (hlookup : lookupLoop s.disk name parentInode.pointers = .ok (some i)) : 1 ≤ inode.refs := by
  have hmem : ∃ e ∈ s.slots p, e.2 = some i := by
    rw [h.read.lookup_eq] at hlookup
    obtain ⟨e, hfound, he⟩ := Option.bind_eq_some_iff.mp (Except.ok.inj hlookup)
    rw [h.slots]
    exact ⟨e, List.mem_of_find?_eq_some hfound, he⟩
  have hpos : 1 ≤ s.naming i := by
    calc 1 ≤ (s.slots p).countP (fun e => e.2 = some i) := by
          rw [Nat.one_le_iff_ne_zero, ← Nat.pos_iff_ne_zero, List.countP_pos_iff]
          simpa using hmem
      _ ≤ s.naming i := Finset.single_le_sum
          (f := fun d => (s.slots d).countP fun e => e.2 = some i) (fun _ _ => Nat.zero_le _)
          (Finset.mem_univ p)
  have hle := (hs.counted i).refs inode hi htype
  omega

/-- The last reference goes: no entry is left. -/
theorem DirRead.removeLast (h : DirRead s p parentInode addrs blocks) (hs : Valid s)
    (hi : s.inodeOf i = some inode) (htype : inode.type = .regular) (hlast : inode.refs = 1)
    (hlookup : lookupLoop s.disk name parentInode.pointers = .ok (some i))
    (hslot : findMatchingDirSlot s.disk name parentInode = .ok (some (k, slot)))
    (hread : readDirblock s.disk parentInode k = .ok entries) (ht : Settled u t)
    (hu : u.disk = s.disk ++ [.dataDirectory (entries.set slot freeSlot),
      .inode (pointTo parentInode k s.disk.length)])
    (hmap : u.inodeMap = Function.update (Function.update s.inodeMap i none) p
      (some (s.disk.length + 1)))
    (hmem : u.useDiskCr = s.useDiskCr) : Valid t := by
  have hne := ne_of_isDir (isDir_regular hi htype) h.isDir
  have hfree : t.inodeMap i = none := by
    rw [ht.inodeMap, hmap, Function.update_of_ne hne, Function.update_self]
  have hnone := inodeOf_free hfree
  refine h.remove hs hi htype hlookup hslot hread ht hu ?_ ?_ hmem (fun hlive => ?_)
    (slots_none hnone) fun hle => ⟨fun _ => ?_, fun inode hinode => ?_⟩
  · rw [hmap, Function.update_self]
  · intro j hjp hji
    rw [hmap, Function.update_of_ne hjp, Function.update_of_ne hji]
  · exact absurd hfree hlive
  · have hrefs := (hs.counted i).refs inode hi htype
    omega
  · rw [hnone] at hinode
    cases hinode

/-- One reference of several goes with one entry. -/
theorem DirRead.removeMore (h : DirRead s p parentInode addrs blocks) (hs : Valid s)
    (hi : s.inodeOf i = some inode) (htype : inode.type = .regular)
    (hlookup : lookupLoop s.disk name parentInode.pointers = .ok (some i))
    (hslot : findMatchingDirSlot s.disk name parentInode = .ok (some (k, slot)))
    (hread : readDirblock s.disk parentInode k = .ok entries) (ht : Settled u t)
    (hu : u.disk = s.disk ++ [.dataDirectory (entries.set slot freeSlot),
      .inode (pointTo parentInode k s.disk.length), .inode { inode with refs := inode.refs - 1 }])
    (hmap : u.inodeMap = Function.update (Function.update s.inodeMap p (some (s.disk.length + 1))) i
      (some (s.disk.length + 2)))
    (hmem : u.useDiskCr = s.useDiskCr) : Valid t := by
  have hne := ne_of_isDir (isDir_regular hi htype) h.isDir
  have hfile : t.inodeOf i = some { inode with refs := inode.refs - 1 } :=
    ht.inodeOf (k := 2) hu rfl (by rw [hmap, Function.update_self])
  refine h.remove hs hi htype hlookup hslot hread ht hu ?_ ?_ hmem
    (fun _ => ⟨_, .regular hfile htype⟩) (slots_regular hfile htype)
    fun hle => .regular hfile ?_
  · rw [hmap, Function.update_of_ne hne.symm, Function.update_self]
  · intro j hjp hji
    rw [hmap, Function.update_of_ne hji, Function.update_of_ne hjp]
  · have hrefs := (hs.counted i).refs inode hi htype
    show (t.naming i : Int) ≤ inode.refs - 1
    omega

/-- So does a deletion. -/
theorem Valid.delete (h : Valid s) (hrun : s.fileDelete path = .ok (rc, t)) : Valid t := by
  rcases fileDelete_cases hrun with ⟨_, e, rfl⟩ | ⟨_, s', i, p, inode, parentInode, name, k, slot,
    entries, hplan, rfl⟩
  · exact h.errors e
  · obtain ⟨addrs, blocks, hp⟩ := (h.errors []).parent hplan.walk
    obtain ⟨_, _, hlookup, _⟩ := walkPath_parent hplan.walk
    obtain ⟨e, rfl⟩ := hplan.frame
    have hi := h.inodeOf hplan.read
    have hpos := hp.refs_pos (h.errors []) hi hplan.type hlookup
    by_cases hlast : inode.refs = 1
    · rw [unlinked, if_pos hlast, deleteWrites_last _ i p (by omega)]
      exact hp.removeLast (h.errors []) hi hplan.type hlast hlookup hplan.slot hplan.entries
        (settled (h.checkpoint.append _) _) rfl rfl rfl
    · rw [unlinked, if_neg hlast, deleteWrites_more _ i p (by omega)]
      exact hp.removeMore (h.errors []) hi hplan.type hlookup hplan.slot hplan.entries
        (settled (h.checkpoint.append _) _) rfl rfl rfl

end Leave

/-- Every operation that returns leaves a valid state. -/
theorem Valid.run (h : Valid s) {op : Op} (hrun : op.run s = .ok (rc, t)) : Valid t := by
  cases op with
  | fileCreate path pick => exact (h.errors []).create hrun
  | dirCreate path pick => exact (h.errors []).create hrun
  | fileLink srcpath dstpath => exact h.link hrun
  | fileWrite path offset numBlks draw => exact h.write hrun
  | fileDelete path => exact h.delete hrun
  | sync =>
    obtain ⟨_, rfl⟩ := Prod.mk.inj (Except.ok.inj ((Op.run_sync s).symm.trans hrun))
    have hdisk := extends_set_checkpoint h.checkpoint s.cr
    have hframe : ∀ i, s.errorClear.crSync.inodeOf i = s.inodeOf i ∧
        s.errorClear.crSync.slots i = s.slots i :=
      fun i => h.frame hdisk rfl
    have hnaming : ∀ i, s.errorClear.crSync.naming i = s.naming i := by
      intro i
      unfold LFS.naming
      exact Finset.sum_congr rfl fun d _ => by rw [(hframe d).2]
    refine ⟨h.inMemory, h.checkpoint.set _, ?_, fun i hi => ?_, fun i => ⟨fun hfree => ?_,
      fun inode hinode hfile => ?_⟩⟩
    · unfold LFS.isDir
      rw [(hframe ROOT_INODE).1]
      exact h.root
    · obtain ⟨inode, hlive⟩ := h.live i hi
      exact ⟨inode, hlive.extend hdisk rfl⟩
    · rw [hnaming]
      exact (h.counted i).free hfree
    · rw [hnaming]
      exact (h.counted i).refs inode ((hframe i).1.symm.trans hinode) hfile

end Operations

/-! ## Every reachable state -/

section Runs

variable {noForceCheckpoints : Bool} {inodePolicy : InodePolicy}

theorem new_inodeMap (noForceCheckpoints : Bool) (inodePolicy : InodePolicy) {i : Inum}
    (hi : i ≠ ROOT_INODE) :
    (LFS.new false noForceCheckpoints inodePolicy).inodeMap i = none :=
  Function.update_of_ne hi ..

theorem valid_new : Valid (LFS.new false noForceCheckpoints inodePolicy) := by
  have hblock : (LFS.new false noForceCheckpoints inodePolicy).disk[1]? =
      some (makeNewDirblock ROOT_INODE ROOT_INODE) := rfl
  have hblocks := newDir_blocks hblock
  have hroot : (LFS.new false noForceCheckpoints inodePolicy).inodeOf ROOT_INODE =
      some (pointTo (makeInode .directory 1 2) 0 1) := rfl
  refine ⟨rfl, ⟨_, rfl⟩, isDir_eq_true.mpr ⟨_, hroot, rfl⟩, fun i hi => ?_, fun i => ?_⟩
  · by_cases hi' : i = ROOT_INODE
    · exact hi' ▸ ⟨_, hroot, fun _ => ⟨_, _, hblocks⟩⟩
    · exact absurd (new_inodeMap _ _ hi') hi
  · by_cases hi : i = ROOT_INODE
    · exact hi ▸ .directory hroot rfl
    · have hnone := inodeOf_free (new_inodeMap noForceCheckpoints inodePolicy hi)
      refine ⟨fun _ => ?_, fun inode hinode => ?_⟩
      · -- the root names itself only
        refine Finset.sum_eq_zero fun d _ => ?_
        by_cases hd : d = ROOT_INODE
        · rw [hd, slots_dir hroot rfl hblocks]
          simp [freeSlot, Ne.symm hi]
        · rw [slots_none (inodeOf_free (new_inodeMap _ _ hd))]
          rfl
      · rw [hnone] at hinode
        cases hinode

/-- So every reachable state is valid. -/
theorem valid_reachable {s : LFS}
    (h : (fileSystem false noForceCheckpoints inodePolicy).Reachable s) : Valid s := by
  refine h.invariant (I := Valid) ?_ ?_
  · rintro _ rfl
    exact valid_new
  · intro s a t hs hstep
    exact hs.run (next_eq_some.mp hstep)

end Runs

end OsLab.Lfs
