import OsLab.Lfs.Contents
import OsLab.Lfs.Errors

/-!
# Writing and reading back

What `file_write` leaves behind it: the blocks of the file, those of every other file, and the size.
The size is set to the end of the write, also where the file reached further.

* **`Stored`** -- the blocks that were written are read back, no other block has changed, and no
  other inode.
* **`fileWrite_stored`** -- this holds of every write to a file, whatever its offset and length.
* **`Written`**, **`WritesBlocks`** -- with the size grown as far as the file is written, and no
  further back.
* **`SizeRight`**, **`fileWrite_iff`**, **`overwrite_truncates`** -- the exact condition for that,
  and a write that fails it.
-/

namespace OsLab.Lfs

open LFS

namespace LFS

/-- The regular file that a path resolves to. -/
def regularAt (s : LFS) (path : Str) : Option (Inum × Inode) :=
  match s.errorClear.walkPath path with
  | .ok (⟨some i, _, _⟩, _) =>
    match s.getInodeFromInumber i with
    | .ok inode => if inode.type = .regular then some (i, inode) else none
    | .error _ => none
  | _ => none

/-- The blocks that the pointers of an inode lead to. -/
def contents (s : LFS) (inode : Inode) : List (Option Block) :=
  inode.pointers.map fun p => p.bind fun a => s.disk[a]?

end LFS

/-- The file `i`, which was `inode`, is `newInode` with `blocks` from block `offset` on, and no
other block and no other inode has changed. -/
structure Stored (s t : LFS) (i : Inum) (inode newInode : Inode) (offset : Nat)
    (blocks : List Str) : Prop where
  read : t.getInodeFromInumber i = .ok newInode
  same : newInode.type = inode.type ∧ newInode.refs = inode.refs
  inside : ∀ (k : Nat) block, blocks[k]? = some block → ∃ a,
    newInode.pointers[offset + k]? = some (some a) ∧ t.disk[a]? = some (.dataBlock block)
  outside : ∀ k, k < offset ∨ offset + blocks.length ≤ k →
    newInode.pointers[k]? = inode.pointers[k]?
  others : ∀ j, j ≠ i → t.getInodeFromInumber j = s.getInodeFromInumber j
  kept : ∀ j other, s.getInodeFromInumber j = .ok other → t.contents other = s.contents other

/-- The file has grown as far as it is written, if anything is. -/
structure Written (s t : LFS) (i : Inum) (inode newInode : Inode) (offset : Nat)
    (blocks : List Str) : Prop extends Stored s t i inode newInode offset blocks where
  size : newInode.size = if blocks = [] then inode.size else max inode.size (offset + blocks.length)

/-- `file_write` returns how many blocks it has written, and has written them. -/
def WritesBlocks (s : LFS) (path : Str) (offset numBlks : Int) (draw : Nat → Char) (i : Inum)
    (inode : Inode) : Prop :=
  ∃ t newInode,
    s.fileWrite path offset numBlks draw = .ok (min numBlks (NUM_INODE_PTRS - offset), t) ∧
    Written s t i inode newInode offset.toNat
      ((makeRandomBlocks draw numBlks).take (min numBlks (NUM_INODE_PTRS - offset)).toNat)

variable {s t u : LFS} {path : Str} {i j : Inum} {inode : Inode}

/-- A path that resolves to a regular file has a plan to write it. -/
theorem regularAt_eq_some (h : s.regularAt path = some (i, inode)) :
    ∃ s', WritePlan s path s' i inode := by
  unfold regularAt at h
  split at h
  · rename_i found name parent s' hwalk
    split at h
    · rename_i read hread
      split at h
      · rename_i htype
        cases h
        exact ⟨s', ⟨_, hwalk, rfl⟩, hread, htype⟩
      · cases h
    · cases h
  · cases h

/-- A plan to write is carried out, at an offset that the inode has a pointer for. -/
theorem WritePlan.run {s' : LFS} (h : WritePlan s path s' i inode) {offset numBlks : Int}
    (hoffset : 0 ≤ offset) (hlt : offset < NUM_INODE_PTRS) (draw : Nat → Char) :
    s.fileWrite path offset numBlks draw =
      .ok ((s'.fileWrites i inode offset.toNat (makeRandomBlocks draw numBlks)).1,
        (s'.fileWrites i inode offset.toNat (makeRandomBlocks draw numBlks)).2) := by
  obtain ⟨⟨found, name, parent⟩, hwalk, hfound⟩ := h.walk
  obtain ⟨e, rfl⟩ := h.frame
  obtain rfl : found = some i := hfound
  have hread : LFS.getInodeFromInumber { s with errorList := e } i = .ok inode := h.read
  refine bind_eq_ok.mpr ⟨(⟨some i, name, parent⟩, { s with errorList := e }), hwalk, ?_⟩
  refine bind_eq_ok.mpr ⟨inode, hread, ?_⟩
  dsimp only
  rw [if_neg (not_not_intro h.type), if_neg (by omega)]
  rfl

/-! ## What is kept -/

theorem getInode_free (hmem : s.useDiskCr = false) (hfree : s.inodeMap j = none) :
    s.getInodeFromInumber j = .error (.assertionError "inode_address != -1") := by
  unfold getInodeFromInumber inodeAddress
  rw [if_neg (by rw [hmem]; decide), hfree]
  rfl

/-- A number that leads where it led is read as before. -/
theorem getInode_congr (hs : Valid s) (hmem : t.useDiskCr = false)
    (hdisk : Extends s.disk t.disk) (hmap : t.inodeMap j = s.inodeMap j) :
    t.getInodeFromInumber j = s.getInodeFromInumber j := by
  by_cases hfree : s.inodeMap j = none
  · rw [getInode_free hs.inMemory hfree, getInode_free hmem (hmap.trans hfree)]
  · obtain ⟨inode, hlive⟩ := hs.live j hfree
    rw [getInode_ok hs.inMemory hlive.inodeOf,
      getInode_ok hmem (inodeOf_extend hdisk hmap hlive.inodeOf)]

/-- The pointers of an inode that is in use lead to blocks other than the checkpoint. -/
theorem exists_block (hs : Valid s) (hfiles : FilesAt s) (hj : s.inodeOf j = some inode) {a : Nat}
    (ha : some a ∈ inode.pointers) :
    ∃ block, s.disk[a]? = some block ∧ ∀ entries, block ≠ .checkpoint entries := by
  cases htype : inode.type with
  | regular =>
    obtain ⟨contents, hget⟩ := (hfiles j inode hj htype).data a ha
    exact ⟨_, hget, fun entries heq => by cases heq⟩
  | directory =>
    obtain ⟨addrs, blocks, hp⟩ := hs.dirRead hj htype
    rw [hp.read.pointers] at ha
    rcases List.mem_append.mp ha with hset | hunset
    · obtain ⟨a', hmem, heq⟩ := List.mem_map.mp hset
      obtain rfl := Option.some.inj heq
      obtain ⟨k, hk, rfl⟩ := List.mem_iff_getElem.mp hmem
      have hk' : k < blocks.length := hp.read.read.length_eq ▸ hk
      exact ⟨_, hp.read.read.get hk hk', fun entries heq => by cases heq⟩
    · -- behind the blocks of a directory no pointer is set
      have hnone := List.eq_of_mem_replicate hunset
      cases hnone

/-- The log grows, so the contents of an inode that is in use stay. -/
theorem contents_extend (hs : Valid s) (hfiles : FilesAt s) (hdisk : Extends s.disk t.disk)
    (hj : s.inodeOf j = some inode) : t.contents inode = s.contents inode := by
  unfold LFS.contents
  refine List.map_congr_left ?_
  intro p hp
  cases p with
  | none => rfl
  | some a =>
    obtain ⟨block, hget, hne⟩ := exists_block hs hfiles hj hp
    show t.disk[a]? = s.disk[a]?
    rw [hget]
    exact hdisk a block hget hne

/-! ## What is written -/

theorem makeRandomBlocks_length (draw : Nat → Char) (num : Int) :
    (makeRandomBlocks draw num).length = num.toNat := by
  unfold makeRandomBlocks
  rw [List.length_map, List.length_range]

/-- The blocks are stored wherever they are written. -/
theorem LFS.Settled.stored (ht : Settled u t) (hs : Valid s) (hfiles : FilesAt s)
    (hi : s.inodeOf i = some inode) (htype : inode.type = .regular) {offset : Nat}
    {blocks : List Str} {writes : List (Nat × Nat)}
    (hwrites : writes = potentialWrites offset s.disk.length blocks.length)
    (hu : u.disk = s.disk ++ (writtenBlocks blocks writes ++
      [.inode (writtenInode inode offset writes)]))
    (hmap : u.inodeMap = Function.update s.inodeMap i
      (some (s.disk ++ writtenBlocks blocks writes).length))
    (hmem : u.useDiskCr = s.useDiskCr) :
    Stored s t i inode (writtenInode inode offset writes) offset (blocks.take writes.length) := by
  have hdisk : Extends s.disk t.disk := Extends.trans (hu ▸ extends_append _ _) ht.extend
  have hmem' : t.useDiskCr = false := (ht.useDiskCr.trans hmem).trans hs.inMemory
  have hpointers := writtenInode_pointers hwrites (hfiles i inode hi htype).length
  have hle : writes.length ≤ blocks.length := by
    rw [hwrites, length_potentialWrites]
    exact Nat.min_le_left _ _
  have hlength : (blocks.take writes.length).length = writes.length := by
    rw [List.length_take, Nat.min_eq_left hle]
  constructor
  -- The new inode is the block logged last.
  · refine getInode_ok hmem' (ht.inodeOf (k := (writtenBlocks blocks writes).length) hu
      (getElem?_append_length _ _ []) ?_)
    rw [hmap, Function.update_self, List.length_append]
  · exact writtenInode_same inode offset writes
  · intro k block hk
    have hlt : k < writes.length := by
      rw [← hlength]
      exact (List.getElem?_eq_some_iff.mp hk).1
    refine ⟨s.disk.length + k, ?_, ?_⟩
    · rw [hpointers, if_pos (by omega), Nat.add_sub_cancel_left]
    · -- the data blocks are logged in order
      refine ht.get hu ?_ (by simp)
      have hin : k < (writtenBlocks blocks writes).length := by
        unfold writtenBlocks
        rw [List.length_map, hlength]
        exact hlt
      rw [List.getElem?_append_left hin, getElem?_writtenBlocks, hk]
      rfl
  · intro k hk
    rw [hlength] at hk
    -- A pointer outside of the range written is copied from the old inode.
    rw [hpointers, if_neg (by omega)]
  · intro j hj
    -- Other files keep their inode and, as the disk only grows, their blocks.
    refine getInode_congr hs hmem' hdisk ?_
    rw [ht.inodeMap, hmap, Function.update_of_ne hj]
  · intro j other hj
    exact contents_extend hs hfiles hdisk (hs.inodeOf hj)

/-- The size is where the write ends. -/
theorem fileWrites_stored (hs : Valid s) (hfiles : FilesAt s) (hi : s.inodeOf i = some inode)
    (htype : inode.type = .regular) (offset : Nat) (blocks : List Str) {w : Nat}
    (hw : w = min blocks.length (NUM_INODE_PTRS - offset)) : ∃ t newInode,
      s.fileWrites i inode offset blocks = (w, t) ∧
        Stored s t i inode newInode offset (blocks.take w) ∧ newInode.size = offset + w := by
  generalize hwrites : potentialWrites offset s.disk.length blocks.length = writes
  have hcount : writes.length = w := by
    rw [← hwrites, length_potentialWrites, hw]
  rw [fileWrites_eq s i inode offset blocks hwrites.symm, ← hcount]
  refine ⟨_, writtenInode inode offset writes, rfl, ?_, (foldl_pointTo_size writes _).1⟩
  exact (settled (hs.checkpoint.append _) _).stored hs hfiles hi htype hwrites.symm rfl rfl rfl

/-! ## When the size is right -/

/-- What `file_write` does to a file that a path resolves to. -/
theorem fileWrite_stored (hs : Valid s) (hfiles : FilesAt s)
    (hfile : s.regularAt path = some (i, inode)) {offset numBlks : Int} (hoffset : 0 ≤ offset)
    (hlt : offset < NUM_INODE_PTRS) (hnum : 0 ≤ numBlks) (draw : Nat → Char) : ∃ t newInode,
      s.fileWrite path offset numBlks draw = .ok (min numBlks (NUM_INODE_PTRS - offset), t) ∧
        Stored s t i inode newInode offset.toNat
          ((makeRandomBlocks draw numBlks).take (min numBlks (NUM_INODE_PTRS - offset)).toNat) ∧
        newInode.size = offset.toNat + (min numBlks (NUM_INODE_PTRS - offset)).toNat := by
  obtain ⟨s', hplan⟩ := regularAt_eq_some hfile
  have hrun : s.fileWrite path offset numBlks draw = _ := hplan.run hoffset hlt draw
  obtain ⟨e, rfl⟩ := hplan.frame
  have hw : (min numBlks (NUM_INODE_PTRS - offset)).toNat =
      min (makeRandomBlocks draw numBlks).length (NUM_INODE_PTRS - offset.toNat) := by
    rw [makeRandomBlocks_length]
    omega
  obtain ⟨t, newInode, hwrites, hstored, hsize⟩ := fileWrites_stored (hs.errors e)
    (s := { s with errorList := e }) hfiles (hs.inodeOf hplan.read) hplan.type offset.toNat
    (makeRandomBlocks draw numBlks) hw
  refine ⟨t, newInode, ?_, ?_, hsize⟩
  · rw [hrun, hwrites, Int.toNat_of_nonneg (by omega)]
  · exact ⟨hstored.read, hstored.same, hstored.inside, hstored.outside, hstored.others,
      hstored.kept⟩

/-- The file that was written ends where the write ends, or did not change. -/
def SizeRight (inode : Inode) (offset numBlks : Int) : Prop :=
  if numBlks = 0 then (inode.size : Int) = offset
  else (inode.size : Int) ≤ offset + min numBlks (NUM_INODE_PTRS - offset)

instance (inode : Inode) (offset numBlks : Int) : Decidable (SizeRight inode offset numBlks) :=
  inferInstanceAs (Decidable (ite _ _ _))

/-- In a valid state a write does what is asked of it exactly where its size is right. -/
theorem writesBlocks_iff (hs : Valid s) (hfiles : FilesAt s)
    (hfile : s.regularAt path = some (i, inode)) {offset numBlks : Int} (hoffset : 0 ≤ offset)
    (hlt : offset < NUM_INODE_PTRS) (hnum : 0 ≤ numBlks) (draw : Nat → Char) :
    WritesBlocks s path offset numBlks draw i inode ↔ SizeRight inode offset numBlks := by
  obtain ⟨t, newInode, hrun, hstored, hsize⟩ :=
    fileWrite_stored hs hfiles hfile hoffset hlt hnum draw
  have hptrs : (NUM_INODE_PTRS : Int) = 8 := rfl
  generalize hblocks : (makeRandomBlocks draw numBlks).take
    (min numBlks (NUM_INODE_PTRS - offset)).toNat = blocks at hstored
  have hlength : blocks.length = (min numBlks (NUM_INODE_PTRS - offset)).toNat := by
    rw [← hblocks, List.length_take, makeRandomBlocks_length]
    omega
  have hsize' : newInode.size = (if blocks = [] then inode.size
      else max inode.size (offset.toNat + blocks.length)) ↔ SizeRight inode offset numBlks := by
    unfold SizeRight
    rw [hsize, ← hlength]
    by_cases hzero : numBlks = 0
    · -- nothing is written, and the size becomes the offset
      have hnone : blocks = [] := List.length_eq_zero_iff.mp (by omega)
      rw [if_pos hnone, if_pos hzero]
      omega
    -- The offset is inside, so something is written and the size becomes its end.
    · have hsome : blocks ≠ [] := fun hnone => by
        rw [hnone, List.length_nil] at hlength
        omega
      rw [if_neg hsome, if_neg hzero]
      omega
  unfold WritesBlocks
  rw [hblocks, ← hsize']
  constructor
  · -- a call has one result
    rintro ⟨t', newInode', hrun', hwritten⟩
    rw [hrun] at hrun'
    cases hrun'
    have hread := hwritten.read
    rw [hstored.read] at hread
    cases hread
    exact hwritten.size
  · intro h
    exact ⟨t, newInode, hrun, hstored, h⟩

section Runs

variable {noForceCheckpoints : Bool} {inodePolicy : InodePolicy}

/-- **When a write is right.** In every reachable state, `file_write` does what is asked of it
exactly where the write ends the file. -/
theorem fileWrite_iff (s : LFS)
    (hs : (fileSystem false noForceCheckpoints inodePolicy).Reachable s) (path : Str) (i : Inum)
    (inode : Inode) (hfile : s.regularAt path = some (i, inode)) (offset numBlks : Int)
    (hoffset : 0 ≤ offset) (hlt : offset < NUM_INODE_PTRS) (hnum : 0 ≤ numBlks)
    (draw : Nat → Char) :
    WritesBlocks s path offset numBlks draw i inode ↔ SizeRight inode offset numBlks :=
  writesBlocks_iff (valid_reachable hs) (filesAt_reachable hs) hfile hoffset hlt hnum draw

/-- A state that a run of operations leads to, if all of them return what is expected. -/
theorem exists_reachable {ops : List (Op × Int)} {path : Str} {size : Nat}
    (h : (ops.foldlM next (LFS.new false noForceCheckpoints inodePolicy)).any (fun s =>
      (s.regularAt path).any fun found => found.2.size = size) = true) :
    ∃ s i inode, (fileSystem false noForceCheckpoints inodePolicy).Reachable s ∧
      s.regularAt path = some (i, inode) ∧ inode.size = size := by
  rw [Option.any_eq_true] at h
  obtain ⟨s, hs, hfound⟩ := h
  rw [Option.any_eq_true] at hfound
  obtain ⟨⟨i, inode⟩, hfile, hsize⟩ := hfound
  exact ⟨s, i, inode, ⟨_, _, rfl, Lts.run_ofFun.mpr hs⟩, hfile, of_decide_eq_true hsize⟩

/-- Two blocks at the start of a new file. -/
theorem fileWrite_iff_new : ∃ s i inode, (fileSystem false false .sequential).Reachable s ∧
    WritesBlocks s ['/', 'a'] 0 2 (fun _ => 'x') i inode := by
  obtain ⟨s, i, inode, hs, hfile, hsize⟩ := @exists_reachable false .sequential
    [(.fileCreate ['/', 'a'] 0, 0)] ['/', 'a'] 0 (by decide +kernel)
  have hright : SizeRight inode 0 2 := by
    unfold SizeRight
    rw [hsize]
    decide
  exact ⟨s, i, inode, hs, (fileWrite_iff s hs ['/', 'a'] i inode hfile 0 2 (by decide) (by decide)
    (by decide) _).mpr hright⟩

/-- One block written over the first of two: the size becomes 1. -/
theorem overwrite_truncates : ∃ s i inode, (fileSystem false false .sequential).Reachable s ∧
    s.regularAt ['/', 'a'] = some (i, inode) ∧ inode.size = 2 ∧
    ¬ WritesBlocks s ['/', 'a'] 0 1 (fun _ => 'x') i inode := by
  obtain ⟨s, i, inode, hs, hfile, hsize⟩ := @exists_reachable false .sequential
    [(.fileCreate ['/', 'a'] 0, 0), (.fileWrite ['/', 'a'] 0 2 (fun _ => 'x'), 2)] ['/', 'a'] 2
    (by decide +kernel)
  refine ⟨s, i, inode, hs, hfile, hsize, ?_⟩
  rw [writesBlocks_iff (valid_reachable hs) (filesAt_reachable hs) hfile (by decide) (by decide)
    (by decide)]
  unfold SizeRight
  rw [hsize]
  decide

end Runs

end OsLab.Lfs
