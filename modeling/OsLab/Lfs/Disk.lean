import OsLab.Lfs.Log

/-!
# The LFS disk as a log

Only the checkpoint block is ever overwritten: every other block stays where it was logged. The
writes of the operations are described by what they leave on disk and in `inode_map`.

* **`Extends`** -- the order on disks that every operation goes up.
* **`updateImapLoop_eq`**, **`checkpoint_forced`** -- what the imap chunks and the checkpoint leave.
* **`Settled`** -- what an operation leaves after its blocks are logged and its inodes are remapped.
* **`createWrites_file`**, **`linkWrites_eq`**, **`fileWrites_eq`**, **`deleteWrites_last`** -- the
  blocks that each operation logs, as one list.
-/

namespace OsLab.Lfs

/-! ## Growing disks -/

/-- `d'` has every block of `d` but the checkpoint. -/
def Extends (d d' : List Block) : Prop :=
  ∀ (a : Nat) block, d[a]? = some block → (∀ entries, block ≠ .checkpoint entries) →
    d'[a]? = some block

def HasCheckpoint (d : List Block) : Prop := ∃ entries, d[0]? = some (.checkpoint entries)

section Extending

variable {d d' d'' : List Block}

theorem Extends.refl (d : List Block) : Extends d d := fun _ _ h _ => h

/-- A disk that has every block of a second one, which has those of a third, has those of the
third. -/
theorem Extends.trans (h : Extends d d') (h' : Extends d' d'') : Extends d d'' :=
  fun a block hget hne => h' a block (h a block hget hne) hne

/-- A block that is logged overwrites nothing. -/
theorem extends_append (d blocks : List Block) : Extends d (d ++ blocks) := by
  intro a block hget _
  obtain ⟨hlt, _⟩ := List.getElem?_eq_some_iff.mp hget
  rw [List.getElem?_append_left hlt, hget]

/-- The checkpoint overwrites the checkpoint. -/
theorem extends_set_checkpoint (h : HasCheckpoint d) (entries : List (Option Nat)) :
    Extends d (d.set 0 (.checkpoint entries)) := by
  intro a block hget hne
  obtain ⟨old, hold⟩ := h
  have ha : a ≠ 0 := by
    rintro rfl
    exact hne old (Option.some.inj (hget.symm.trans hold))
  rw [List.getElem?_set_ne ha.symm, hget]

theorem HasCheckpoint.append (h : HasCheckpoint d) (blocks : List Block) :
    HasCheckpoint (d ++ blocks) := by
  obtain ⟨entries, hget⟩ := h
  obtain ⟨hlt, _⟩ := List.getElem?_eq_some_iff.mp hget
  exact ⟨entries, by rw [List.getElem?_append_left hlt, hget]⟩

theorem HasCheckpoint.set (h : HasCheckpoint d) (entries : List (Option Nat)) :
    HasCheckpoint (d.set 0 (.checkpoint entries)) := by
  obtain ⟨_, hget⟩ := h
  obtain ⟨hlt, _⟩ := List.getElem?_eq_some_iff.mp hget
  exact ⟨entries, by simp [hlt]⟩

/-- The first block that is logged is found at the old end of the log. -/
theorem getElem?_append_length (d : List Block) (block : Block) (blocks : List Block) :
    (d ++ block :: blocks)[d.length]? = some block := by
  simp

end Extending

/-! ## Writing the imap -/

namespace LFS

variable {s : LFS}

/-- Everything but the disk and `cr` is kept, and the disk grows. -/
theorem updateImapLoop_eq (s : LFS) (chunkList : List Cnum) (inums : List Inum) :
    ∃ blocks cr, s.updateImapLoop chunkList inums =
      { s with disk := s.disk ++ blocks, cr := cr } := by
  induction inums generalizing s chunkList with
  | nil => exact ⟨[], s.cr, by simp [updateImapLoop_nil]⟩
  | cons inum inums ih =>
    rw [updateImapLoop_cons]
    split
    · exact ih s chunkList
    · obtain ⟨blocks, cr, heq⟩ := ih
        { s with
          disk := s.disk ++ [s.makeImapChunk (inumToChunk inum)]
          cr := s.cr.set (inumToChunk inum).val (some s.disk.length) }
        (chunkList ++ [inumToChunk inum])
      refine ⟨s.makeImapChunk (inumToChunk inum) :: blocks, cr, ?_⟩
      simpa using heq

theorem updateImap_eq (s : LFS) (inums : List Inum) :
    ∃ blocks cr, s.updateImap inums = { s with disk := s.disk ++ blocks, cr := cr } :=
  updateImapLoop_eq s [] inums

/-- `file_write` logs the chunk of its inode number as `update_imap` does. -/
theorem updateImap_singleton (s : LFS) (inum : Inum) :
    s.updateImap [inum] = { s with
      disk := s.disk ++ [s.makeImapChunk (inumToChunk inum)]
      cr := s.cr.set (inumToChunk inum).val (some s.disk.length) } := by
  simp [updateImap_def, updateImapLoop_cons, updateImapLoop_nil]

theorem hasCheckpoint_updateImap (h : HasCheckpoint s.disk) (inums : List Inum) :
    HasCheckpoint (s.updateImap inums).disk := by
  obtain ⟨blocks, cr, heq⟩ := s.updateImap_eq inums
  rw [heq]
  exact h.append blocks

theorem extends_forceCheckpoint (h : HasCheckpoint s.disk) :
    Extends s.disk s.forceCheckpoint.disk := by
  rw [forceCheckpoint_def]
  split
  · exact .refl _
  · exact extends_set_checkpoint h s.cr

/-- What an operation leaves after its blocks are logged and its inodes are remapped. -/
structure Settled (s t : LFS) : Prop where
  extend : Extends s.disk t.disk
  length_le : s.disk.length ≤ t.disk.length
  checkpoint : HasCheckpoint t.disk
  inodeMap : t.inodeMap = s.inodeMap
  useDiskCr : t.useDiskCr = s.useDiskCr
  noForceCheckpoints : t.noForceCheckpoints = s.noForceCheckpoints

/-- The chunks and the checkpoint of an operation settle what it has logged. -/
theorem settled (h : HasCheckpoint s.disk) (inums : List Inum) :
    Settled s (s.updateImap inums).forceCheckpoint := by
  obtain ⟨blocks, cr, heq⟩ := s.updateImap_eq inums
  have happend := extends_append s.disk blocks
  have hcheckpoint := h.append blocks
  rw [heq, forceCheckpoint_def]
  split
  · exact ⟨happend, by simp, hcheckpoint, rfl, rfl, rfl⟩
  · exact ⟨happend.trans (extends_set_checkpoint hcheckpoint _), by simp [crSync],
      hcheckpoint.set _, rfl, rfl, rfl⟩

/-- A block that was logged is on the disk in the end. -/
theorem Settled.get {t u : LFS} (h : Settled u t) {d blocks : List Block}
    (hdisk : u.disk = d ++ blocks) {k : Nat} {block : Block} (hk : blocks[k]? = some block)
    (hne : ∀ entries, block ≠ .checkpoint entries) : t.disk[d.length + k]? = some block := by
  refine h.extend _ block ?_ hne
  rw [hdisk, List.getElem?_append_right (Nat.le_add_right ..), Nat.add_sub_cancel_left, hk]

@[simp] theorem forceCheckpoint_cr (s : LFS) : s.forceCheckpoint.cr = s.cr := by
  rw [forceCheckpoint_def]
  split <;> rfl

/-- A forced checkpoint leaves the current `cr` in block 0. -/
theorem checkpoint_forced (hforced : s.noForceCheckpoints = false) (h : HasCheckpoint s.disk)
    (inums : List Inum) :
    (s.updateImap inums).forceCheckpoint.disk[0]? =
      some (.checkpoint (s.updateImap inums).forceCheckpoint.cr) := by
  obtain ⟨blocks, cr, heq⟩ := s.updateImap_eq inums
  have hpos : 0 < (s.disk ++ blocks).length := by
    obtain ⟨_, hget⟩ := h.append blocks
    exact (List.getElem?_eq_some_iff.mp hget).1
  rw [heq]
  simp only [forceCheckpoint_def, hforced, Bool.false_eq_true, if_false]
  exact List.getElem?_set_self hpos

end LFS

/-! ## Writes -/

section Writes

variable {s : LFS}

/-- The inodes of `__file_create` before it writes: the directory's and the new one. -/
def newParent (isFile : Bool) (parentInode : Inode) (parentSize : Nat) : Inode :=
  if isFile then { parentInode with size := parentSize }
  else { parentInode with size := parentSize, refs := parentInode.refs + 1 }

/-- The blocks of a new file: its directory's block, both inodes and the chunks. -/
theorem createWrites_file (s : LFS) (p i : Inum) (parentInode : Inode) (k size : Nat)
    (entries : List (Str × Option Inum)) :
    s.createWrites true p i parentInode k size entries =
      (LFS.updateImap { s with
        disk := s.disk ++ [.dataDirectory entries,
          .inode (LFS.pointTo (newParent true parentInode size) k s.disk.length),
          .inode (makeInode .regular 0 1)]
        inodeMap := Function.update (Function.update s.inodeMap p (some (s.disk.length + 1))) i
          (some (s.disk.length + 2)) } [p, i]).forceCheckpoint := by
  simp [LFS.createWrites, Device.createWrites, LFS.log, LFS.remap, newParent]

/-- The blocks of a new directory, which has one of its own. -/
theorem createWrites_dir (s : LFS) (p i : Inum) (parentInode : Inode) (k size : Nat)
    (entries : List (Str × Option Inum)) :
    s.createWrites false p i parentInode k size entries =
      (LFS.updateImap { s with
        disk := s.disk ++ [.dataDirectory entries, makeNewDirblock p i,
          .inode (LFS.pointTo (newParent false parentInode size) k s.disk.length),
          .inode (LFS.pointTo (makeInode .directory 1 2) 0 (s.disk.length + 1))]
        inodeMap := Function.update (Function.update s.inodeMap p (some (s.disk.length + 2))) i
          (some (s.disk.length + 3)) } [p, i]).forceCheckpoint := by
  simp [LFS.createWrites, Device.createWrites, LFS.log, LFS.remap, newParent]

/-- The blocks of a link. -/
theorem linkWrites_eq (s : LFS) (i p : Inum) (inode parentInode : Inode) (k size : Nat)
    (entries : List (Str × Option Inum)) :
    s.linkWrites i p inode parentInode k size entries =
      (LFS.updateImap { s with
        disk := s.disk ++ [.dataDirectory entries,
          .inode (LFS.pointTo { parentInode with size := size } k s.disk.length),
          .inode { inode with refs := inode.refs + 1 }]
        inodeMap := Function.update (Function.update s.inodeMap p (some (s.disk.length + 1))) i
          (some (s.disk.length + 2)) } [p]).forceCheckpoint := by
  simp [LFS.linkWrites, Device.linkWrites, LFS.log, LFS.remap]

/-- Logging one data block after the other. -/
theorem foldl_log (s : LFS) (contents : List Str) :
    contents.foldl (fun s data => (s.log (.dataBlock data)).2) s =
      { s with disk := s.disk ++ contents.map .dataBlock } := by
  induction contents generalizing s with
  | nil => simp
  | cons data contents ih =>
    rw [List.foldl_cons, ih]
    simp [LFS.log]

/-- The inode that `file_write` logs. -/
def writtenInode (inode : Inode) (offset : Nat) (writes : List (Nat × Nat)) : Inode :=
  writes.foldl (fun inode w => LFS.pointTo inode w.1 w.2)
    { inode with size := offset + writes.length }

theorem foldl_pointTo (writes : List (Nat × Nat)) (inode : Inode) :
    (writes.foldl (fun inode w => LFS.pointTo inode w.1 w.2) inode).type = inode.type ∧
      (writes.foldl (fun inode w => LFS.pointTo inode w.1 w.2) inode).refs = inode.refs := by
  induction writes generalizing inode with
  | nil => exact ⟨rfl, rfl⟩
  | cons w writes ih => exact ih (LFS.pointTo inode w.1 w.2)

theorem writtenInode_same (inode : Inode) (offset : Nat) (writes : List (Nat × Nat)) :
    (writtenInode inode offset writes).type = inode.type ∧
      (writtenInode inode offset writes).refs = inode.refs :=
  foldl_pointTo writes { inode with size := offset + writes.length }

/-- The data blocks that `file_write` logs. -/
def writtenBlocks (contents : List Str) (writes : List (Nat × Nat)) : List Block :=
  (contents.take writes.length).map .dataBlock

/-- The blocks of a write: the data, the inode and the chunk. -/
theorem fileWrites_eq (s : LFS) (i : Inum) (inode : Inode) (offset : Nat) (contents : List Str)
    {writes : List (Nat × Nat)}
    (h : writes = LFS.potentialWrites offset s.disk.length contents.length) :
    s.fileWrites i inode offset contents =
      (writes.length, (LFS.updateImap { s with
        disk := s.disk ++ (writtenBlocks contents writes ++
          [.inode (writtenInode inode offset writes)])
        inodeMap := Function.update s.inodeMap i
          (some (s.disk ++ writtenBlocks contents writes).length) } [i]).forceCheckpoint) := by
  subst h
  simp only [LFS.updateImap_singleton, LFS.fileWrites, Device.fileWrites, LFS.device_lfs,
    LFS.device_log, foldl_log]
  simp [LFS.log, LFS.remap, writtenInode, writtenBlocks]

/-- The last link goes: `inode_map` has already lost the inode number. -/
theorem deleteWrites_last (s : LFS) (i p : Inum) {inode : Inode} (hrefs : ¬ 1 < inode.refs)
    (parentInode : Inode) (k slot : Nat) (entries : List (Str × Option Inum)) :
    s.deleteWrites i p inode parentInode k slot entries =
      (LFS.updateImap { s with
        disk := s.disk ++ [.dataDirectory (entries.set slot (['-'], none)),
          .inode (LFS.pointTo parentInode k s.disk.length)]
        inodeMap := Function.update s.inodeMap p (some (s.disk.length + 1)) }
        [i, p]).forceCheckpoint := by
  simp [LFS.deleteWrites, Device.deleteWrites, LFS.log, LFS.remap, hrefs]

/-- A link goes, and the file is logged with one less. -/
theorem deleteWrites_more (s : LFS) (i p : Inum) {inode : Inode} (hrefs : 1 < inode.refs)
    (parentInode : Inode) (k slot : Nat) (entries : List (Str × Option Inum)) :
    s.deleteWrites i p inode parentInode k slot entries =
      (LFS.updateImap { s with
        disk := s.disk ++ [.dataDirectory (entries.set slot (['-'], none)),
          .inode (LFS.pointTo parentInode k s.disk.length),
          .inode { inode with refs := inode.refs - 1 }]
        inodeMap := Function.update (Function.update s.inodeMap p (some (s.disk.length + 1))) i
          (some (s.disk.length + 2)) } [i, p]).forceCheckpoint := by
  simp [LFS.deleteWrites, Device.deleteWrites, LFS.log, LFS.remap, hrefs]

end Writes

end OsLab.Lfs
