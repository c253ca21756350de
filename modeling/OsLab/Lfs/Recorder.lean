import OsLab.Lfs.Outcomes

/-!
# The block writes of an operation

A crash can stop an operation between any two of its writes to the disk. What it leaves is one of
the disks that the operation goes through, so a crash is reasoned about by collecting these.

* **`Recorder`** -- a file system together with the disks it has had, the oldest first. It is a
  device, so the operations of `OsLab.Lfs.Log` run on it as they are: a `log` and a `cr_sync` each
  add one disk, and what an operation does in memory adds none.
* **`Op.record`** -- an operation on a recorder that starts with the disk of the file system.
* **`Op.record_run`** -- recording does not change an operation: it returns the same value, leaves
  the same state and aborts when the operation does.
-/

namespace OsLab.Lfs

/-- A file system and the disks it has had. A stop leaves one of `disks`, the oldest first. -/
structure Recorder where
  lfs : LFS
  disks : List (List Block)

namespace Recorder

def log (r : Recorder) (block : Block) : Nat × Recorder :=
  let (address, s) := r.lfs.log block
  (address, ⟨s, r.disks ++ [s.disk]⟩)

def crSync (r : Recorder) : Recorder :=
  let s := r.lfs.crSync
  ⟨s, r.disks ++ [s.disk]⟩

/-- A step in memory adds no disk. -/
def memory (r : Recorder) (f : LFS → LFS) : Recorder := { r with lfs := f r.lfs }

end Recorder

instance : Device Recorder where
  lfs := Recorder.lfs
  memory := Recorder.memory
  log := Recorder.log
  crSync := Recorder.crSync

/-- The operation with its disks, the one it starts from first. An operation that aborts has
written nothing. -/
def Op.record (s : LFS) (op : Op) : Except Abort (Int × Recorder) :=
  op.runOn (⟨s, [s.disk]⟩ : Recorder)

/-! ## Recording changes nothing

An operation does the same on a recorder as on the file system that it holds. The parts that write
come first, from the loop of `update_imap` up, and then the operations, branch by branch. -/

/-- The result without the recorded disks. -/
def forget (a : Int × Recorder) : Int × LFS := (a.1, a.2.lfs)

namespace Recorder

/-- The loop logs the same imap chunks on a recorder as on its file system, since it decides from
the list of chunks alone. -/
theorem updateImapLoop_lfs (r : Recorder) (chunkList : List Cnum) (inums : List Inum) :
    (Device.updateImapLoop r chunkList inums).lfs = r.lfs.updateImapLoop chunkList inums := by
  induction inums generalizing r chunkList with
  | nil => rfl
  | cons inum inums ih =>
    rw [LFS.updateImapLoop_cons]
    unfold Device.updateImapLoop
    dsimp only
    split
    · exact ih r chunkList
    · rw [ih]
      rfl

/-- The checkpoint is written on a recorder if it is written on its file system: the flag is the
file system's own. -/
theorem forceCheckpoint_lfs (r : Recorder) :
    (Device.forceCheckpoint r).lfs = r.lfs.forceCheckpoint := by
  rw [LFS.forceCheckpoint_def]
  unfold Device.forceCheckpoint
  split
  · rename_i hflag
    exact (if_pos hflag).symm
  · rename_i hflag
    exact (if_neg hflag).symm

/-- How every operation that writes ends: the imap chunks, then the checkpoint. -/
theorem settle_lfs (r : Recorder) (inums : List Inum) :
    (Device.forceCheckpoint (Device.updateImap r inums)).lfs =
      (r.lfs.updateImap inums).forceCheckpoint := by
  rw [forceCheckpoint_lfs, LFS.updateImap_def]
  unfold Device.updateImap
  rw [updateImapLoop_lfs]

/-- A creation writes the same, whether it makes a file or a directory. -/
theorem createWrites_lfs (r : Recorder) (isFile : Bool) (p i : Inum) (parentInode : Inode)
    (k size : Nat) (entries : List (Str × Option Inum)) :
    (Device.createWrites r isFile p i parentInode k size entries).lfs =
      r.lfs.createWrites isFile p i parentInode k size entries := by
  cases isFile <;> exact settle_lfs _ [p, i]

/-- A link writes the same: the directory block, both inodes and the chunk of the directory. -/
theorem linkWrites_lfs (r : Recorder) (i p : Inum) (inode parentInode : Inode) (k size : Nat)
    (entries : List (Str × Option Inum)) :
    (Device.linkWrites r i p inode parentInode k size entries).lfs =
      r.lfs.linkWrites i p inode parentInode k size entries :=
  settle_lfs _ [p]

/-- The data blocks of a write are logged one after the other, on a recorder as on its file
system. -/
theorem foldl_log_lfs (r : Recorder) (contents : List Str) :
    (contents.foldl (fun r data => (Device.log r (.dataBlock data)).2) r).lfs =
      contents.foldl (fun s data => (s.log (.dataBlock data)).2) r.lfs := by
  induction contents generalizing r with
  | nil => rfl
  | cons data contents ih => exact ih _

/-- A write to a file stores the same blocks, and counts them the same. -/
theorem fileWrites_lfs (r : Recorder) (i : Inum) (inode : Inode) (offset : Nat)
    (contents : List Str) :
    (Device.fileWrites r i inode offset contents).1 =
        (r.lfs.fileWrites i inode offset contents).1 ∧
      (Device.fileWrites r i inode offset contents).2.lfs =
        (r.lfs.fileWrites i inode offset contents).2 := by
  refine ⟨rfl, ?_⟩
  unfold Device.fileWrites LFS.fileWrites Device.fileWrites
  dsimp only
  rw [forceCheckpoint_lfs]
  show LFS.forceCheckpoint _ = LFS.forceCheckpoint _
  congr 1
  simp only [LFS.device_lfs, LFS.device_memory, LFS.device_log, ← foldl_log_lfs]
  rfl

/-- A deletion writes the same: the inode of the file only if the file keeps a link. -/
theorem deleteWrites_lfs (r : Recorder) (i p : Inum) (inode parentInode : Inode) (k slot : Nat)
    (entries : List (Str × Option Inum)) :
    (Device.deleteWrites r i p inode parentInode k slot entries).lfs =
      r.lfs.deleteWrites i p inode parentInode k slot entries := by
  unfold LFS.deleteWrites Device.deleteWrites
  dsimp only
  split <;> exact settle_lfs _ [i, p]

/-- `__file_create` does the same on a recorder. Every refusal only reports an error, which is a
step in memory. -/
theorem create_lfs (r : Recorder) (path : Str) (isFile : Bool) (pick : Nat) :
    (Device.create r path isFile pick).map forget = r.lfs.create path isFile pick := by
  unfold LFS.create Device.create
  cases r.lfs.walkPath path with
  | error e => rfl
  | ok a =>
    obtain ⟨⟨inodeNumber, fileName, parent⟩, s⟩ := a
    cases inodeNumber with
    | some i => rfl
    | none =>
      cases parent with
      | none => rfl
      | some parent =>
        simp only [bind, Except.bind]
        cases s.allocateInode pick with
        | mk found s =>
          cases found with
          | none => rfl
          | some i =>
            simp only []
            cases LFS.addDirEntry s.disk parent.2 fileName i with
            | error e => rfl
            | ok added =>
              cases added with
              | none =>
                simp only []
                cases (s.errorLog _).freeInode i <;> rfl
              | some added => exact congrArg (fun s => Except.ok (0, s)) (createWrites_lfs ..)

/-- `file_link` does the same on a recorder: it walks both paths before it writes. -/
theorem fileLink_lfs (r : Recorder) (srcpath dstpath : Str) :
    (Device.fileLink r srcpath dstpath).map forget = r.lfs.fileLink srcpath dstpath := by
  unfold LFS.fileLink Device.fileLink
  dsimp only
  cases r.lfs.errorClear.walkPath srcpath with
  | error e => rfl
  | ok a =>
    obtain ⟨⟨inodeNumber, srcName, srcParent⟩, s⟩ := a
    cases inodeNumber with
    | none => rfl
    | some i =>
      simp only [bind, Except.bind]
      cases s.getInodeFromInumber i with
      | error e => rfl
      | ok inode =>
        simp only []
        split
        · rfl
        · cases s.walkPath dstpath with
          | error e => rfl
          | ok a =>
            obtain ⟨⟨found, name, parent⟩, s'⟩ := a
            cases found with
            | some j => rfl
            | none =>
              cases parent with
              | none => rfl
              | some parent =>
                simp only []
                cases LFS.addDirEntry s'.disk parent.2 name i with
                | error e => rfl
                | ok added =>
                  cases added with
                  | none => rfl
                  | some added => exact congrArg (fun s => Except.ok (0, s)) (linkWrites_lfs ..)

/-- `file_write` does the same on a recorder, and returns the same number of blocks. -/
theorem fileWrite_lfs (r : Recorder) (path : Str) (offset numBlks : Int) (draw : Nat → Char) :
    (Device.fileWrite r path offset numBlks draw).map forget =
      r.lfs.fileWrite path offset numBlks draw := by
  unfold LFS.fileWrite Device.fileWrite
  dsimp only
  cases r.lfs.errorClear.walkPath path with
  | error e => rfl
  | ok a =>
    obtain ⟨⟨inodeNumber, name, parent⟩, s⟩ := a
    cases inodeNumber with
    | none => rfl
    | some i =>
      simp only [bind, Except.bind]
      cases s.getInodeFromInumber i with
      | error e => rfl
      | ok inode =>
        simp only []
        split
        · rfl
        · split
          · rfl
          · obtain ⟨hwritten, hlfs⟩ := fileWrites_lfs (Device.memory r fun _ => s) i inode
              offset.toNat (makeRandomBlocks draw numBlks)
            show Except.ok (_, _) = Except.ok (_, _)
            rw [hlfs, hwritten]
            rfl

/-- `file_delete` does the same on a recorder: the inode number is freed in memory before the first
write. -/
theorem fileDelete_lfs (r : Recorder) (path : Str) :
    (Device.fileDelete r path).map forget = r.lfs.fileDelete path := by
  unfold LFS.fileDelete Device.fileDelete
  dsimp only
  cases r.lfs.errorClear.walkPath path with
  | error e => rfl
  | ok a =>
    obtain ⟨⟨inodeNumber, name, parent⟩, s⟩ := a
    cases inodeNumber with
    | none => rfl
    | some i =>
      cases parent with
      | none => rfl
      | some parent =>
        simp only [bind, Except.bind]
        cases s.getInodeFromInumber i with
        | error e => rfl
        | ok inode =>
          simp only []
          split
          · rfl
          · cases s.freeLast i inode with
            | error e => rfl
            | ok u =>
              simp only []
              cases LFS.findMatchingDirSlot u.disk name parent.2 with
              | error e => rfl
              | ok slot =>
                cases slot with
                | none => rfl
                | some slot =>
                  simp only []
                  cases LFS.readDirblock u.disk parent.2 slot.1 with
                  | error e => rfl
                  | ok entries => exact congrArg (fun s => Except.ok (0, s)) (deleteWrites_lfs ..)

end Recorder

/-- **The recorded operation is the operation.** Without the disks, its outcome is that of the
operation on the file system, for each of the six operations. -/
theorem Op.record_run (s : LFS) (op : Op) : (op.record s).map forget = op.run s := by
  cases op with
  | fileCreate path pick => exact Recorder.create_lfs _ path true pick
  | dirCreate path pick => exact Recorder.create_lfs _ path false pick
  | fileLink srcpath dstpath => exact Recorder.fileLink_lfs _ srcpath dstpath
  | fileWrite path offset numBlks draw => exact Recorder.fileWrite_lfs _ path offset numBlks draw
  | fileDelete path => exact Recorder.fileDelete_lfs _ path
  | sync => rfl

end OsLab.Lfs
