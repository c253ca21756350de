import Mathlib.Data.List.FinRange
import Mathlib.Logic.Function.Basic
import OsLab.Lib.Lts
import OsLab.Python

/-!
# The LFS simulator

`class LFS` of `lfs.py`. An address or an inode number of -1 is `none`; a random choice is an
argument. What fails with an exception is an `Except`, so an aborted operation is one without a
result.

* **`Block`**, **`Inode`**, **`LFS`** -- the disk as a list of blocks, with the checkpoint region,
  the inode map and the error list beside it.
* **`walkPath`**, **`findMatchingDirSlot`**, **`addDirEntry`** -- how a path is followed and a
  directory is updated. They read the disk and write nothing.
* **`Device`** -- what an operation runs on: something that holds a file system, and that counts a
  `log` and a `cr_sync` as one write each. The operations are written once, for every device.
* **`Op`**, **`next`**, **`fileSystem`** -- the operations with the code that they return, as a
  transition system. `useDiskCr` and `noForceCheckpoints` are the flags of `-D` and `-N`.
-/

namespace OsLab.Lfs

def ADDR_CHECKPOINT_BLOCK : Nat := 0

def NUM_IMAP_PTRS_IN_CR : Nat := 16

def NUM_INODES_PER_IMAP_CHUNK : Nat := 16

def NUM_INODE_PTRS : Nat := 8

def NUM_INODES : Nat := NUM_IMAP_PTRS_IN_CR * NUM_INODES_PER_IMAP_CHUNK

/-- The keys of `inode_map`. -/
abbrev Inum := Fin NUM_INODES

def ROOT_INODE : Inum := ⟨0, by decide⟩

inductive InodeType where
  | directory
  | regular
  deriving DecidableEq

structure Inode where
  type : InodeType
  size : Nat
  refs : Int
  pointers : List (Option Nat)
  deriving DecidableEq

inductive Block where
  | checkpoint (entries : List (Option Nat))
  | dataDirectory (entries : List (Str × Option Inum))
  | dataBlock (contents : Str)
  | inode (inode : Inode)
  | imap (entries : List (Option Nat))
  deriving DecidableEq

inductive InodePolicy where
  | sequential
  | random
  deriving DecidableEq

structure LFS where
  useDiskCr : Bool
  noForceCheckpoints : Bool
  inodePolicy : InodePolicy
  disk : List Block
  cr : List (Option Nat)
  inodeMap : Inum → Option Nat
  errorList : List Str

def makeInode (type : InodeType) (size : Nat) (refs : Int) : Inode :=
  ⟨type, size, refs, List.replicate 8 none⟩

/-- The entries of the block that `make_empty_dirblock` makes. -/
def emptyEntries : List (Str × Option Inum) := List.replicate 8 (['-'], none)

def makeNewDirblock (parentInum currentInum : Inum) : Block :=
  .dataDirectory ((emptyEntries.set 0 (['.'], some currentInum)).set 1 (['.', '.'], some parentInum))

/-- The letters that are drawn are an argument. -/
def makeRandomBlocks (draw : Nat → Char) (num : Int) : List Str :=
  (List.range num.toNat).map fun i =>
    (List.replicate 16 (draw i :: (toString i).toList)).flatten

/-- The positions in `cr`. -/
abbrev Cnum := Fin NUM_IMAP_PTRS_IN_CR

instance : LawfulBEq Cnum := inferInstance

def inumToChunk (inum : Inum) : Cnum :=
  ⟨inum / NUM_INODES_PER_IMAP_CHUNK, Nat.div_lt_of_lt_mul (by have := inum.isLt; exact this)⟩

/-- The inode number at offset `i` of chunk `cnum`. -/
def chunkInum (cnum : Cnum) (i : Fin NUM_INODES_PER_IMAP_CHUNK) : Inum :=
  ⟨cnum * NUM_INODES_PER_IMAP_CHUNK + i, by
    have := cnum.isLt
    have := i.isLt
    simp only [NUM_INODES, NUM_IMAP_PTRS_IN_CR, NUM_INODES_PER_IMAP_CHUNK] at *
    omega⟩

namespace LFS

def makeImapChunk (s : LFS) (cnum : Cnum) : Block :=
  .imap (List.ofFn fun i => s.inodeMap (chunkInum cnum i))

def errorLog (s : LFS) (e : Str) : LFS := { s with errorList := s.errorList ++ [e] }

def errorClear (s : LFS) : LFS := { s with errorList := [] }

def log (s : LFS) (block : Block) : Nat × LFS :=
  (s.disk.length, { s with disk := s.disk ++ [block] })

/-- `__init__` -/
def new (useDiskCr noForceCheckpoints : Bool) (inodePolicy : InodePolicy) : LFS :=
  let s : LFS := {
    useDiskCr := useDiskCr
    noForceCheckpoints := noForceCheckpoints
    inodePolicy := inodePolicy
    disk := []
    cr := some 3 :: List.replicate 15 none
    inodeMap := fun _ => none
    errorList := [] }
  let (_, s) := s.log (.checkpoint s.cr)
  let (_, s) := s.log (makeNewDirblock ROOT_INODE ROOT_INODE)
  let rootInode := makeInode .directory 1 2
  let rootInode := { rootInode with pointers := rootInode.pointers.set 0 (some 1) }
  let (rootInodeAddress, s) := s.log (.inode rootInode)
  let s := { s with inodeMap := Function.update s.inodeMap ROOT_INODE (some rootInodeAddress) }
  let (_, s) := s.log (s.makeImapChunk ⟨ROOT_INODE, by decide⟩)
  s

/-- The free inode number that `allocate_inode` finds; under the random policy `pick` chooses. -/
def freeInumber (s : LFS) (pick : Nat) : Option Inum :=
  let free := (List.finRange NUM_INODES).filter fun i => s.inodeMap i = none
  match s.inodePolicy with
  | .sequential => free[0]?
  | .random => free[pick % free.length]?

def allocateInode (s : LFS) (pick : Nat) : Option Inum × LFS :=
  match s.freeInumber pick with
  | some i => (some i, { s with inodeMap := Function.update s.inodeMap i (some 1) })
  | none => (none, s)

def freeInode (s : LFS) (inum : Inum) : Except Abort LFS := do
  assert (s.inodeMap inum ≠ none) "self.inode_map[inum] != -1"
  return { s with inodeMap := Function.update s.inodeMap inum none }

def remap (s : LFS) (inodeNumber : Inum) (inodeAddress : Nat) : LFS :=
  { s with inodeMap := Function.update s.inodeMap inodeNumber (some inodeAddress) }

def crSync (s : LFS) : LFS :=
  { s with disk := s.disk.set ADDR_CHECKPOINT_BLOCK (.checkpoint s.cr) }

/-- The address `get_inode_from_inumber` reads the inode from. -/
def inodeAddress (s : LFS) (inodeNumber : Inum) : Except Abort (Option Nat) :=
  if s.useDiskCr then do
    let checkpointBlock ← index s.disk (some ADDR_CHECKPOINT_BLOCK)
    match checkpointBlock with
    | .checkpoint entries => do
      let imapBlockAddress ← index entries (some (inodeNumber.val / NUM_INODES_PER_IMAP_CHUNK))
      let imapBlock ← index s.disk imapBlockAddress
      match imapBlock with
      | .imap entries => index entries (some (inodeNumber.val % NUM_INODES_PER_IMAP_CHUNK))
      | _ => .error (.assertionError "imap_block['block_type'] == BLOCK_TYPE_IMAP")
    | _ => .error (.assertionError "checkpoint_block['block_type'] == BLOCK_TYPE_CHECKPOINT")
  else
    .ok (s.inodeMap inodeNumber)

def getInodeFromInumber (s : LFS) (inodeNumber : Inum) : Except Abort Inode := do
  let inodeAddress ← s.inodeAddress inodeNumber
  match inodeAddress with
  | some inodeAddress => do
    let block ← index s.disk (some inodeAddress)
    match block with
    | .inode inode => return inode
    | _ => .error (.assertionError "inode['block_type'] == BLOCK_TYPE_INODE")
  | none => .error (.assertionError "inode_address != -1")

/-- The entries of the directory block at `address`. -/
def readEntries (disk : List Block) (address : Option Nat) :
    Except Abort (List (Str × Option Inum)) := do
  let directoryBlock ← index disk address
  match directoryBlock with
  | .dataDirectory entries => return entries
  | _ => .error (.assertionError "directory_block['block_type'] == BLOCK_TYPE_DATA_DIRECTORY")

/-- The loop of `__lookup` over the pointers. -/
def lookupLoop (disk : List Block) (name : Str) : List (Option Nat) → Except Abort (Option Inum)
  | [] => .ok none
  | none :: pointers => lookupLoop disk name pointers
  | some address :: pointers => do
    let entries ← readEntries disk (some address)
    match entries.find? (·.1 = name) with
    | some (_, entryInodeNumber) => return entryInodeNumber
    | none => lookupLoop disk name pointers

def lookup (s : LFS) (parentInodeNumber : Inum) (name : Str) :
    Except Abort (Option Inum × Inode) := do
  let parentInode ← s.getInodeFromInumber parentInodeNumber
  assert (parentInode.type = .directory) "parent_inode['type'] == INODE_DIRECTORY"
  let inodeNumber ← lookupLoop s.disk name parentInode.pointers
  return (inodeNumber, parentInode)

/-- The loop of `__walk_path` over the directories of a path. -/
def walkLoop (s : LFS) (parentInodeNumber : Inum) : List Str → Except Abort (Option Inum × LFS)
  | [] => .ok (some parentInodeNumber, s)
  | name :: names => do
    let (inodeNumber, inode) ← s.lookup parentInodeNumber name
    match inodeNumber with
    | none =>
      return (none, s.errorLog ("directory ".toList ++ name ++ " not found".toList))
    | some inodeNumber =>
      if inode.type ≠ .directory then
        return (none, s.errorLog
          ("invalid element of path [".toList ++ name ++ "] (not a dir)".toList))
      else
        s.walkLoop inodeNumber names

/-- What `__walk_path` returns: there is no parent when the walk fails. -/
structure Walk where
  inodeNumber : Option Inum
  fileName : Str
  parent : Option (Inum × Inode)

def walkPath (s : LFS) (path : Str) : Except Abort (Walk × LFS) := do
  let splitPath := split path '/'
  if splitPath.head? ≠ some [] then
    return (⟨none, [], none⟩, s.errorLog "path malformed: must start with /".toList)
  else do
    let (parentInodeNumber, s) ← s.walkLoop ROOT_INODE (splitPath.drop 1).dropLast
    match parentInodeNumber with
    | none => return (⟨none, [], none⟩, s)
    | some parentInodeNumber => do
      let fileName ← index splitPath (some (splitPath.length - 1))
      let (inodeNumber, parentInode) ← s.lookup parentInodeNumber fileName
      return (⟨inodeNumber, fileName, some (parentInodeNumber, parentInode)⟩, s)

def readDirblock (disk : List Block) (inode : Inode) (inodeIndex : Nat) :
    Except Abort (List (Str × Option Inum)) := do
  let address ← index inode.pointers (some inodeIndex)
  readEntries disk address

def findSlotLoop (disk : List Block) (name : Str) (inode : Inode) :
    List Nat → Except Abort (Option (Nat × Nat))
  | [] => .ok none
  | inodeIndex :: inodeIndices => do
    let entries ← readDirblock disk inode inodeIndex
    match entries.findIdx? (·.1 = name) with
    | some slotIndex => return some (inodeIndex, slotIndex)
    | none => findSlotLoop disk name inode inodeIndices

def findMatchingDirSlot (disk : List Block) (name : Str) (inode : Inode) :
    Except Abort (Option (Nat × Nat)) :=
  findSlotLoop disk name inode (List.range inode.size)

/-- `index_to_update`, `parent_size` and the entries of `new_directory_block`. -/
def addDirEntry (disk : List Block) (parentInode : Inode) (fileName : Str) (inodeNumber : Inum) :
    Except Abort (Option (Nat × Nat × List (Str × Option Inum))) := do
  let slot ← findMatchingDirSlot disk ['-'] parentInode
  match slot with
  | some (inodeIndex, dirblockIndex) => do
    let entries ← readDirblock disk parentInode inodeIndex
    return some (inodeIndex, parentInode.size,
      entries.set dirblockIndex (fileName, some inodeNumber))
  | none =>
    if parentInode.size ≠ NUM_INODE_PTRS then
      return some (parentInode.size, parentInode.size + 1,
        emptyEntries.set 0 (fileName, some inodeNumber))
    else
      return none

/-- The inode with its directory block `indexToUpdate` at `address`. -/
def pointTo (inode : Inode) (indexToUpdate address : Nat) : Inode :=
  { inode with pointers := inode.pointers.set indexToUpdate (some address) }

/-- The loop that lists the writes: `numBlks` contents are left. -/
def potentialWrites (currentOffset currentLogPtr : Nat) : Nat → List (Nat × Nat)
  | 0 => []
  | numBlks + 1 =>
    if currentOffset < NUM_INODE_PTRS then
      (currentOffset, currentLogPtr) ::
        potentialWrites (currentOffset + 1) (currentLogPtr + 1) numBlks
    else
      []

/-- Free the inode number of a file that is down to its last link. -/
def freeLast (s : LFS) (inodeNumber : Inum) (inode : Inode) : Except Abort LFS :=
  if inode.refs = 1 then s.freeInode inodeNumber else return s

end LFS

/-! ## The operations

The program writes to its disk in two ways: `log` puts a block behind the last one, and `cr_sync`
puts the checkpoint into block 0. Everything else that an operation does is in memory. The
operations are written over these three kinds of steps, so that one text runs both on a file system
and on a recorder, which also keeps what is on the disk after each of the writes. -/

/-- What an operation runs on. `lfs` is the file system as it is now, and `memory` changes it
without a write. -/
class Device (σ : Type) where
  lfs : σ → LFS
  memory : σ → (LFS → LFS) → σ
  log : σ → Block → Nat × σ
  crSync : σ → σ

namespace Device

variable {σ : Type} [Device σ]

/-- Chunks in `chunkList` are done. -/
def updateImapLoop (r : σ) (chunkList : List Cnum) : List Inum → σ
  | [] => r
  | inum :: inums =>
    let cnum := inumToChunk inum
    if cnum ∈ chunkList then
      updateImapLoop r chunkList inums
    else
      let (_, r) := log r ((lfs r).makeImapChunk cnum)
      let r := memory r fun s => { s with cr := s.cr.set cnum.val (some (s.disk.length - 1)) }
      updateImapLoop r (chunkList ++ [cnum]) inums

def updateImap (r : σ) (inumList : List Inum) : σ := updateImapLoop r [] inumList

/-- Checkpoint the file system after an update, unless told not to. -/
def forceCheckpoint (r : σ) : σ := if (lfs r).noForceCheckpoints then r else crSync r

/-- The part of `__file_create` that writes. -/
def createWrites (r : σ) (isFile : Bool) (parentInodeNumber newInodeNumber : Inum)
    (parentInode : Inode) (indexToUpdate parentSize : Nat)
    (newEntries : List (Str × Option Inum)) : σ :=
  let (newDirectoryBlockAddress, r) := log r (.dataDirectory newEntries)
  let newParentInode := { parentInode with size := parentSize }
  let newParentInode :=
    if isFile then newParentInode else { newParentInode with refs := newParentInode.refs + 1 }
  let newParentInode := LFS.pointTo newParentInode indexToUpdate newDirectoryBlockAddress
  let (newInode, r) :=
    if isFile then
      (makeInode .regular 0 1, r)
    else
      let (newDirblockAddress, r) := log r (makeNewDirblock parentInodeNumber newInodeNumber)
      (LFS.pointTo (makeInode .directory 1 2) 0 newDirblockAddress, r)
  let (newParentInodeAddress, r) := log r (.inode newParentInode)
  let (newInodeAddress, r) := log r (.inode newInode)
  let r := memory r (·.remap parentInodeNumber newParentInodeAddress)
  let r := memory r (·.remap newInodeNumber newInodeAddress)
  forceCheckpoint (updateImap r [parentInodeNumber, newInodeNumber])

/-- `__file_create` -/
def create (r : σ) (path : Str) (isFile : Bool) (pick : Nat) : Except Abort (Int × σ) := do
  let (walk, s) ← (lfs r).walkPath path
  match walk.inodeNumber, walk.parent with
  | some _, _ =>
    return (-1, memory r fun _ => s.errorLog "create failed: file already exists".toList)
  | none, none =>
    return (-1, memory r fun _ => s.errorLog
      ("create failed: walkpath returned error [".toList ++ path ++ "]".toList))
  | none, some (parentInodeNumber, parentInode) =>
    match s.allocateInode pick with
    | (none, s) =>
      return (-1, memory r fun _ => s.errorLog "create failed: no more inodes available".toList)
    | (some newInodeNumber, s) => do
      let added ← LFS.addDirEntry s.disk parentInode walk.fileName newInodeNumber
      match added with
      | none => do
        let s := s.errorLog ("error: directory is full (path ".toList ++ path ++ ")".toList)
        let s ← s.freeInode newInodeNumber
        return (-1, memory r fun _ => s)
      | some (indexToUpdate, parentSize, newEntries) =>
        return (0, createWrites (memory r fun _ => s) isFile parentInodeNumber newInodeNumber
          parentInode indexToUpdate parentSize newEntries)

/-- The part of `file_link` that writes. -/
def linkWrites (r : σ) (srcInodeNumber dstParentInodeNumber : Inum)
    (srcInode dstParentInode : Inode) (dstIndexToUpdate dstParentSize : Nat)
    (newEntries : List (Str × Option Inum)) : σ :=
  let (newDirectoryBlockAddress, r) := log r (.dataDirectory newEntries)
  let newDstParentInode := { dstParentInode with size := dstParentSize }
  let newDstParentInode := LFS.pointTo newDstParentInode dstIndexToUpdate newDirectoryBlockAddress
  let (newDstParentInodeAddress, r) := log r (.inode newDstParentInode)
  let newSrcInode := { srcInode with refs := srcInode.refs + 1 }
  let (newSrcInodeAddress, r) := log r (.inode newSrcInode)
  let r := memory r (·.remap dstParentInodeNumber newDstParentInodeAddress)
  let r := memory r (·.remap srcInodeNumber newSrcInodeAddress)
  -- only the chunk of the destination directory is written
  forceCheckpoint (updateImap r [dstParentInodeNumber])

def fileLink (r : σ) (srcpath dstpath : Str) : Except Abort (Int × σ) := do
  let s := (lfs r).errorClear
  let (src, s) ← s.walkPath srcpath
  match src.inodeNumber with
  | none =>
    return (-1, memory r fun _ => s.errorLog
      ("link failed, src [".toList ++ srcpath ++ "] not found".toList))
  | some srcInodeNumber => do
    let srcInode ← s.getInodeFromInumber srcInodeNumber
    if srcInode.type ≠ .regular then
      return (-1, memory r fun _ => s.errorLog
        ("link failed: cannot link to non-regular file [".toList ++ srcpath ++ "]".toList))
    else do
      let (dst, s) ← s.walkPath dstpath
      match dst.inodeNumber, dst.parent with
      | some _, _ =>
        return (-1, memory r fun _ => s.errorLog
          ("link failed, dst [".toList ++ dstpath ++ "] exists".toList))
      -- the parent inode is the empty string
      | none, none => .error .typeError
      | none, some (dstParentInodeNumber, dstParentInode) => do
        let added ← LFS.addDirEntry s.disk dstParentInode dst.fileName srcInodeNumber
        match added with
        | none =>
          return (-1, memory r fun _ => s.errorLog
            ("error: directory is full [path ".toList ++ dstpath ++ "]".toList))
        | some (dstIndexToUpdate, dstParentSize, newEntries) =>
          return (0, linkWrites (memory r fun _ => s) srcInodeNumber dstParentInodeNumber srcInode
            dstParentInode dstIndexToUpdate dstParentSize newEntries)

/-- The part of `file_write` that writes. -/
def fileWrites (r : σ) (inodeNumber : Inum) (inode : Inode) (offset : Nat)
    (contents : List Str) : Nat × σ :=
  let writes := LFS.potentialWrites offset (lfs r).disk.length contents.length
  let r := (contents.take writes.length).foldl (fun r data => (log r (.dataBlock data)).2) r
  let newInode := { inode with size := offset + writes.length }
  let newInode := writes.foldl (fun inode w => LFS.pointTo inode w.1 w.2) newInode
  let (newInodeAddress, r) := log r (.inode newInode)
  let r := memory r (·.remap inodeNumber newInodeAddress)
  let (_, r) := log r ((lfs r).makeImapChunk (inumToChunk inodeNumber))
  let r := memory r fun s =>
    { s with cr := s.cr.set (inumToChunk inodeNumber).val (some (s.disk.length - 1)) }
  (writes.length, forceCheckpoint r)

def fileWrite (r : σ) (path : Str) (offset numBlks : Int) (draw : Nat → Char) :
    Except Abort (Int × σ) := do
  let s := (lfs r).errorClear
  let contents := makeRandomBlocks draw numBlks
  let (walk, s) ← s.walkPath path
  match walk.inodeNumber with
  | none =>
    return (-1, memory r fun _ => s.errorLog
      ("write failed: file not found [path ".toList ++ path ++ "]".toList))
  | some inodeNumber => do
    let inode ← s.getInodeFromInumber inodeNumber
    if inode.type ≠ .regular then
      return (-1, memory r fun _ => s.errorLog
        ("write failed: cannot write to non-regular file ".toList ++ path))
    else if offset < 0 ∨ NUM_INODE_PTRS ≤ offset then
      return (-1, memory r fun _ => s.errorLog
        ("write failed: bad offset ".toList ++ (toString offset).toList))
    else
      let (written, r) := fileWrites (memory r fun _ => s) inodeNumber inode offset.toNat contents
      return (written, r)

/-- The part of `file_delete` that writes. -/
def deleteWrites (r : σ) (inodeNumber parentInodeNumber : Inum) (inode parentInode : Inode)
    (inodeIndex dirblockIndex : Nat) (entries : List (Str × Option Inum)) : σ :=
  let newEntries := entries.set dirblockIndex (['-'], none)
  let (dirAddr, r) := log r (.dataDirectory newEntries)
  let (newParentInodeAddr, r) := log r (.inode (LFS.pointTo parentInode inodeIndex dirAddr))
  let r := memory r (·.remap parentInodeNumber newParentInodeAddr)
  let r :=
    if 1 < inode.refs then
      let (newInodeAddr, r) := log r (.inode { inode with refs := inode.refs - 1 })
      memory r (·.remap inodeNumber newInodeAddr)
    else
      r
  forceCheckpoint (updateImap r [inodeNumber, parentInodeNumber])

def fileDelete (r : σ) (path : Str) : Except Abort (Int × σ) := do
  let s := (lfs r).errorClear
  let (walk, s) ← s.walkPath path
  match walk.inodeNumber, walk.parent with
  | some inodeNumber, some (parentInodeNumber, parentInode) => do
    let inode ← s.getInodeFromInumber inodeNumber
    if inode.type ≠ .regular then
      return (-1, memory r fun _ => s.errorLog
        ("delete failed: cannot delete non-regular file [".toList ++ path ++ "]".toList))
    else do
      let s ← s.freeLast inodeNumber inode
      let slot ← LFS.findMatchingDirSlot s.disk walk.fileName parentInode
      match slot with
      | none => .error (.assertionError "inode_index != -1")
      | some (inodeIndex, dirblockIndex) => do
        let entries ← LFS.readDirblock s.disk parentInode inodeIndex
        return (0, deleteWrites (memory r fun _ => s) inodeNumber parentInodeNumber inode
          parentInode inodeIndex dirblockIndex entries)
  | _, _ =>
    return (-1, memory r fun _ => s.errorLog
      ("delete failed: file not found [".toList ++ path ++ "]".toList))

def sync (r : σ) : Int × σ := (0, crSync (memory r (·.errorClear)))

end Device

/-- The file system itself, which keeps nothing but its state. -/
instance : Device LFS where
  lfs s := s
  memory s f := f s
  log := LFS.log
  crSync := LFS.crSync

namespace LFS

def updateImapLoop (s : LFS) (chunkList : List Cnum) (inums : List Inum) : LFS :=
  Device.updateImapLoop s chunkList inums

def updateImap (s : LFS) (inumList : List Inum) : LFS := Device.updateImap s inumList

def forceCheckpoint (s : LFS) : LFS := Device.forceCheckpoint s

def createWrites (s : LFS) (isFile : Bool) (parentInodeNumber newInodeNumber : Inum)
    (parentInode : Inode) (indexToUpdate parentSize : Nat)
    (newEntries : List (Str × Option Inum)) : LFS :=
  Device.createWrites s isFile parentInodeNumber newInodeNumber parentInode indexToUpdate
    parentSize newEntries

def create (s : LFS) (path : Str) (isFile : Bool) (pick : Nat) : Except Abort (Int × LFS) :=
  Device.create s path isFile pick

def fileCreate (s : LFS) (path : Str) (pick : Nat) : Except Abort (Int × LFS) :=
  s.errorClear.create path true pick

def dirCreate (s : LFS) (path : Str) (pick : Nat) : Except Abort (Int × LFS) :=
  s.errorClear.create path false pick

def linkWrites (s : LFS) (srcInodeNumber dstParentInodeNumber : Inum)
    (srcInode dstParentInode : Inode) (dstIndexToUpdate dstParentSize : Nat)
    (newEntries : List (Str × Option Inum)) : LFS :=
  Device.linkWrites s srcInodeNumber dstParentInodeNumber srcInode dstParentInode
    dstIndexToUpdate dstParentSize newEntries

def fileLink (s : LFS) (srcpath dstpath : Str) : Except Abort (Int × LFS) :=
  Device.fileLink s srcpath dstpath

def fileWrites (s : LFS) (inodeNumber : Inum) (inode : Inode) (offset : Nat)
    (contents : List Str) : Nat × LFS :=
  Device.fileWrites s inodeNumber inode offset contents

def fileWrite (s : LFS) (path : Str) (offset numBlks : Int) (draw : Nat → Char) :
    Except Abort (Int × LFS) :=
  Device.fileWrite s path offset numBlks draw

def deleteWrites (s : LFS) (inodeNumber parentInodeNumber : Inum) (inode parentInode : Inode)
    (inodeIndex dirblockIndex : Nat) (entries : List (Str × Option Inum)) : LFS :=
  Device.deleteWrites s inodeNumber parentInodeNumber inode parentInode inodeIndex dirblockIndex
    entries

def fileDelete (s : LFS) (path : Str) : Except Abort (Int × LFS) := Device.fileDelete s path

def sync (s : LFS) : Int × LFS := Device.sync s

/-! ### What the operations are on a file system

Unfolding an operation at a file system leaves the three steps of a device; these lemmas turn them
back into what they are there. -/

theorem updateImapLoop_nil (s : LFS) (chunkList : List Cnum) :
    s.updateImapLoop chunkList [] = s := rfl

/-- A chunk that is done is not logged again; another one is made from the inode map, logged and
entered in `cr`. -/
theorem updateImapLoop_cons (s : LFS) (chunkList : List Cnum) (inum : Inum) (inums : List Inum) :
    s.updateImapLoop chunkList (inum :: inums) =
      if inumToChunk inum ∈ chunkList then
        s.updateImapLoop chunkList inums
      else
        LFS.updateImapLoop { s with
          disk := s.disk ++ [s.makeImapChunk (inumToChunk inum)]
          cr := s.cr.set (inumToChunk inum).val
            (some ((s.disk ++ [s.makeImapChunk (inumToChunk inum)]).length - 1)) }
          (chunkList ++ [inumToChunk inum]) inums := rfl

theorem updateImap_def (s : LFS) (inums : List Inum) :
    s.updateImap inums = s.updateImapLoop [] inums := rfl

theorem forceCheckpoint_def (s : LFS) :
    s.forceCheckpoint = if s.noForceCheckpoints then s else s.crSync := rfl

section OnFileSystem

variable (s : LFS)

/-- What a device does that is the file system itself. The names on the right are the ones that all
other modules use. -/
@[simp] theorem device_lfs : Device.lfs s = s := rfl

@[simp] theorem device_memory (f : LFS → LFS) : Device.memory s f = f s := rfl

@[simp] theorem device_log (block : Block) : Device.log s block = s.log block := rfl

@[simp] theorem device_crSync : Device.crSync s = s.crSync := rfl

@[simp] theorem device_updateImap (inums : List Inum) :
    Device.updateImap s inums = s.updateImap inums := rfl

@[simp] theorem device_forceCheckpoint : Device.forceCheckpoint s = s.forceCheckpoint := rfl

@[simp] theorem device_createWrites : Device.createWrites s = s.createWrites := rfl

@[simp] theorem device_linkWrites : Device.linkWrites s = s.linkWrites := rfl

@[simp] theorem device_fileWrites : Device.fileWrites s = s.fileWrites := rfl

@[simp] theorem device_deleteWrites : Device.deleteWrites s = s.deleteWrites := rfl

end OnFileSystem

end LFS

/-! ## Runs -/

inductive Op where
  | fileCreate (path : Str) (pick : Nat)
  | dirCreate (path : Str) (pick : Nat)
  | fileLink (srcpath dstpath : Str)
  | fileWrite (path : Str) (offset numBlks : Int) (draw : Nat → Char)
  | fileDelete (path : Str)
  | sync

/-- The operation on any device. -/
def Op.runOn {σ : Type} [Device σ] (r : σ) : Op → Except Abort (Int × σ)
  | .fileCreate path pick => Device.create (Device.memory r (·.errorClear)) path true pick
  | .dirCreate path pick => Device.create (Device.memory r (·.errorClear)) path false pick
  | .fileLink srcpath dstpath => Device.fileLink r srcpath dstpath
  | .fileWrite path offset numBlks draw => Device.fileWrite r path offset numBlks draw
  | .fileDelete path => Device.fileDelete r path
  | .sync => .ok (Device.sync r)

def Op.run (s : LFS) (op : Op) : Except Abort (Int × LFS) := op.runOn s

theorem Op.run_sync (s : LFS) : Op.run s .sync = .ok (0, s.errorClear.crSync) := rfl

/-- An operation and the value it returned: a run has no aborted operation. -/
def next (s : LFS) (a : Op × Int) : Option LFS :=
  match a.1.run s with
  | .ok (rc, t) => if rc = a.2 then some t else none
  | .error _ => none

def fileSystem (useDiskCr noForceCheckpoints : Bool) (inodePolicy : InodePolicy) :
    Lts LFS (Op × Int) :=
  .ofFun (· = LFS.new useDiskCr noForceCheckpoints inodePolicy) next

end OsLab.Lfs
