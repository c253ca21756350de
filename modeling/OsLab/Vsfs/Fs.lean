import Mathlib.Logic.Function.Basic
import OsLab.Python

/-!
# The VSFS simulator

The classes `bitmap`, `block`, `inode` and `fs` of `vsfs.py`. An address of -1 is `none`; a random
choice is an argument. What the text of `assert` statements guards is an `Except`, so that a run
which would fail there is one without a result.

* **`Bitmap`**, **`Block`**, **`Inode`** -- the parts of the store, with the assertions of their
  methods.
* **`Store`**, **`Fs`** -- what is on the disk, and beside it what the workload generator knows:
  `files`, `dirs` and `nameToInum`, of which the last one keeps stale entries.
* **`deleteFile`**, **`createLink`**, **`createFile`**, **`writeFile`** -- the calls. `createFile`
  gives its inode back when there is no block for a new directory.
* **`doDelete`**, **`doLink`**, **`doCreate`**, **`doAppend`** -- the operations, with the arguments
  that they draw.
-/

namespace OsLab.Vsfs

inductive FType where
  | free
  | d
  | f
  deriving DecidableEq

/-! ## bitmap -/

structure Bitmap where
  size : Nat
  bmap : List Nat
  numAllocated : Int
  deriving DecidableEq

def Bitmap.new (size : Nat) : Bitmap := ⟨size, List.replicate size 0, 0⟩

def Bitmap.alloc (b : Bitmap) : Option Nat × Bitmap :=
  match b.bmap.findIdx? (· = 0) with
  | some num => (some num, { b with bmap := b.bmap.set num 1, numAllocated := b.numAllocated + 1 })
  | none => (none, b)

def Bitmap.free (b : Bitmap) (num : Nat) : Except Abort Bitmap := do
  let bit ← index b.bmap (some num)
  assert (bit = 1) "self.bmap[num] == 1"
  return { b with numAllocated := b.numAllocated - 1, bmap := b.bmap.set num 0 }

def Bitmap.markAllocated (b : Bitmap) (num : Nat) : Except Abort Bitmap := do
  let bit ← index b.bmap (some num)
  assert (bit = 0) "self.bmap[num] == 0"
  return { b with numAllocated := b.numAllocated + 1, bmap := b.bmap.set num 1 }

/-! ## block -/

structure Block where
  ftype : FType
  dirUsed : Nat
  maxUsed : Nat
  dirList : List (Str × Nat)
  data : Str
  deriving DecidableEq

def Block.new (ftype : FType) : Block := ⟨ftype, 0, 32, [], []⟩

def Block.setType (b : Block) (ftype : FType) : Except Abort Block := do
  assert (b.ftype = .free) "self.ftype == 'free'"
  return { b with ftype := ftype }

def Block.addData (b : Block) (data : Str) : Except Abort Block := do
  assert (b.ftype = .f) "self.ftype == 'f'"
  return { b with data := data }

def Block.getFreeEntries (b : Block) : Except Abort Int := do
  assert (b.ftype = .d) "self.ftype == 'd'"
  return (b.maxUsed : Int) - b.dirUsed

def Block.addDirEntry (b : Block) (name : Str) (inum : Nat) : Except Abort Block := do
  assert (b.ftype = .d) "self.ftype == 'd'"
  let b := { b with dirList := b.dirList ++ [(name, inum)], dirUsed := b.dirUsed + 1 }
  assert (b.dirUsed ≤ b.maxUsed) "self.dirUsed <= self.maxUsed"
  return b

def Block.delDirEntry (b : Block) (name : Str) : Except Abort Block := do
  assert (b.ftype = .d) "self.ftype == 'd'"
  let tname := split name '/'
  let dname ← index tname (some (tname.length - 1))
  match b.dirList.findIdx? (·.1 = dname) with
  | some i => return { b with dirList := b.dirList.eraseIdx i, dirUsed := b.dirUsed - 1 }
  | none => .error (.assertionError "1 == 0")

def Block.dirEntryExists (b : Block) (name : Str) : Except Abort Bool := do
  assert (b.ftype = .d) "self.ftype == 'd'"
  return b.dirList.any (name = ·.1)

def Block.free (b : Block) : Except Abort Block := do
  assert (b.ftype ≠ .free) "self.ftype != 'free'"
  if b.ftype = .d then do
    assert (b.dirUsed = 2) "self.dirUsed == 2"
    return { b with dirUsed := 0, data := [], ftype := .free }
  else
    return { b with data := [], ftype := .free }

/-! ## inode -/

structure Inode where
  ftype : FType
  addr : Option Nat
  refCnt : Int
  deriving DecidableEq

def Inode.new : Inode := ⟨.free, none, 1⟩

def Inode.incRefCnt (i : Inode) : Inode := { i with refCnt := i.refCnt + 1 }

def Inode.decRefCnt (i : Inode) : Inode := { i with refCnt := i.refCnt - 1 }

def Inode.getSize (i : Inode) : Nat := if i.addr = none then 0 else 1

def Inode.free (i : Inode) : Inode := { i with ftype := .free, addr := none }

/-! ## fs -/

/-- The bitmaps, the inode table and the data region. -/
structure Store where
  numInodes : Nat
  numData : Nat
  ibitmap : Bitmap
  inodes : List Inode
  dbitmap : Bitmap
  data : List Block

/-- `fs`: the store, and what the workload generator knows of it. -/
structure Fs extends Store where
  files : List Str
  dirs : List Str
  nameToInum : Str → Option Nat

def ROOT : Nat := 0

namespace Fs

def lookupName (s : Fs) (name : Str) : Except Abort Nat :=
  match s.nameToInum name with
  | some inum => .ok inum
  | none => .error .keyError

/-- Replace `inodes[inum]` by `f` of it. -/
def updateInode (s : Fs) (inum : Nat) (f : Inode → Inode) : Except Abort Fs := do
  let inode ← index s.inodes (some inum)
  return { s with inodes := s.inodes.set inum (f inode) }

/-- Replace `data[bnum]` by what the method `f` leaves there. -/
def updateBlock (s : Fs) (bnum : Option Nat) (f : Block → Except Abort Block) :
    Except Abort Fs := do
  let block ← index s.data bnum
  let block ← f block
  return { s with data := s.data.set (position s.data bnum) block }

/-- `__init__` -/
def new (numInodes numData : Nat) : Except Abort Fs := do
  let s : Fs := {
    numInodes := numInodes
    numData := numData
    ibitmap := Bitmap.new numInodes
    inodes := List.replicate numInodes Inode.new
    dbitmap := Bitmap.new numData
    data := List.replicate numData (Block.new .free)
    files := []
    dirs := [['/']]
    nameToInum := Function.update (fun _ => none) ['/'] (some ROOT) }
  let ibitmap ← s.ibitmap.markAllocated ROOT
  let s ← { s with ibitmap := ibitmap }.updateInode ROOT fun _ => ⟨.d, some 0, 2⟩
  let dbitmap ← s.dbitmap.markAllocated ROOT
  { s with dbitmap := dbitmap }.updateBlock (some 0) fun b => do
    let b ← b.setType .d
    let b ← b.addDirEntry ['.'] ROOT
    b.addDirEntry ['.', '.'] ROOT

def inodeAlloc (s : Fs) : Option Nat × Fs :=
  (s.ibitmap.alloc.1, { s with ibitmap := s.ibitmap.alloc.2 })

def inodeFree (s : Fs) (inum : Nat) : Except Abort Fs := do
  let ibitmap ← s.ibitmap.free inum
  { s with ibitmap := ibitmap }.updateInode inum Inode.free

def dataAlloc (s : Fs) : Option Nat × Fs :=
  (s.dbitmap.alloc.1, { s with dbitmap := s.dbitmap.alloc.2 })

def dataFree (s : Fs) (bnum : Nat) : Except Abort Fs := do
  let dbitmap ← s.dbitmap.free bnum
  { s with dbitmap := dbitmap }.updateBlock (some bnum) Block.free

def getParent (name : Str) : Str :=
  let tmp := split name '/'
  if tmp.length = 2 then
    ['/']
  else
    ((tmp.drop 1).take (tmp.length - 2)).foldl (fun pname t => pname ++ ['/'] ++ t) []

/-- The part of `deleteFile` that drops the link from the inode. -/
def dropLink (s : Fs) (inum : Nat) (inode : Inode) : Except Abort Fs :=
  if inode.refCnt = 1 then do
    let s ← match inode.addr with
      | some dblock => s.dataFree dblock
      | none => pure s
    s.inodeFree inum
  else
    s.updateInode inum Inode.decRefCnt

def deleteFile (s : Fs) (tfile : Str) : Except Abort (Int × Fs) := do
  let inum ← s.lookupName tfile
  let inode ← index s.inodes (some inum)
  let ftype := inode.ftype
  let s ← s.dropLink inum inode
  let parent := getParent tfile
  let pinum ← s.lookupName parent
  let pinode ← index s.inodes (some pinum)
  let pblock := pinode.addr
  let s ← if ftype = .d then s.updateInode pinum Inode.decRefCnt else pure s
  let s ← s.updateBlock pblock (·.delDirEntry tfile)
  if tfile ∈ s.files then
    return (0, { s with files := s.files.erase tfile })
  else
    .error .valueError

/-- A returned inode number of -1 is `none`. -/
def createLink (s : Fs) (target newfile parent : Str) : Except Abort (Option Nat × Fs) := do
  let parentInum ← s.lookupName parent
  let parentInode ← index s.inodes (some parentInum)
  let pblock := parentInode.addr
  let block ← index s.data pblock
  let free ← block.getFreeEntries
  if free ≤ 0 then
    return (none, s)
  else do
    let exists_ ← block.dirEntryExists newfile
    if exists_ then
      return (none, s)
    else do
      let tinum ← s.lookupName target
      let s ← s.updateInode tinum Inode.incRefCnt
      let tmp := split newfile '/'
      let ename ← index tmp (some (tmp.length - 1))
      let s ← s.updateBlock pblock (·.addDirEntry ename tinum)
      return (some tinum, s)

/-- The part of `createFile` after an inode has been found: `fblock` for a directory. -/
def createBlock (s : Fs) (ftype : FType) (inum parentInum : Nat) :
    Except Abort (Option (Option Nat × Int) × Fs) :=
  if ftype = .d then
    match s.dataAlloc with
    | (none, s) => do
      let s ← s.inodeFree inum
      return (none, s)
    | (some fblock, s) => do
      let s ← s.updateBlock (some fblock) fun b => do
        let b ← b.setType .d
        let b ← b.addDirEntry ['.'] inum
        b.addDirEntry ['.', '.'] parentInum
      return (some (some fblock, 2), s)
  else
    return (some (none, 1), s)

def createFile (s : Fs) (parent newfile : Str) (ftype : FType) :
    Except Abort (Option Nat × Fs) := do
  let parentInum ← s.lookupName parent
  let parentInode ← index s.inodes (some parentInum)
  let pblock := parentInode.addr
  let block ← index s.data pblock
  let free ← block.getFreeEntries
  if free ≤ 0 then
    return (none, s)
  else do
    let exists_ ← block.dirEntryExists newfile
    if exists_ then
      return (none, s)
    else
      match s.inodeAlloc with
      | (none, s) => return (none, s)
      | (some inum, s) => do
        let (created, s) ← s.createBlock ftype inum parentInum
        match created with
        | none => return (none, s)
        | some (fblock, refCnt) => do
          let s ← s.updateInode inum fun _ => ⟨ftype, fblock, refCnt⟩
          let s ← if ftype = .d then s.updateInode parentInum Inode.incRefCnt else pure s
          let s ← s.updateBlock pblock (·.addDirEntry newfile inum)
          return (some inum, s)

def writeFile (s : Fs) (tfile data : Str) : Except Abort (Int × Fs) := do
  let inum ← s.lookupName tfile
  let inode ← index s.inodes (some inum)
  if inode.getSize = 1 then
    return (-1, s)
  else
    match s.dataAlloc with
    | (none, s) => return (-1, s)
    | (some fblock, s) => do
      let s ← s.updateBlock (some fblock) fun b => do
        let b ← b.setType .f
        b.addData data
      let s ← s.updateInode inum fun i => { i with addr := some fblock }
      return (0, s)

/-! ## The workload's operations, with the choices they draw -/

def fullName (parent nfile : Str) : Str :=
  if parent = ['/'] then parent ++ nfile else parent ++ ['/'] ++ nfile

def doDelete (s : Fs) (dfile : Str) : Except Abort (Int × Fs) :=
  if s.files.length = 0 then return (-1, s) else s.deleteFile dfile

def doLink (s : Fs) (parent nfile target : Str) : Except Abort (Int × Fs) := do
  if s.files.length = 0 then
    return (-1, s)
  else do
    let (inum, s) ← s.createLink target nfile parent
    match inum with
    | some inum =>
      return (0, { s with
        files := s.files ++ [fullName parent nfile]
        nameToInum := Function.update s.nameToInum (fullName parent nfile) (some inum) })
    | none => return (-1, s)

def doCreate (s : Fs) (ftype : FType) (parent nfile : Str) : Except Abort (Int × Fs) := do
  let (inum, s) ← s.createFile parent nfile ftype
  match inum with
  | some inum =>
    let s := { s with
      nameToInum := Function.update s.nameToInum (fullName parent nfile) (some inum) }
    return (0,
      if ftype = .d then { s with dirs := s.dirs ++ [fullName parent nfile] }
      else { s with files := s.files ++ [fullName parent nfile] })
  | none => return (-1, s)

def doAppend (s : Fs) (afile data : Str) : Except Abort (Int × Fs) :=
  if s.files.length = 0 then return (-1, s) else s.writeFile afile data

end Fs

end OsLab.Vsfs
