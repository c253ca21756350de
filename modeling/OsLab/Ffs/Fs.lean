import Mathlib.Data.List.AList
import Mathlib.Logic.Function.Basic
import OsLab.Lib.Lts
import OsLab.Python

/-!
# The FFS simulator

`file_system` of `ffs.py`, with its options in a record of their own. Printing is left out. A size
option that is negative acts like 0: `__init__` raises an IndexError.

* **`cell`**, **`setCell`**, **`lookup`** -- what may fail: an index out of range and a missing key.
* **`pickGroup`**, **`findMostFreeInodesMultiple`**, **`findFreeInodesNear`** -- the choice of a
  group, the latter with its two cursors.
* **`Scan`**, **`Scan.round`**, **`Scan.loop`** -- the `while True` of `allocate_blocks`. Its rounds
  are counted, and `none` is a loop that has not ended; no result depends on the count.
* **`doCreate`**, **`doDelete`**, **`doVerify`** -- the commands, cut where `do_create` says that it
  will not fail any more.
* **`Command`**, **`commands`** -- the file system as a transition system, one command a step.
-/

namespace OsLab.Ffs

inductive FileType where
  | regular
  | directory
  /-- `''`, the type of an inode after its file was deleted -/
  | empty
  deriving DecidableEq

structure Config where
  numGroups : Nat
  blocksPerGroup : Nat
  inodesPerGroup : Nat
  largeFileException : Int
  spreadInodes : Bool
  contigAllocationPolicy : Int
  spreadDataBlocks : Bool
  allocateFaraway : Int

/-- One row a group. A cell holds an inode number, or `none` for `BITMAP_FREE`. -/
abbrev Bitmap := List (List (Option Int))

/-- `bitmap[group][index]` -/
def cell (bitmap : Bitmap) (group index : Int) : Except Abort (Option Int) := do
  let row ← item bitmap group
  item row index

/-- `bitmap[group][index] = mark` -/
def setCell (bitmap : Bitmap) (group index : Int) (mark : Option Int) : Except Abort Bitmap := do
  let row ← item bitmap group
  let row ← setItem row index mark
  setItem bitmap group row

/-- `d[key]` -/
def lookup {α : Type} (d : Int → Option α) (key : Int) : Except Abort α :=
  match d key with
  | some a => .ok a
  | none => .error .keyError

structure Fs where
  dataBitmap : Bitmap
  inodeBitmap : Bitmap
  symbolMap : Int → Option Str
  usedSymbols : List Str
  availableSymbols : List Str
  totalDataFree : Nat
  totalInodesFree : Nat
  dirData : Int → Option (List (Str × Int))
  inodeType : Int → Option FileType
  inodeBlocks : Int → Option (List Int)
  nameToInodeMap : AList fun _ : Str => Int

/-- `path.rfind(c)`; `none` is -1. -/
def rfind (path : Str) (c : Char) : Option Nat :=
  (path.reverse.findIdx? (· = c)).map (path.length - 1 - ·)

def getParent (path : Str) : Str × Str :=
  match rfind path '/' with
  | some 0 => (['/'], path.drop 1)
  | some i => (path.take i, path.drop (i + 1))
  | none => (path.dropLast, path)

/-- The contents of an empty directory. -/
def emptyDirectory : List (Str × Int) := [(['.'], 0), (['.', '.'], 0)]

/-- `available_symbols` of `init_symbols`; there is no `'N'`. -/
def initSymbols : List Str :=
  (['a', 'b', 'c', 'd', 'e', 'f', 'g', 'h', 'i', 'j', 'k', 'l', 'm', 'n', 'o', 'p', 'q', 'r', 's',
    't', 'u', 'v', 'w', 'x', 'y', 'z', 'A', 'B', 'C', 'D', 'E', 'F', 'G', 'H', 'I', 'J', 'K', 'L',
    'M', 'O', 'P', 'Q', 'R', 'S', 'T', 'U', 'V', 'W', 'X', 'Y', 'Z', '0', '1', '2', '3', '4', '5',
    '6', '7', '8', '9', '!', '@', '#', '%', '^', '&', '*', '(', ')', '[', ']', '{', '}', '/', '.',
    '<', '>', '|'] : List Char).map ([·])

def getFreeCount (bitmap : List (Option Int)) : Nat := bitmap.countP (·.isNone)

/-- The loop over groups that looks for more free room than seen so far; `best` is the largest
number seen and its group, which is -1 before there is one. -/
def mostFree (free : Int → Except Abort Nat) (groups : List Int) (best : Nat × Int) :
    Except Abort (Nat × Int) :=
  groups.foldlM (fun best g => do
    let n ← free g
    return if n > best.1 then (n, g) else best) best

/-- Python's `range(a, b, step)`. -/
def rangeStep (a b step : Int) : Except Abort (List Int) :=
  if step = 0 then
    .error .valueError
  else
    let n := if 0 < step then (b - a + step - 1) / step else (a - b - step - 1) / -step
    .ok ((List.range n.toNat).map fun k : Nat => a + step * k)

namespace Fs

section Groups

variable (c : Config) (s : Fs)

def nameToInode (path : Str) : Int := (s.nameToInodeMap.lookup path).getD (-1)

def setNameToInode (path : Str) (inodeNumber : Int) : Except Abort Fs :=
  if (s.nameToInodeMap.lookup path).isSome then
    .error .exit
  else
    .ok { s with nameToInodeMap := s.nameToInodeMap.insert path inodeNumber }

def getFreeInodeCount (group : Int) : Except Abort Nat := do
  let row ← item s.inodeBitmap group
  return getFreeCount row

def getFreeDataCount (group : Int) : Except Abort Nat := do
  let row ← item s.dataBitmap group
  return getFreeCount row

def findFreeInodesInRange (group howMany : Int) : Except Abort Nat :=
  (List.range howMany.toNat).foldlM (fun sum (k : Nat) => do
    let n ← s.getFreeInodeCount ((group + k) % c.numGroups)
    return sum + n) 0

def findMostFreeInodesMultiple (startingPoint howMany : Int) : Except Abort Int := do
  let high ← rangeStep startingPoint c.numGroups howMany
  let best ← mostFree (s.findFreeInodesInRange c · howMany) high (0, -1)
  let low ← rangeStep 0 startingPoint howMany
  let best ← mostFree (s.findFreeInodesInRange c · howMany) low best
  assert (best.2 ≠ -1) "target_group != -1"
  return best.2

/-- The rounds `is` of the loop of `find_free_inodes_near`. -/
def nearLoop : List Nat → Int → Int → Except Abort Int
  | [], _, _ => return 1
  | i :: is, grower, shrinker =>
    if i % 2 = 0 then do
      let n ← s.getFreeInodeCount grower
      if n > 0 then return grower
      nearLoop is ((grower + 1) % c.numGroups) shrinker
    else do
      let n ← s.getFreeInodeCount shrinker
      if n > 0 then return shrinker
      nearLoop is grower ((shrinker - 1) % c.numGroups)

def findFreeInodesNear (targetGroup : Int) : Except Abort Int :=
  s.nearLoop c (List.range (c.numGroups - 1)) ((targetGroup + 1) % c.numGroups)
    ((targetGroup - 1) % c.numGroups)

def pickGroup (parent : Str) (type : FileType) : Except Abort Int :=
  if type = .regular ∧ c.spreadInodes = false then do
    let parentInodeNumber := s.nameToInode parent
    let targetGroup := parentInodeNumber / c.inodesPerGroup
    let numFreeInodes ← s.getFreeInodeCount targetGroup
    if numFreeInodes = 0 then
      s.findFreeInodesNear c targetGroup
    else
      return targetGroup
  else if type = .directory ∨ c.spreadInodes = true then
    s.findMostFreeInodesMultiple c 0 c.allocateFaraway
  else
    .error .exit

/-- -1 when the group has no free inode -/
def findFreeInode (group : Int) : Except Abort Int := do
  let found ← (List.range c.inodesPerGroup).findM? fun i : Nat => do
    let mark ← cell s.inodeBitmap group i
    return mark.isNone
  match found with
  | some i => return i
  | none => return -1

def findMinDataUsage : Except Abort Int := do
  let best ← mostFree s.getFreeDataCount ((List.range c.numGroups).map fun g : Nat => (g : Int)) (0, -1)
  return best.2

end Groups

end Fs

/-! ## Allocating blocks -/

def rangeFree (c : Config) (bitmap : Bitmap) (group : Int) (index : Nat)
    (needed chunksFree : Int) : Except Abort Bool := do
  let chunksFree := if needed < chunksFree then needed else chunksFree
  let indexEnd := index + chunksFree - 1
  if indexEnd ≥ c.blocksPerGroup then return false
  let used ← (range index (indexEnd + 1).toNat).findM? fun i : Nat => do
    let mark ← cell bitmap group i
    return mark.isSome
  return used.isNone

/-- The bitmap and the local variables of the loop of `allocate_blocks`. -/
structure Scan where
  bitmap : Bitmap
  allocated : List (Int × Nat)
  index : Nat
  allocatedInGroup : Nat
  currentGroup : Int
  chunksFree : Int

namespace Scan

/-- Take the block the scan stands on. -/
def take (a : Scan) (inodeNumber : Int) : Except Abort Scan := do
  let mark ← cell a.bitmap a.currentGroup a.index
  assert mark.isNone "self.data_bitmap[current_group][index] == self.BITMAP_FREE"
  let bitmap ← setCell a.bitmap a.currentGroup a.index (some inodeNumber)
  return { a with
    bitmap := bitmap
    allocatedInGroup := a.allocatedInGroup + 1
    allocated := a.allocated ++ [(a.currentGroup, a.index)] }

/-- Move to the next group when this one is searched or the large file exception is used up. -/
def advance (c : Config) (targetGroup : Int) (a : Scan) : Scan :=
  if a.index = c.blocksPerGroup ∨
      (0 < c.largeFileException ∧ (a.allocatedInGroup : Int) = c.largeFileException) then
    let currentGroup := (a.currentGroup + 1) % c.numGroups
    { a with
      allocatedInGroup := 0
      index := 0
      currentGroup := currentGroup
      chunksFree := if currentGroup = targetGroup then 1 else a.chunksFree }
  else
    a

/-- One round of the loop; the flag says that the round leaves it. -/
def round (c : Config) (targetGroup : Int) (size : Nat) (inodeNumber : Int) (a : Scan) :
    Except Abort (Scan × Bool) := do
  let free ← rangeFree c a.bitmap a.currentGroup a.index (size - a.allocated.length) a.chunksFree
  let a ← if free then a.take inodeNumber else pure a
  let a := { a with index := a.index + 1 }
  if a.allocated.length = size then
    return (a, true)
  else
    return (a.advance c targetGroup, false)

/-- `none` when the loop has not ended after `fuel` rounds. -/
def loop (c : Config) (targetGroup : Int) (size : Nat) (inodeNumber : Int) :
    Nat → Scan → Except Abort (Option Scan)
  | 0, _ => return none
  | fuel + 1, a => do
    let r ← a.round c targetGroup size inodeNumber
    if r.2 then return some r.1 else loop c targetGroup size inodeNumber fuel r.1

end Scan

namespace Fs

section Operations

variable (c : Config) (fuel : Nat) (s : Fs)

def allocateBlocks (targetGroup : Int) (size : Nat) (inodeNumber : Int) :
    Except Abort (Option (List (Int × Nat) × Fs)) := do
  assert (size ≤ s.totalDataFree) "size <= self.total_data_free"
  let done ← Scan.loop c targetGroup size inodeNumber fuel
    ⟨s.dataBitmap, [], 0, 0, targetGroup, c.contigAllocationPolicy⟩
  match done with
  | some a => return some (a.allocated, { s with dataBitmap := a.bitmap })
  | none => return none

def allocateSymbol (inodeNumber : Int) (suggestedName : Str) : Except Abort Fs := do
  let choice ←
    if suggestedName ∉ s.usedSymbols ∧ suggestedName ∈ s.availableSymbols then
      pure suggestedName
    else
      match s.availableSymbols with
      | choice :: _ => pure choice
      | [] => .error (.assertionError "len(self.available_symbols) > 0")
  return { s with
    usedSymbols := s.usedSymbols ++ [choice]
    availableSymbols := s.availableSymbols.erase choice
    symbolMap := Function.update s.symbolMap inodeNumber (some choice) }

def freeSymbol (inodeNumber : Int) : Except Abort Fs := do
  let symbol ← lookup s.symbolMap inodeNumber
  if symbol ∈ s.usedSymbols then
    return { s with
      symbolMap := Function.update s.symbolMap inodeNumber none
      usedSymbols := s.usedSymbols.erase symbol
      availableSymbols := s.availableSymbols ++ [symbol] }
  else
    .error .valueError

/-- `__init__` -/
def new : Except Abort Fs := do
  let free : Option Int := none
  let inodeBitmap ←
    setCell (List.replicate c.numGroups (List.replicate c.inodesPerGroup free)) 0 0 (some 0)
  let dataBitmap ←
    setCell (List.replicate c.numGroups (List.replicate c.blocksPerGroup free)) 0 0 (some 0)
  allocateSymbol {
    dataBitmap := dataBitmap
    inodeBitmap := inodeBitmap
    symbolMap := fun _ => none
    usedSymbols := []
    availableSymbols := initSymbols
    totalDataFree := c.blocksPerGroup * c.numGroups - 1
    totalInodesFree := c.inodesPerGroup * c.numGroups - 1
    dirData := Function.update (fun _ => none) 0 (some emptyDirectory)
    inodeType := Function.update (fun _ => none) 0 (some .directory)
    inodeBlocks := Function.update (fun _ => none) 0 (some [0])
    nameToInodeMap := AList.singleton ['/'] 0 } 0 ['/']

def markInodeUsed (group inodeIndex : Int) : Except Abort Fs := do
  let inodeBitmap ←
    setCell s.inodeBitmap group inodeIndex (some (inodeIndex + group * c.inodesPerGroup))
  return { s with inodeBitmap := inodeBitmap }

/-- The directory entry, the type and the blocks of a new inode. -/
def enter (filename : Str) (type : FileType) (parentInodeNumber inodeNumber : Int)
    (entries : List (Str × Int)) (allocated : List (Int × Nat)) : Fs :=
  { s with
    dirData := Function.update s.dirData parentInodeNumber
      (some (entries ++ [(filename, inodeNumber)]))
    inodeType := Function.update s.inodeType inodeNumber (some type)
    inodeBlocks := Function.update s.inodeBlocks inodeNumber
      (some (allocated.map fun b : Int × Nat => b.2 + b.1 * c.blocksPerGroup)) }

/-- Fill in the contents of an empty directory. -/
def fill (type : FileType) (inodeNumber : Int) : Fs :=
  if type = .directory then
    { s with dirData := Function.update s.dirData inodeNumber (some emptyDirectory) }
  else
    s

/-- Global accounting. -/
def account (size : Nat) : Fs :=
  { s with
    totalInodesFree := s.totalInodesFree - 1
    totalDataFree := s.totalDataFree - size }

/-- The part of `do_create` after the blocks are allocated: "won't fail from here on down". -/
def install (path filename : Str) (size : Nat) (type : FileType)
    (parentInodeNumber group inodeIndex : Int) (allocated : List (Int × Nat)) :
    Except Abort Fs := do
  let inodeNumber := inodeIndex + group * c.inodesPerGroup
  let s ← s.markInodeUsed c group inodeIndex
  let entries ← lookup s.dirData parentInodeNumber
  let s := s.enter c filename type parentInodeNumber inodeNumber entries allocated
  let s ← s.setNameToInode path inodeNumber
  let s ← s.allocateSymbol inodeNumber filename
  return (s.fill type inodeNumber).account size

/-- `dest_block_group`, where the search for blocks starts -/
def destBlockGroup (group : Int) : Except Abort Int :=
  if c.spreadDataBlocks then s.findMinDataUsage c else .ok group

/-- The part of `do_create` after the checks; `none` when `allocate_blocks` is still in its loop
after `fuel` rounds. -/
def place (path parent filename : Str) (size : Nat) (type : FileType) (parentInodeNumber : Int) :
    Except Abort (Option (Int × Fs)) := do
  let group ← s.pickGroup c parent type
  let inodeIndex ← s.findFreeInode c group
  let inodeNumber := inodeIndex + group * c.inodesPerGroup
  let destBlockGroup ← s.destBlockGroup c group
  let done ← s.allocateBlocks c fuel destBlockGroup size inodeNumber
  match done with
  | none => return none
  | some (allocated, s) =>
    if allocated.length = 0 then return some (-1, s)
    let s ← s.install c path filename size type parentInodeNumber group inodeIndex allocated
    return some (0, s)

/-- The return code and the state after the call. -/
def doCreate (path : Str) (size : Nat) (type : FileType) : Except Abort (Option (Int × Fs)) := do
  let (parent, filename) := getParent path
  if s.totalInodesFree = 0 then return some (-1, s)
  if s.totalDataFree < size then return some (-1, s)
  let parentInodeNumber := s.nameToInode parent
  if parentInodeNumber = -1 then return some (-1, s)
  let entries ← lookup s.dirData parentInodeNumber
  if entries.any (·.1 = filename) then return some (-1, s)
  s.place c fuel path parent filename size type parentInodeNumber

/-- The part of `do_delete` after the checks. -/
def remove (path name : Str) (parentInodeNumber inodeNumber : Int)
    (entries : List (Str × Int)) : Except Abort (Int × Fs) := do
  let blocks ← lookup s.inodeBlocks inodeNumber
  -- divided by the number of groups, where `do_create` multiplies by the size of a group
  let dataBitmap ← blocks.foldlM
    (fun bitmap b => setCell bitmap (b / c.numGroups) (b % c.numGroups) none) s.dataBitmap
  let inodeBitmap ←
    setCell s.inodeBitmap (inodeNumber / c.numGroups) (inodeNumber % c.numGroups) none
  let s ← { s with
    dirData := Function.update s.dirData parentInodeNumber
      (some (entries.erase (name, inodeNumber)))
    dataBitmap := dataBitmap
    inodeBitmap := inodeBitmap }.freeSymbol inodeNumber
  if (s.nameToInodeMap.lookup path).isNone then
    .error .keyError
  else
    return (0, { s with
      nameToInodeMap := s.nameToInodeMap.erase path
      totalInodesFree := s.totalInodesFree + 1
      totalDataFree := s.totalDataFree + blocks.length
      inodeType := Function.update s.inodeType inodeNumber (some .empty)
      inodeBlocks := Function.update s.inodeBlocks inodeNumber (some []) })

def doDelete (path : Str) : Except Abort (Int × Fs) := do
  let (parent, filename) := getParent path
  let parentInodeNumber := s.nameToInode parent
  if parentInodeNumber = -1 then return (-1, s)
  let entries ← lookup s.dirData parentInodeNumber
  match entries.find? (·.1 = filename) with
  | none => return (-1, s)
  | some (name, inodeNumber) =>
    let type ← lookup s.inodeType inodeNumber
    if type = .directory then return (-1, s)
    s.remove c path name parentInodeNumber inodeNumber entries

/-- The number of used cells in `rows` groups of `cols` cells, as `do_verify` counts them. -/
def countUsed (bitmap : Bitmap) (rows cols : Nat) : Except Abort Nat :=
  (List.range rows).foldlM (fun used (g : Nat) =>
    (List.range cols).foldlM (fun used (i : Nat) => do
      let mark ← cell bitmap g i
      return if mark.isSome then used + 1 else used) used) 0

def doVerify : Except Abort Unit := do
  let dataUsed ← countUsed s.dataBitmap c.numGroups c.blocksPerGroup
  let inodesUsed ← countUsed s.inodeBitmap c.numGroups c.inodesPerGroup
  assert (dataUsed + s.totalDataFree = c.numGroups * c.blocksPerGroup)
    "data_used + self.total_data_free == (self.num_groups * self.blocks_per_group)"
  assert (inodesUsed + s.totalInodesFree = c.numGroups * c.inodesPerGroup)
    "inodes_used + self.total_inodes_free == (self.num_groups * self.inodes_per_group)"
  s.nameToInodeMap.entries.forM fun e => do
    let blocks ← lookup s.inodeBlocks e.2
    blocks.forM fun b => do
      let mark ← cell s.dataBitmap (b / c.blocksPerGroup) (b % c.blocksPerGroup)
      assert (mark = some e.2) "self.data_bitmap[data_group][data_index] == inode_number"

end Operations

end Fs

/-! ## Commands -/

/-- The commands of `read_input` that change the file system: `file`, `dir` and `delete`. -/
inductive Command where
  | file (path : Str) (size : Nat)
  | dir (path : Str)
  | delete (path : Str)

def Command.run (c : Config) (fuel : Nat) (s : Fs) : Command → Except Abort (Option (Int × Fs))
  | file path size => s.doCreate c fuel path size .regular
  | dir path => s.doCreate c fuel path 1 .directory
  | delete path => do
    let r ← s.doDelete c path
    return some r

/-- The file system, one command a step. -/
def commands (c : Config) : Lts Fs Command where
  init s := Fs.new c = .ok s
  step s cmd t := ∃ fuel rc, cmd.run c fuel s = .ok (some (rc, t))

/-- Several commands, each with `fuel` rounds for its loop. -/
def runCommands (c : Config) (fuel : Nat) : List Command → Fs → Except Abort (Option Fs)
  | [], s => .ok (some s)
  | cmd :: cmds, s => do
    let r ← cmd.run c fuel s
    match r with
    | some (_, t) => runCommands c fuel cmds t
    | none => .ok none

/-- Commands that have been evaluated one after the other are a run of the transition system. -/
theorem run_of_runCommands {c : Config} {fuel : Nat} {cmds : List Command} {s t : Fs}
    (h : runCommands c fuel cmds s = .ok (some t)) : (commands c).Run s cmds t := by
  induction cmds generalizing s with
  | nil =>
    obtain rfl := Option.some.inj (Except.ok.inj h)
    exact .nil
  | cons cmd cmds ih =>
    unfold runCommands at h
    obtain ⟨r, hrun, h⟩ := bind_eq_ok.mp h
    match r, h with
    | some (rc, u), h => exact .cons ⟨fuel, rc, hrun⟩ (ih h)

end OsLab.Ffs
