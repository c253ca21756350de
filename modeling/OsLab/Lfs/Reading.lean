import OsLab.Lfs.Directory

/-!
# Reading the tree of an LFS

The inodes that `inode_map` leads to and the slots of the live directories. These are total
functions of a state, with nothing for what cannot be read; the checks of `OsLab.Lfs.Consistency`
are stated with them.

* **`inodeOf`**, **`slots`** -- the inode at a number, and the slots of a directory, one block after
  the other.
* **`DirBlocks.slots_eq`** -- on a directory that can be read they are its slots.
-/

namespace OsLab.Lfs

open LFS

def slotsAt (disk : List Block) : Option Nat → List Slot
  | some a =>
    match disk[a]? with
    | some (.dataDirectory entries) => entries
    | _ => []
  | none => []

namespace LFS

/-- The inode that `inode_map` leads to. -/
def inodeOf (s : LFS) (i : Inum) : Option Inode := do
  let a ← s.inodeMap i
  match s.disk[a]? with
  | some (.inode inode) => some inode
  | _ => none

def isDir (s : LFS) (i : Inum) : Bool := (s.inodeOf i).any fun inode => inode.type = .directory

/-- The slots of a live directory, one block after the other. -/
def slots (s : LFS) (d : Inum) : List Slot :=
  match s.inodeOf d with
  | some ⟨.directory, size, _, pointers⟩ => (pointers.take size).flatMap (slotsAt s.disk)
  | _ => []

end LFS

section Reading

variable {s : LFS} {i : Inum} {inode : Inode}

/-- An inode that is read is the block at the address in the map. -/
theorem inodeOf_eq_some :
    s.inodeOf i = some inode ↔ ∃ a, s.inodeMap i = some a ∧ s.disk[a]? = some (.inode inode) := by
  unfold inodeOf
  cases hmap : s.inodeMap i with
  | none => simp
  | some a =>
    show (match s.disk[a]? with | some (.inode inode) => some inode | _ => none) = _ ↔ _
    split
    · rename_i inode' hget
      simp [hget]
    · rename_i hget
      simpa using hget inode

/-- Reading a directory block by block gives its slots. -/
theorem DirBlocks.slots_eq {disk : List Block} {addrs : List Nat} {blocks : List (List Slot)}
    (h : DirBlocks disk inode addrs blocks) :
    (inode.pointers.take inode.size).flatMap (slotsAt disk) = blocks.flatten := by
  have htake : inode.pointers.take inode.size = addrs.map some := by
    rw [h.pointers, h.size]
    exact List.take_left' (by simp)
  rw [htake]
  have hread := h.read
  clear h htake
  induction hread with
  | nil => rfl
  | cons hget _ ih =>
    rw [List.map_cons, List.flatMap_cons, List.flatten_cons, ih]
    simp [slotsAt, hget]

end Reading

end OsLab.Lfs
