import OsLab.Lfs.Directory
import OsLab.Lib.LinkGraph

/-!
# The directory tree of an LFS

The inode map and the disk represent a link graph: the inode numbers in use are its nodes, and the
occupied slots of a directory, `.` and `..` apart, are its children.

* **`SlotOk`**, **`occupied`**, **`DirSlots`** -- the slots of a directory of the graph: its two
  dots, names of their own with a number, and free ones.
* **`fill`**, **`grow`**, **`free`** -- the three changes of a directory.
* **`InodeAt`**, **`NodeAt`**, **`Represents`** -- an inode, a number and a state that are what the
  graph says.
* **`Represents.remap`** -- an operation remaps two inode numbers and adds blocks to the log.
-/

namespace OsLab.Lfs

open LFS

def InodeType.kind : InodeType → NodeKind
  | .directory => .dir
  | .regular => .file

theorem kind_eq_dir {t : InodeType} : t.kind = .dir ↔ t = .directory := by
  cases t <;> simp [InodeType.kind]

theorem kind_eq_file {t : InodeType} : t.kind = .file ↔ t = .regular := by
  cases t <;> simp [InodeType.kind]

def marker : Str := ['-']

def dotName : Str := ['.']

def dotDotName : Str := ['.', '.']

/-! ## Slots -/

/-- A slot after `.` and `..`: free, or a name of its own and an inode number. -/
def SlotOk (e : Slot) : Prop :=
  e = freeSlot ∨ (e.1 ≠ marker ∧ e.1 ≠ dotName ∧ e.1 ≠ dotDotName) ∧ ∃ i, e.2 = some i

/-- The entries in the occupied slots. -/
def occupied (slots : List Slot) : Multiset (Str × Inum) :=
  ↑(slots.filterMap fun e => e.2.map fun i => (e.1, i))

@[simp] theorem occupied_nil : occupied [] = 0 := rfl

@[simp] theorem occupied_free (l : List Slot) : occupied (freeSlot :: l) = occupied l := rfl

@[simp] theorem occupied_cons (n : Str) (i : Inum) (l : List Slot) :
    occupied ((n, some i) :: l) = (n, i) ::ₘ occupied l := rfl

theorem occupied_append (l l' : List Slot) : occupied (l ++ l') = occupied l + occupied l' := by
  simp [occupied, List.filterMap_append]

@[simp] theorem occupied_replicate (n : Nat) : occupied (List.replicate n freeSlot) = 0 := by
  induction n with
  | zero => rfl
  | succ n ih => rw [List.replicate_succ, occupied_free, ih]

theorem mem_occupied {l : List Slot} {n : Str} {i : Inum} :
    (n, i) ∈ occupied l ↔ (n, some i) ∈ l := by
  simp only [occupied, Multiset.mem_coe, List.mem_filterMap, Option.map_eq_some_iff]
  constructor
  · rintro ⟨⟨n', x⟩, hmem, i', hi, heq⟩
    obtain ⟨rfl, rfl⟩ := Prod.mk.inj heq
    obtain rfl : x = some i' := hi
    exact hmem
  · exact fun hmem => ⟨(n, some i), hmem, i, rfl, rfl⟩

/-- The slots of directory `i` of the graph. -/
structure DirSlots (g : LinkGraph Inum Str) (i : Inum) (all : List Slot) : Prop where
  shape : ∃ slots, all = (dotName, some i) :: (dotDotName, some (g.parent i)) :: slots ∧
    (∀ e ∈ slots, SlotOk e) ∧ g.children i = occupied slots

namespace DirSlots

variable {g : LinkGraph Inum Str} {i j : Inum} {all l₁ l₂ : List Slot} {e : Slot} {n : Str}

/-- A name other than the marker is only in slots with an inode number. -/
theorem exists_inum (h : DirSlots g i all) (he : e ∈ all) (hn : e.1 ≠ marker) :
    ∃ j, e.2 = some j := by
  obtain ⟨slots, rfl, hok, _⟩ := h.shape
  rcases List.mem_cons.mp he with rfl | he
  · exact ⟨i, rfl⟩
  · rcases List.mem_cons.mp he with rfl | he
    · exact ⟨g.parent i, rfl⟩
    · rcases hok e he with rfl | ⟨_, hj⟩
      · exact absurd rfl hn
      · exact hj

/-- An entry is `.`, `..` or a child. -/
theorem cases_of_mem (h : DirSlots g i all) (he : (n, some j) ∈ all) :
    (n = dotName ∧ j = i) ∨ (n = dotDotName ∧ j = g.parent i) ∨ (n, j) ∈ g.children i := by
  obtain ⟨slots, rfl, _, hchildren⟩ := h.shape
  rcases List.mem_cons.mp he with heq | he
  · obtain ⟨rfl, hj⟩ := Prod.mk.inj heq
    exact Or.inl ⟨rfl, Option.some.inj hj⟩
  · rcases List.mem_cons.mp he with heq | he
    · obtain ⟨rfl, hj⟩ := Prod.mk.inj heq
      exact Or.inr (Or.inl ⟨rfl, Option.some.inj hj⟩)
    · rw [hchildren]
      exact Or.inr (Or.inr (mem_occupied.mpr he))

/-- A child is in a slot under a name of its own. -/
theorem mem_of_children (h : DirSlots g i all) (he : (n, j) ∈ g.children i) :
    (n, some j) ∈ all ∧ n ≠ marker ∧ n ≠ dotName ∧ n ≠ dotDotName := by
  obtain ⟨slots, rfl, hok, hchildren⟩ := h.shape
  rw [hchildren, mem_occupied] at he
  refine ⟨by simp [he], ?_⟩
  rcases hok _ he with hfree | ⟨hn, _⟩
  · cases hfree
  · exact hn

/-- A slot that is not `.` or `..` is replaced. -/
theorem replace (h : DirSlots g i all) (hall : all = l₁ ++ e :: l₂)
    (he : e.1 ≠ dotName ∧ e.1 ≠ dotDotName) :
    ∃ l₁', l₁ = (dotName, some i) :: (dotDotName, some (g.parent i)) :: l₁' ∧
      (∀ e ∈ l₁', SlotOk e) ∧ (∀ e ∈ l₂, SlotOk e) ∧ SlotOk e ∧
      g.children i = occupied l₁' + occupied (e :: l₂) := by
  obtain ⟨slots, hshape, hok, hchildren⟩ := h.shape
  rw [hall] at hshape
  cases l₁ with
  | nil =>
    obtain ⟨rfl, _⟩ := List.cons.inj hshape
    exact absurd rfl he.1
  | cons x l₁ =>
    obtain ⟨rfl, htail⟩ := List.cons.inj hshape
    cases l₁ with
    | nil =>
      obtain ⟨rfl, _⟩ := List.cons.inj htail
      exact absurd rfl he.2
    | cons y l₁ =>
      obtain ⟨rfl, rfl⟩ := List.cons.inj htail
      change ∀ x ∈ l₁ ++ e :: l₂, SlotOk x at hok
      change g.children i = occupied (l₁ ++ e :: l₂) at hchildren
      rw [List.forall_mem_append, List.forall_mem_cons] at hok
      exact ⟨l₁, rfl, hok.1, hok.2.2, hok.2.1, by rw [hchildren, occupied_append]⟩

/-- An entry fills a free slot. -/
theorem fill (h : DirSlots g i all) (hall : all = l₁ ++ e :: l₂) (he : e.1 = marker)
    (hn : n ≠ marker ∧ n ≠ dotName ∧ n ≠ dotDotName) {g' : LinkGraph Inum Str}
    (hparent : g'.parent i = g.parent i) (hchildren : g'.children i = (n, j) ::ₘ g.children i) :
    DirSlots g' i (l₁ ++ (n, some j) :: l₂) := by
  have hne : e.1 ≠ dotName ∧ e.1 ≠ dotDotName := by
    rw [he]
    exact ⟨by decide, by decide⟩
  obtain ⟨l₁', rfl, hok₁, hok₂, hok, hold⟩ := h.replace hall hne
  have hfree : e = freeSlot := hok.resolve_right fun hused => hused.1.1 he
  refine ⟨l₁' ++ (n, some j) :: l₂, by simp [hparent], ?_, ?_⟩
  · rw [List.forall_mem_append, List.forall_mem_cons]
    exact ⟨hok₁, Or.inr ⟨hn, j, rfl⟩, hok₂⟩
  · rw [hchildren, hold, hfree, occupied_append, occupied_free, occupied_cons, Multiset.add_cons]

/-- An entry starts a new block. -/
theorem grow (h : DirSlots g i all) (hn : n ≠ marker ∧ n ≠ dotName ∧ n ≠ dotDotName) (m : Nat)
    {g' : LinkGraph Inum Str} (hparent : g'.parent i = g.parent i)
    (hchildren : g'.children i = (n, j) ::ₘ g.children i) :
    DirSlots g' i (all ++ (n, some j) :: List.replicate m freeSlot) := by
  obtain ⟨slots, rfl, hok, hold⟩ := h.shape
  refine ⟨slots ++ (n, some j) :: List.replicate m freeSlot, by simp [hparent], ?_, ?_⟩
  · rw [List.forall_mem_append, List.forall_mem_cons]
    refine ⟨hok, Or.inr ⟨hn, j, rfl⟩, fun e he => Or.inl ?_⟩
    exact List.eq_of_mem_replicate he
  · rw [hchildren, hold, occupied_append, occupied_cons, occupied_replicate, Multiset.add_cons,
      add_zero]

/-- The slot of a child is freed, and the children are one less. -/
theorem free (h : DirSlots g i all) (hall : all = l₁ ++ (n, some j) :: l₂)
    (hn : n ≠ dotName ∧ n ≠ dotDotName) :
    ∃ rest, g.children i = (n, j) ::ₘ rest ∧
      ∀ {g' : LinkGraph Inum Str}, g'.parent i = g.parent i → g'.children i = rest →
        DirSlots g' i (l₁ ++ freeSlot :: l₂) := by
  obtain ⟨l₁', rfl, hok₁, hok₂, _, hold⟩ := h.replace hall hn
  refine ⟨occupied l₁' + occupied l₂, ?_, fun hparent hrest => ?_⟩
  · rw [hold, occupied_cons, Multiset.add_cons]
  · refine ⟨l₁' ++ freeSlot :: l₂, by simp [hparent], ?_, ?_⟩
    · rw [List.forall_mem_append, List.forall_mem_cons]
      exact ⟨hok₁, Or.inl rfl, hok₂⟩
    · rw [hrest, occupied_append, occupied_free]

end DirSlots

/-- The block of a new directory. -/
theorem newDir_blocks {disk : List Block} {p i : Inum} {a : Nat}
    (ha : disk[a]? = some (makeNewDirblock p i)) :
    DirBlocks disk (pointTo (makeInode .directory 1 2) 0 a) [a]
      [(dotName, some i) :: (dotDotName, some p) :: List.replicate 6 freeSlot] where
  size := rfl
  size_le := by
    show 1 ≤ NUM_INODE_PTRS
    decide
  pointers := rfl
  read := .cons ha .nil

/-! ## Nodes -/

structure InodeAt (disk : List Block) (g : LinkGraph Inum Str) (i : Inum) (inode : Inode) :
    Prop where
  kind : g.kind i = some inode.type.kind
  refs : g.refs i = inode.refs
  dir : inode.type = .directory → ∃ addrs blocks, DirBlocks disk inode addrs blocks ∧
    DirSlots g i blocks.flatten

/-- Inode number `i`, which the inode map sends to `addr`, is what the graph says. -/
def NodeAt (disk : List Block) (g : LinkGraph Inum Str) (i : Inum) : Option Nat → Prop
  | none => g.kind i = none
  | some a => ∃ inode, disk[a]? = some (.inode inode) ∧ InodeAt disk g i inode

structure Represents (s : LFS) (g : LinkGraph Inum Str) : Prop where
  checkpoint : HasCheckpoint s.disk
  node : ∀ i, NodeAt s.disk g i (s.inodeMap i)

/-- The graphs say the same of node `i`. -/
structure SameNode (g g' : LinkGraph Inum Str) (i : Inum) : Prop where
  kind : g'.kind i = g.kind i
  children : g'.children i = g.children i
  parent : g'.parent i = g.parent i
  refs : g'.refs i = g.refs i

section Nodes

variable {s t : LFS} {disk disk' : List Block} {g g' : LinkGraph Inum Str} {i p : Inum}
  {inode : Inode} {addr : Option Nat}

/-- An inode is what it was on a longer log, for a graph that says the same of its node. -/
theorem InodeAt.keep (h : InodeAt disk g i inode) (hdisk : Extends disk disk')
    (hsame : SameNode g g' i) : InodeAt disk' g' i inode where
  kind := hsame.kind.trans h.kind
  refs := hsame.refs.trans h.refs
  dir htype := by
    obtain ⟨addrs, blocks, hblocks, hslots⟩ := h.dir htype
    refine ⟨addrs, blocks, hblocks.extend hdisk, ?_⟩
    obtain ⟨slots, hflat, hok, hchildren⟩ := hslots.shape
    exact ⟨slots, by rw [hsame.parent, hflat], hok, hsame.children.trans hchildren⟩

theorem NodeAt.keep (h : NodeAt disk g i addr) (hdisk : Extends disk disk')
    (hsame : SameNode g g' i) : NodeAt disk' g' i addr := by
  cases addr with
  | none => exact hsame.kind.trans h
  | some a =>
    obtain ⟨inode, hget, hnode⟩ := h
    refine ⟨inode, hdisk a _ hget fun entries heq => ?_, hnode.keep hdisk hsame⟩
    cases heq

/-- An operation remaps two inode numbers and adds blocks to the log; all others are what they
were. -/
theorem Represents.remap (h : Represents s g) (hdisk : Extends s.disk t.disk)
    (hcheckpoint : HasCheckpoint t.disk)
    (hother : ∀ j, j ≠ p → j ≠ i → t.inodeMap j = s.inodeMap j ∧ SameNode g g' j)
    (hp : NodeAt t.disk g' p (t.inodeMap p)) (hi : NodeAt t.disk g' i (t.inodeMap i)) :
    Represents t g' := by
  refine ⟨hcheckpoint, fun j => ?_⟩
  by_cases hjp : j = p
  · exact hjp ▸ hp
  · by_cases hji : j = i
    · exact hji ▸ hi
    · obtain ⟨hmap, hsame⟩ := hother j hjp hji
      rw [hmap]
      exact (h.node j).keep hdisk hsame

/-- What `get_inode_from_inumber` reads from the inode map in memory. -/
theorem getInode_eq_ok (hmem : s.useDiskCr = false) (h : s.getInodeFromInumber i = .ok inode) :
    ∃ a, s.inodeMap i = some a ∧ s.disk[a]? = some (.inode inode) := by
  unfold getInodeFromInumber at h
  obtain ⟨addr, haddr, h⟩ := bind_eq_ok.mp h
  obtain rfl : s.inodeMap i = addr := by simpa [inodeAddress, hmem] using haddr
  cases hmap : s.inodeMap i with
  | none =>
    rw [hmap] at h
    cases h
  | some a =>
    rw [hmap] at h
    obtain ⟨block, hblock, h⟩ := bind_eq_ok.mp h
    cases block with
    | inode inode' =>
      obtain rfl : inode' = inode := Except.ok.inj h
      exact ⟨a, rfl, index_some_eq_ok.mp hblock⟩
    | checkpoint entries => cases h
    | dataDirectory entries => cases h
    | dataBlock contents => cases h
    | imap entries => cases h

theorem Represents.inodeAt (h : Represents s g) (hmem : s.useDiskCr = false)
    (hread : s.getInodeFromInumber i = .ok inode) : InodeAt s.disk g i inode := by
  obtain ⟨a, hmap, hget⟩ := getInode_eq_ok hmem hread
  have hnode := h.node i
  rw [hmap] at hnode
  obtain ⟨inode', hget', hnode⟩ := hnode
  obtain rfl : inode = inode' := by
    have heq := Option.some.inj (hget.symm.trans hget')
    cases heq
    rfl
  exact hnode

theorem Represents.kind_none_iff (h : Represents s g) : g.kind i = none ↔ s.inodeMap i = none := by
  have hnode := h.node i
  cases hmap : s.inodeMap i with
  | none =>
    rw [hmap] at hnode
    exact ⟨fun _ => rfl, fun _ => hnode⟩
  | some a =>
    rw [hmap] at hnode
    obtain ⟨inode, _, hnode⟩ := hnode
    simp [hnode.kind]

end Nodes

end OsLab.Lfs
