import Mathlib.Data.Multiset.Filter
import OsLab.Lfs.Outcomes

/-!
# Directories of LFS

A directory inode points to its blocks from the left. Read one after the other the blocks give one
list of slots, which is what a lookup searches; an update replaces one slot or adds a block.

* **`DirBlocks`** -- the blocks of a directory inode, with their addresses and entries.
* **`lookup_eq`**, **`findSlotLoop_spec`** -- a lookup and the search for a slot find the first slot
  of a name.
* **`setBlock`**, **`addBlock`**, **`addDirEntry_spec`** -- the two ways in which an entry is added.
-/

namespace OsLab.Lfs

open LFS

abbrev Slot := Str × Option Inum

def freeSlot : Slot := (['-'], none)

section Flatten

theorem flatten_set {α : Type*} {xss : List (List α)} {xs : List α} {k j : Nat} {x : α}
    (hk : xss[k]? = some xs) (hj : xs[j]? = some x) (y : α) :
    ∃ l₁ l₂, xss.flatten = l₁ ++ x :: l₂ ∧
      (xss.set k (xs.set j y)).flatten = l₁ ++ y :: l₂ := by
  induction xss generalizing k with
  | nil => cases hk
  | cons zs xss ih =>
    cases k with
    | zero =>
      obtain rfl : zs = xs := Option.some.inj hk
      obtain ⟨hlt, rfl⟩ := List.getElem?_eq_some_iff.mp hj
      refine ⟨zs.take j, zs.drop (j + 1) ++ xss.flatten, ?_, ?_⟩
      · rw [List.flatten_cons, ← List.cons_append, ← List.append_assoc, List.getElem_cons_drop,
          List.take_append_drop]
      · rw [List.set_cons_zero, List.flatten_cons, List.set_eq_take_append_cons_drop, if_pos hlt,
          List.append_assoc, List.cons_append]
    | succ k =>
      obtain ⟨l₁, l₂, hflat, hset⟩ := ih hk
      refine ⟨zs ++ l₁, l₂, ?_, ?_⟩
      · rw [List.flatten_cons, hflat, List.append_assoc]
      · rw [List.set_cons_succ, List.flatten_cons, hset, List.append_assoc]

theorem filterMap_getElem?_range {α : Type*} (xs : List α) :
    ((List.range xs.length).filterMap fun k => xs[k]?) = xs := by
  induction xs with
  | nil => rfl
  | cons x xs ih =>
    have hhead : (x :: xs)[0]? = some x := rfl
    rw [List.length_cons, List.range_succ_eq_map, List.filterMap_cons_some hhead,
      List.filterMap_map]
    exact congrArg (x :: ·) ih

end Flatten

/-- The blocks of a directory inode: `addrs` are its pointers, `blocks` their entries. -/
structure DirBlocks (disk : List Block) (inode : Inode) (addrs : List Nat)
    (blocks : List (List Slot)) : Prop where
  size : inode.size = addrs.length
  size_le : addrs.length ≤ NUM_INODE_PTRS
  pointers : inode.pointers = addrs.map some ++ List.replicate (NUM_INODE_PTRS - addrs.length) none
  read : List.Forall₂ (fun a entries => disk[a]? = some (.dataDirectory entries)) addrs blocks

namespace DirBlocks

variable {disk disk' : List Block} {inode inode' : Inode} {addrs : List Nat}
  {blocks : List (List Slot)} {name : Str}

/-- A longer log has the blocks where they were. -/
theorem extend (h : DirBlocks disk inode addrs blocks) (hdisk : Extends disk disk') :
    DirBlocks disk' inode addrs blocks := by
  refine ⟨h.size, h.size_le, h.pointers, h.read.imp fun a entries hget => ?_⟩
  refine hdisk a _ hget fun checkpoint heq => ?_
  cases heq

/-- The blocks depend on the size and the pointers of the inode only. -/
theorem congr (h : DirBlocks disk inode addrs blocks) (hsize : inode'.size = inode.size)
    (hpointers : inode'.pointers = inode.pointers) : DirBlocks disk inode' addrs blocks :=
  ⟨hsize.trans h.size, h.size_le, hpointers.trans h.pointers, h.read⟩

theorem length_eq (h : DirBlocks disk inode addrs blocks) : blocks.length = inode.size := by
  rw [h.size, h.read.length_eq]

/-! ## Reading -/

/-- A directory block is read. -/
theorem readEntries_ok {a : Nat} {entries : List Slot}
    (h : disk[a]? = some (.dataDirectory entries)) : readEntries disk (some a) = .ok entries := by
  have hget := index_some_eq_ok.mpr h
  simp only [readEntries, hget, bind, Except.bind]
  rfl

theorem lookupLoop_none (n : Nat) :
    lookupLoop disk name (List.replicate n none) = .ok none := by
  induction n with
  | zero => rfl
  | succ n ih => exact ih

/-- The loop of `__lookup` searches the blocks in order, and passes over the pointers that are not
set. -/
theorem lookupLoop_append (n : Nat) (h : List.Forall₂
    (fun a entries => disk[a]? = some (.dataDirectory entries)) addrs blocks) :
    lookupLoop disk name (addrs.map some ++ List.replicate n none) =
      .ok ((blocks.flatten.find? (·.1 = name)).bind Prod.snd) := by
  induction h with
  | nil => exact lookupLoop_none n
  | @cons a entries addrs blocks hget hrest ih =>
    have hread := readEntries_ok hget
    rw [List.map_cons, List.cons_append, List.flatten_cons, List.find?_append]
    unfold lookupLoop
    rw [hread]
    show (match entries.find? (·.1 = name) with | some (_, i) => _ | none => _) = _
    cases hfind : entries.find? (·.1 = name) with
    | some e => rfl
    | none => rw [ih, Option.none_or]

/-- A lookup searches the slots, all blocks as one list. -/
theorem lookup_eq (h : DirBlocks disk inode addrs blocks) :
    lookupLoop disk name inode.pointers =
      .ok ((blocks.flatten.find? (·.1 = name)).bind Prod.snd) := by
  rw [h.pointers]
  exact lookupLoop_append _ h.read

theorem readDirblock_ok (h : DirBlocks disk inode addrs blocks) {k : Nat} {entries : List Slot}
    (hk : blocks[k]? = some entries) : readDirblock disk inode k = .ok entries := by
  obtain ⟨hlt, rfl⟩ := List.getElem?_eq_some_iff.mp hk
  have hlt' : k < addrs.length := h.read.length_eq ▸ hlt
  have hget := h.read.get hlt' hlt
  have hpointer : inode.pointers[k]? = some (some addrs[k]) := by
    rw [h.pointers, List.getElem?_append_left (by simpa using hlt')]
    simp [hlt']
  have hindex := index_some_eq_ok.mpr hpointer
  have hread := readEntries_ok hget
  simp only [readDirblock, hindex, bind, Except.bind]
  exact hread

/-- The search for a slot never fails; it finds the first slot of that name or there is none. -/
theorem findSlotLoop_spec (h : DirBlocks disk inode addrs blocks) (name : Str) (ks : List Nat)
    (hks : ∀ k ∈ ks, k < blocks.length) :
    (findSlotLoop disk name inode ks = .ok none ∧
        (ks.filterMap fun k => blocks[k]?).flatten.find? (·.1 = name) = none) ∨
      ∃ k slot entries e, findSlotLoop disk name inode ks = .ok (some (k, slot)) ∧
        blocks[k]? = some entries ∧ entries[slot]? = some e ∧
        (ks.filterMap fun k => blocks[k]?).flatten.find? (·.1 = name) = some e := by
  induction ks with
  | nil => exact Or.inl ⟨rfl, rfl⟩
  | cons k ks ih =>
    rw [List.forall_mem_cons] at hks
    obtain ⟨entries, hentries⟩ : ∃ entries, blocks[k]? = some entries :=
      ⟨_, List.getElem?_eq_getElem hks.1⟩
    have hread := h.readDirblock_ok hentries
    rw [List.filterMap_cons_some hentries, List.flatten_cons, List.find?_append]
    unfold findSlotLoop
    rw [hread]
    simp only [bind, Except.bind]
    cases hfind : entries.findIdx? (·.1 = name) with
    | some slot =>
      -- the block has a slot of that name
      obtain ⟨hlt, hname, hfirst⟩ := List.findIdx?_eq_some_iff_getElem.mp hfind
      have hfound : entries.find? (·.1 = name) = some entries[slot] := by
        rw [List.find?_eq_some_iff_getElem]
        exact ⟨hname, slot, hlt, rfl, fun j hj => by simpa using hfirst j hj⟩
      refine Or.inr ⟨k, slot, entries, entries[slot], rfl, hentries,
        List.getElem?_eq_getElem hlt, ?_⟩
      rw [hfound, Option.some_or]
    | none =>
      have hfound : entries.find? (·.1 = name) = none := by
        rw [List.findIdx?_eq_none_iff] at hfind
        rw [List.find?_eq_none]
        exact fun e he => by simpa using hfind e he
      rw [hfound, Option.none_or]
      exact ih hks.2

/-- The slot that is found, by its block and its place there, and where it stands in the whole
list. -/
theorem findMatchingDirSlot_spec (h : DirBlocks disk inode addrs blocks) (name : Str) :
    (findMatchingDirSlot disk name inode = .ok none ∧
        blocks.flatten.find? (·.1 = name) = none) ∨
      ∃ k slot entries e, findMatchingDirSlot disk name inode = .ok (some (k, slot)) ∧
        blocks[k]? = some entries ∧ entries[slot]? = some e ∧
        blocks.flatten.find? (·.1 = name) = some e := by
  have hks : ∀ k ∈ List.range inode.size, k < blocks.length := by
    intro k hk
    rw [h.length_eq]
    exact List.mem_range.mp hk
  have hall : ((List.range inode.size).filterMap fun k => blocks[k]?) = blocks := by
    rw [← h.length_eq]
    exact filterMap_getElem?_range blocks
  have hspec := h.findSlotLoop_spec name _ hks
  rwa [hall] at hspec

/-! ## Updating -/

/-- One block is replaced by a newly logged one. -/
theorem setBlock (h : DirBlocks disk inode addrs blocks) {k a : Nat} {entries : List Slot}
    (hk : k < blocks.length) (ha : disk[a]? = some (.dataDirectory entries)) :
    DirBlocks disk (pointTo inode k a) (addrs.set k a) (blocks.set k entries) := by
  have hk' : k < addrs.length := h.read.length_eq ▸ hk
  refine ⟨by simpa [pointTo] using h.size, by simpa using h.size_le, ?_, ?_⟩
  · show inode.pointers.set k (some a) = _
    rw [h.pointers, List.set_append_left _ _ (by simpa using hk'), List.map_set, List.length_set]
  · rw [List.forall₂_iff_get]
    refine ⟨by simp [h.read.length_eq], fun j hj hj' => ?_⟩
    simp only [List.get_eq_getElem, List.getElem_set]
    split
    · exact ha
    · exact h.read.get (by simpa using hj) (by simpa using hj')

/-- A newly logged block is added, if the inode has a pointer left. -/
theorem addBlock (h : DirBlocks disk inode addrs blocks) {a : Nat} {entries : List Slot}
    (hsize : inode.size < NUM_INODE_PTRS) (ha : disk[a]? = some (.dataDirectory entries)) :
    DirBlocks disk (pointTo { inode with size := inode.size + 1 } inode.size a) (addrs ++ [a])
      (blocks ++ [entries]) := by
  obtain ⟨n, hn⟩ : ∃ n, NUM_INODE_PTRS - addrs.length = n + 1 :=
    Nat.exists_eq_succ_of_ne_zero (by rw [h.size] at hsize; omega)
  have hn' : NUM_INODE_PTRS - (addrs.length + 1) = n := by omega
  have hlt : addrs.length + 1 ≤ NUM_INODE_PTRS := by
    rw [h.size] at hsize
    exact hsize
  refine ⟨by simp [pointTo, h.size], by simpa using hlt, ?_, ?_⟩
  · show inode.pointers.set inode.size (some a) = _
    rw [h.pointers, h.size, hn, List.set_append_right _ _ (by simp)]
    simp [List.replicate_succ, hn']
  · exact List.rel_append h.read (.cons ha .nil)

/-- `__add_dir_entry` never fails: it finds a slot, or room for a block, or returns that there is
none. -/
theorem addDirEntry_ok (h : DirBlocks disk inode addrs blocks) (name : Str) (i : Inum) :
    ∃ r, addDirEntry disk inode name i = .ok r := by
  unfold addDirEntry
  rcases h.findMatchingDirSlot_spec ['-'] with ⟨hnone, _⟩ | ⟨k, slot, old, e, hsome, hk, _, _⟩
  · rw [hnone]
    simp only [bind, Except.bind]
    split <;> exact ⟨_, rfl⟩
  · have hread := h.readDirblock_ok hk
    rw [hsome]
    simp only [bind, Except.bind, hread]
    exact ⟨_, rfl⟩

/-- `__add_dir_entry` fills a free slot of a block, or starts a new block of empty entries. -/
theorem addDirEntry_spec (h : DirBlocks disk inode addrs blocks) {name : Str} {i : Inum}
    {k size : Nat} {entries : List Slot}
    (hadd : addDirEntry disk inode name i = .ok (some (k, size, entries))) :
    (∃ old slot e, blocks[k]? = some old ∧ old[slot]? = some e ∧ e.1 = ['-'] ∧
        size = inode.size ∧ entries = old.set slot (name, some i)) ∨
      k = inode.size ∧ size = inode.size + 1 ∧ inode.size < NUM_INODE_PTRS ∧
        entries = (name, some i) :: List.replicate 7 freeSlot := by
  unfold addDirEntry at hadd
  rcases h.findMatchingDirSlot_spec ['-'] with ⟨hnone, _⟩ | ⟨k', slot, old, e, hsome, hk, hslot, hfound⟩
  · rw [hnone] at hadd
    simp only [bind, Except.bind] at hadd
    split at hadd
    · rename_i hne
      obtain ⟨rfl, rfl, rfl⟩ : inode.size = k ∧ inode.size + 1 = size ∧
          emptyEntries.set 0 (name, some i) = entries := by
        simpa [pure, Except.pure] using hadd
      have hle : inode.size ≤ NUM_INODE_PTRS := h.size ▸ h.size_le
      exact Or.inr ⟨rfl, rfl, by omega, rfl⟩
    · simp [pure, Except.pure] at hadd
  · rw [hsome] at hadd
    have hread := h.readDirblock_ok hk
    have hfree : e.1 = ['-'] := by simpa using List.find?_some hfound
    obtain ⟨rfl, rfl, rfl⟩ : k' = k ∧ inode.size = size ∧ old.set slot (name, some i) = entries := by
      simpa [hread, bind, Except.bind, pure, Except.pure] using hadd
    exact Or.inl ⟨old, slot, e, hk, hslot, hfree, rfl, rfl⟩

end DirBlocks

end OsLab.Lfs
