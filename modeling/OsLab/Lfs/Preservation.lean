import OsLab.Lfs.Tree

/-!
# The operations on the tree

With the inode map in memory every operation is one operation of the link graph, as long as no
marker is entered as a name.

* **`NoMarker`**, **`Unmarked`** -- paths without the marker of a free slot, anywhere or as the last
  component.
* **`Consistent`** -- the invariant: the state represents a link graph that is well linked.
* **`DirAt`** -- a directory as an operation has read it, and what its lookups say about the graph.
* **`DirAt.add`**, **`DirAt.remove`** -- the directory with an entry more or less.
-/

namespace OsLab.Lfs

open LFS

/-- No component of the path is the marker of a free slot. -/
def NoMarker (path : Str) : Prop := ∀ c ∈ split path '/', c ≠ marker

instance : DecidablePred NoMarker := fun path =>
  inferInstanceAs (Decidable (∀ c ∈ split path '/', c ≠ marker))

/-- The last component of the path is not the marker. -/
def Unmarked (path : Str) : Prop := (split path '/').getLast? ≠ some marker

instance : DecidablePred Unmarked := fun path =>
  inferInstanceAs (Decidable ((split path '/').getLast? ≠ some marker))

theorem NoMarker.unmarked {path : Str} (h : NoMarker path) : Unmarked path := by
  intro hlast
  exact h marker (List.mem_of_getLast? hlast) rfl

structure Consistent (s : LFS) (g : LinkGraph Inum Str) : Prop where
  inMemory : s.useDiskCr = false
  represents : Represents s g
  wellLinked : g.WellLinked Finset.univ ROOT_INODE

section Walks

variable {s t : LFS} {g : LinkGraph Inum Str} {path name : Str} {p i : Inum} {found : Option Inum}
  {parentInode : Inode}

/-- The directory `p` as an operation has read it. -/
structure DirAt (s : LFS) (g : LinkGraph Inum Str) (p : Inum) (parentInode : Inode)
    (addrs : List Nat) (blocks : List (List Slot)) : Prop where
  type : parentInode.type = .directory
  kind : g.kind p = some .dir
  refs : g.refs p = parentInode.refs
  read : DirBlocks s.disk parentInode addrs blocks
  slots : DirSlots g p blocks.flatten

/-- A directory that has been read is one of the graph, with its blocks and slots. -/
theorem Consistent.dirAt (h : Consistent s g) (hread : s.getInodeFromInumber p = .ok parentInode)
    (htype : parentInode.type = .directory) :
    ∃ addrs blocks, DirAt s g p parentInode addrs blocks := by
  have hnode := h.represents.inodeAt h.inMemory hread
  obtain ⟨addrs, blocks, hblocks, hslots⟩ := hnode.dir htype
  refine ⟨addrs, blocks, htype, ?_, hnode.refs, hblocks, hslots⟩
  rw [hnode.kind, kind_eq_dir.mpr htype]

variable {addrs : List Nat} {blocks : List (List Slot)}

/-- A name that is not found is in no slot. -/
theorem DirAt.not_found (h : DirAt s g p parentInode addrs blocks) (hname : name ≠ marker)
    (hlookup : lookupLoop s.disk name parentInode.pointers = .ok none) :
    ∀ e ∈ blocks.flatten, e.1 ≠ name := by
  rw [h.read.lookup_eq] at hlookup
  have hfind := Except.ok.inj hlookup
  cases hsearch : blocks.flatten.find? (·.1 = name) with
  | none =>
    rw [List.find?_eq_none] at hsearch
    exact fun e he => by simpa using hsearch e he
  | some e =>
    -- a slot of that name would have an inode number
    have hen : e.1 = name := by simpa using List.find?_some hsearch
    obtain ⟨j, hj⟩ := h.slots.exists_inum (List.mem_of_find?_eq_some hsearch) (hen ▸ hname)
    rw [hsearch] at hfind
    have hnone : e.2 = none := hfind
    rw [hj] at hnone
    cases hnone

/-- A name that is found is in a slot. -/
theorem DirAt.mem_of_found (h : DirAt s g p parentInode addrs blocks)
    (hlookup : lookupLoop s.disk name parentInode.pointers = .ok (some i)) :
    (name, some i) ∈ blocks.flatten := by
  rw [h.read.lookup_eq] at hlookup
  obtain ⟨e, hsearch, hi⟩ := Option.bind_eq_some_iff.mp (Except.ok.inj hlookup)
  have hen : e.1 = name := by simpa using List.find?_some hsearch
  have hmem := List.mem_of_find?_eq_some hsearch
  rw [← hen, ← hi]
  exact hmem

/-- A new name may be entered. -/
theorem DirAt.new_name (h : DirAt s g p parentInode addrs blocks) (hname : name ≠ marker)
    (hlookup : lookupLoop s.disk name parentInode.pointers = .ok none) :
    (name ≠ marker ∧ name ≠ dotName ∧ name ≠ dotDotName) ∧ ∀ e ∈ g.children p, e.1 ≠ name := by
  have hnot := h.not_found hname hlookup
  obtain ⟨slots, hflat, _⟩ := h.slots.shape
  refine ⟨⟨hname, ?_, ?_⟩, ?_⟩
  · exact (hnot (dotName, some p) (by simp [hflat])).symm
  · exact (hnot (dotDotName, some (g.parent p)) (by simp [hflat])).symm
  · rintro ⟨n, j⟩ he
    exact hnot _ (h.slots.mem_of_children he).1

/-- A slot that names a file is a child's. -/
theorem DirAt.child (h : DirAt s g p parentInode addrs blocks) (hs : Consistent s g)
    (hi : g.kind i = some .file) (hmem : (name, some i) ∈ blocks.flatten) :
    (name, i) ∈ g.children p := by
  rcases h.slots.cases_of_mem hmem with ⟨_, rfl⟩ | ⟨_, rfl⟩ | hchild
  · have hkind := hi.symm.trans h.kind
    cases hkind
  · have hkind := hi.symm.trans (hs.wellLinked.parent_dir h.kind)
    cases hkind
  · exact hchild

end Walks

/-! ## The directory of an operation -/

section Entries

variable {s : LFS} {g g' : LinkGraph Inum Str} {disk' : List Block} {p i : Inum}
  {parentInode : Inode} {addrs : List Nat} {blocks : List (List Slot)} {name : Str} {k size a : Nat}
  {entries : List Slot}

/-- A newly logged block with the entry makes it a child. -/
theorem DirAt.add (h : DirAt s g p parentInode addrs blocks)
    (hadd : addDirEntry s.disk parentInode name i = .ok (some (k, size, entries)))
    (hname : name ≠ marker ∧ name ≠ dotName ∧ name ≠ dotDotName) (hdisk : Extends s.disk disk')
    (ha : disk'[a]? = some (.dataDirectory entries)) (hparent : g'.parent p = g.parent p)
    (hchildren : g'.children p = (name, i) ::ₘ g.children p) :
    ∃ addrs' blocks', DirBlocks disk' (pointTo { parentInode with size := size } k a) addrs' blocks' ∧
      DirSlots g' p blocks'.flatten := by
  have hblocks := h.read.extend hdisk
  rcases h.read.addDirEntry_spec hadd with
    ⟨old, slot, e, hk, hslot, hfree, rfl, rfl⟩ | ⟨rfl, rfl, hsize, rfl⟩
  · obtain ⟨hlt, _⟩ := List.getElem?_eq_some_iff.mp hk
    obtain ⟨l₁, l₂, hflat, hset⟩ := flatten_set hk hslot (name, some i)
    refine ⟨_, _, hblocks.setBlock hlt ha, ?_⟩
    rw [hset]
    exact h.slots.fill hflat hfree hname hparent hchildren
  · refine ⟨_, _, hblocks.addBlock hsize ha, ?_⟩
    rw [List.flatten_append, List.flatten_singleton]
    exact h.slots.grow hname 7 hparent hchildren

/-- A newly logged block without the entry takes it from the children. -/
theorem DirAt.remove (h : DirAt s g p parentInode addrs blocks) (hs : Consistent s g)
    (hi : g.kind i = some .file)
    (hlookup : lookupLoop s.disk name parentInode.pointers = .ok (some i)) {slot : Nat}
    (hslot : findMatchingDirSlot s.disk name parentInode = .ok (some (k, slot)))
    (hread : readDirblock s.disk parentInode k = .ok entries) (hdisk : Extends s.disk disk')
    (ha : disk'[a]? = some (.dataDirectory (entries.set slot freeSlot))) :
    ∃ rest addrs' blocks', g.children p = (name, i) ::ₘ rest ∧
      DirBlocks disk' (pointTo parentInode k a) addrs' blocks' ∧
      ∀ {g' : LinkGraph Inum Str}, g'.parent p = g.parent p → g'.children p = rest →
        DirSlots g' p blocks'.flatten := by
  have hchild := h.child hs hi (h.mem_of_found hlookup)
  obtain ⟨_, _, hdots⟩ := h.slots.mem_of_children hchild
  rcases h.read.findMatchingDirSlot_spec name with
    ⟨hnone, _⟩ | ⟨k', slot', old, e, hsome, hk, he, hfirst⟩
  · rw [hnone] at hslot
    cases hslot
  · obtain ⟨rfl, rfl⟩ : k' = k ∧ slot' = slot := by simpa using hsome.symm.trans hslot
    obtain rfl : old = entries := Except.ok.inj ((h.read.readDirblock_ok hk).symm.trans hread)
    obtain ⟨hlt, _⟩ := List.getElem?_eq_some_iff.mp hk
    obtain ⟨l₁, l₂, hflat, hset⟩ := flatten_set hk he freeSlot
    -- the slot found is the one the lookup found
    obtain rfl : e = (name, some i) := by
      rw [h.read.lookup_eq, hfirst] at hlookup
      exact Prod.ext (by simpa using List.find?_some hfirst) (Except.ok.inj hlookup)
    obtain ⟨rest, hrest, hslots⟩ := h.slots.free hflat hdots
    refine ⟨rest, _, _, hrest, (h.read.extend hdisk).setBlock hlt ha, fun hparent hchildren => ?_⟩
    rw [hset]
    exact hslots hparent hchildren

end Entries

end OsLab.Lfs
