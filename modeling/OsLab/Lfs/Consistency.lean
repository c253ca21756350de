import OsLab.Lfs.Errors
import OsLab.Lfs.Operations
import OsLab.Lib.Listing

/-!
# Consistency of LFS

What a checker of the file system would look at, for every state a run without the marker reaches:
the inode map, the blocks of directories, their entries and the link counts.

* **`Checked`** -- the checks, in terms of the disk and the inode map alone.
* **`Represents.slots_dir`**, **`Represents.lists`** -- the entries on the disk are those of the
  link graph.
* **`Consistent.pointers`**, **`Consistent.free_iff`**, **`Consistent.checked`** -- each check, from
  the graph.
* **`namedRuns_checked`** -- every state of a run without the marker passes them.
-/

namespace OsLab.Lfs

open LFS

/-! ## Reading the tree -/

namespace LFS

/-- The occupied entries of a live directory. -/
def dirEntries (s : LFS) (d : Inum) : List (Str × Inum) :=
  (s.slots d).filterMap fun e => e.2.map fun i => (e.1, i)

/-- The entries other than `.` and `..`. -/
def childEntries (s : LFS) (d : Inum) : List (Str × Inum) :=
  (s.dirEntries d).filter fun e => e.1 ≠ dotName ∧ e.1 ≠ dotDotName

/-- How many entries of live directories name inode number `i`. -/
def entriesNaming (s : LFS) (i : Inum) : Nat :=
  ∑ d : Inum, (s.dirEntries d).countP fun e => e.2 = i

/-- How many entries other than `.` and `..` name inode number `i`. -/
def childEntriesNaming (s : LFS) (i : Inum) : Nat :=
  ∑ d : Inum, (s.childEntries d).countP fun e => e.2 = i

end LFS

structure Checked (s : LFS) : Prop where
  inodeBlock : ∀ (i : Inum) a, s.inodeMap i = some a → ∃ inode, s.disk[a]? = some (.inode inode)
  pointers : ∀ i inode, s.inodeOf i = some inode → inode.type = .directory →
    inode.size ≤ NUM_INODE_PTRS ∧ inode.pointers.length = NUM_INODE_PTRS ∧
      ∀ (k : Nat) p, inode.pointers[k]? = some p →
        if k < inode.size then ∃ a entries, p = some a ∧ s.disk[a]? = some (.dataDirectory entries)
        else p = none
  free : ∀ d, ∀ e ∈ s.slots d, e.2 = none ↔ e.1 = marker
  allocated : ∀ d, ∀ e ∈ s.dirEntries d, s.inodeMap e.2 ≠ none
  names : ∀ d, ((s.dirEntries d).map Prod.fst).Nodup
  dot : ∀ d, s.isDir d = true → (dotName, d) ∈ s.dirEntries d
  dotDot : ∀ d, s.isDir d = true → ∃ p, (dotDotName, p) ∈ s.dirEntries d ∧
    if d = ROOT_INODE then p = ROOT_INODE else ∃ n, (n, d) ∈ s.childEntries p
  fileRefs : ∀ i inode, s.inodeOf i = some inode → inode.type = .regular →
    inode.refs = s.entriesNaming i ∧ 1 ≤ s.entriesNaming i
  dirRefs : ∀ i inode, s.inodeOf i = some inode → inode.type = .directory →
    inode.refs = 2 + (s.childEntries i).countP fun e => s.isDir e.2
  dirNamed : ∀ i inode, s.inodeOf i = some inode → inode.type = .directory →
    s.childEntriesNaming i = if i = ROOT_INODE then 0 else 1

/-! ## The tree is the graph -/

section Reading

variable {s : LFS} {g : LinkGraph Inum Str} {i d : Inum} {inode : Inode}

/-- The inode at a number in use is what the graph says. -/
theorem Represents.inodeOf (h : Represents s g) (hi : s.inodeOf i = some inode) :
    InodeAt s.disk g i inode := by
  obtain ⟨a, hmap, hget⟩ := inodeOf_eq_some.mp hi
  have hnode := h.node i
  rw [hmap] at hnode
  obtain ⟨inode', hget', hnode⟩ := hnode
  rw [hget] at hget'
  cases hget'
  exact hnode

theorem Represents.exists_inodeOf (h : Represents s g) (hi : g.kind i ≠ none) :
    ∃ inode, s.inodeOf i = some inode ∧ InodeAt s.disk g i inode := by
  have hnode := h.node i
  cases hmap : s.inodeMap i with
  | none =>
    rw [hmap] at hnode
    exact absurd hnode hi
  | some a =>
    rw [hmap] at hnode
    obtain ⟨inode, hget, hnode⟩ := hnode
    exact ⟨inode, inodeOf_eq_some.mpr ⟨a, hmap, hget⟩, hnode⟩

/-- The slots of a directory are those of the graph: its two dots, its children, and free ones. -/
theorem Represents.slots_dir (h : Represents s g) (hd : g.kind d = some .dir) :
    DirSlots g d (s.slots d) := by
  obtain ⟨⟨type, size, refs, pointers⟩, hinode, hnode⟩ := h.exists_inodeOf (i := d) (by simp [hd])
  obtain rfl : type = .directory := by
    rw [hnode.kind] at hd
    exact kind_eq_dir.mp (Option.some.inj hd)
  obtain ⟨addrs, blocks, hblocks, hslots⟩ := hnode.dir rfl
  have hflat : s.slots d = blocks.flatten := by
    unfold slots
    rw [hinode]
    exact hblocks.slots_eq
  rw [hflat]
  exact hslots

/-- What is no directory has no slots. -/
theorem Represents.slots_other (h : Represents s g) (hd : g.kind d ≠ some .dir) :
    s.slots d = [] := by
  unfold slots
  split
  · rename_i size refs pointers hinode
    exact absurd (h.inodeOf hinode).kind hd
  · rfl

/-- The entries that the state lists are the graph's, with the two dots in front. -/
theorem Represents.lists (h : Represents s g) : g.Lists dotName dotDotName s.dirEntries where
  distinct := by decide
  dir d hd := by
    obtain ⟨slots, hslots, hok, hchildren⟩ := (h.slots_dir hd).shape
    refine ⟨slots.filterMap fun (e : Slot) => e.2.map fun i => (e.1, i), ?_, hchildren, ?_⟩
    · unfold LFS.dirEntries
      rw [hslots]
      rfl
    · intro e he
      obtain ⟨slot, hmem, heq⟩ := List.mem_filterMap.mp he
      obtain ⟨i, hi, rfl⟩ := Option.map_eq_some_iff.mp heq
      -- a slot with an inode number is not free
      rcases hok slot hmem with rfl | ⟨hn, _⟩
      · cases hi
      · exact hn.2
  other d hd := by
    unfold LFS.dirEntries
    rw [h.slots_other hd]
    rfl

theorem Represents.isDir_iff (h : Represents s g) : s.isDir i = true ↔ g.kind i = some .dir := by
  unfold isDir
  cases hinode : s.inodeOf i with
  | none =>
    have hnone : g.kind i = none := by
      by_contra hi
      obtain ⟨inode, hsome, _⟩ := h.exists_inodeOf hi
      rw [hinode] at hsome
      cases hsome
    simp [hnone]
  | some inode => simp [(h.inodeOf hinode).kind, kind_eq_dir]

end Reading

/-! ## Every reachable state -/

section Checks

variable {s : LFS} {g : LinkGraph Inum Str} {i : Inum} {inode : Inode}

/-- The pointers of a directory are set from the left, as many as it has blocks. -/
theorem Consistent.pointers (h : Consistent s g) (hi : s.inodeOf i = some inode)
    (hdir : inode.type = .directory) :
    inode.size ≤ NUM_INODE_PTRS ∧ inode.pointers.length = NUM_INODE_PTRS ∧
      ∀ (k : Nat) p, inode.pointers[k]? = some p →
        if k < inode.size then ∃ a entries, p = some a ∧ s.disk[a]? = some (.dataDirectory entries)
        else p = none := by
  obtain ⟨addrs, blocks, hblocks, _⟩ := (h.represents.inodeOf hi).dir hdir
  have hle := hblocks.size_le
  refine ⟨hblocks.size ▸ hle, ?_, fun k p hp => ?_⟩
  · rw [hblocks.pointers, List.length_append, List.length_map, List.length_replicate]
    omega
  · rw [hblocks.pointers] at hp
    split
    · rename_i hk
      have hk' : k < addrs.length := hblocks.size ▸ hk
      rw [List.getElem?_append_left (by simpa using hk'), List.getElem?_map,
        List.getElem?_eq_getElem hk'] at hp
      have hk'' : k < blocks.length := hblocks.read.length_eq ▸ hk'
      exact ⟨addrs[k], blocks[k], (Option.some.inj hp).symm, hblocks.read.get hk' hk''⟩
    · rename_i hk
      have hk' : addrs.length ≤ k := hblocks.size ▸ Nat.le_of_not_lt hk
      rw [List.getElem?_append_right (by simpa using hk')] at hp
      exact List.eq_of_mem_replicate (List.mem_of_getElem? hp)

/-- A slot is free exactly if it has the marker for a name. -/
theorem Consistent.free_iff (h : Consistent s g) {d : Inum} {e : Slot} (he : e ∈ s.slots d) :
    e.2 = none ↔ e.1 = marker := by
  have hd : g.kind d = some .dir := by
    by_contra hd
    rw [h.represents.slots_other hd] at he
    cases he
  have hslots := h.represents.slots_dir hd
  constructor
  · intro hnone
    by_contra hn
    obtain ⟨j, hj⟩ := hslots.exists_inum he hn
    rw [hnone] at hj
    cases hj
  · intro hn
    obtain ⟨slots, hshape, hok, _⟩ := hslots.shape
    rw [hshape] at he
    rcases List.mem_cons.mp he with rfl | he
    · cases hn
    · rcases List.mem_cons.mp he with rfl | he
      · cases hn
      · rcases hok e he with rfl | ⟨hused, _⟩
        · rfl
        · exact absurd hn hused.1

/-- A consistent state passes the check. -/
theorem Consistent.checked (h : Consistent s g) : Checked s where
  inodeBlock i a hmap := by
    have hnode := h.represents.node i
    rw [hmap] at hnode
    obtain ⟨inode, hget, _⟩ := hnode
    exact ⟨inode, hget⟩
  pointers _ _ hi hdir := h.pointers hi hdir
  free _ _ he := h.free_iff he
  allocated d e he hfree :=
    h.represents.lists.target h.wellLinked he (h.represents.kind_none_iff.mpr hfree)
  names d := h.represents.lists.nodup h.wellLinked d
  dot d hd := (h.represents.lists.dot_mem (h.represents.isDir_iff.mp hd)).1
  dotDot d hd := by
    have hdir := h.represents.isDir_iff.mp hd
    refine ⟨g.parent d, (h.represents.lists.dot_mem hdir).2, ?_⟩
    split
    · rename_i hroot
      rw [hroot, h.wellLinked.parent_root]
    · rename_i hroot
      obtain ⟨n, hmem⟩ := h.wellLinked.parent_link d hdir hroot
      rw [h.represents.lists.children_eq h.wellLinked] at hmem
      exact ⟨n, hmem⟩
  -- The counts of the graph are those of the inodes, so its equations carry over.
  fileRefs i inode hi hfile := by
    have hnode := h.represents.inodeOf hi
    have hkind : g.kind i = some .file := by rw [hnode.kind, kind_eq_file.mpr hfile]
    have hcount : s.entriesNaming i = _ := h.represents.lists.sum_file h.wellLinked hkind
    rw [hcount, ← hnode.refs]
    exact ⟨h.wellLinked.file_refs i hkind, h.wellLinked.file_linked i hkind⟩
  dirRefs i inode hi hdir := by
    have hnode := h.represents.inodeOf hi
    have hkind : g.kind i = some .dir := by rw [hnode.kind, kind_eq_dir.mpr hdir]
    have hsub : g.subdirs i = (s.childEntries i).countP fun e => s.isDir e.2 :=
      h.represents.lists.subdirs_eq h.wellLinked (fun _ => h.represents.isDir_iff) i
    rw [← hnode.refs, h.wellLinked.dir_refs i hkind, hsub]
  dirNamed i inode hi hdir := by
    have hkind : g.kind i = some .dir := by
      rw [(h.represents.inodeOf hi).kind, kind_eq_dir.mpr hdir]
    have hcount : s.childEntriesNaming i = _ := h.represents.lists.sum_named h.wellLinked i
    rw [hcount, h.wellLinked.dir_links i hkind]

end Checks

section Runs

variable {s : LFS} {noForceCheckpoints : Bool} {inodePolicy : InodePolicy}

theorem consistent_reachable (h : (namedRuns noForceCheckpoints inodePolicy).Reachable s) :
    ∃ g, Consistent s g := by
  refine h.invariant (I := fun s => ∃ g, Consistent s g) ?_ ?_
  · rintro _ rfl
    exact ⟨_, consistent_new noForceCheckpoints inodePolicy⟩
  · rintro s a t ⟨g, hs⟩ ⟨hop, hstep⟩
    obtain ⟨g', ht, _⟩ := hs.run (hop.unmarked a.2) (next_eq_some.mp hstep)
    exact ⟨g', ht⟩

/-- **Runs without the marker stay consistent.** Every state that such a run reaches passes the
check, and `file_delete` finds the slot of the entry it removes. -/
theorem namedRuns_checked (h : (namedRuns noForceCheckpoints inodePolicy).Reachable s) :
    Checked s ∧ ∀ path, s.fileDelete path ≠ .error (.assertionError "inode_index != -1") := by
  obtain ⟨g, hs⟩ := consistent_reachable h
  refine ⟨hs.checked, fun path hrun => ?_⟩
  have habort := (valid_reachable h.of_restrict).delete_error hrun
  exact absurd habort (by decide)

theorem namedRuns_checked_link :
    ∃ s, (namedRuns false .sequential).Reachable s ∧ Checked s ∧
      ∀ path, s.fileDelete path ≠ .error (.assertionError "inode_index != -1") := by
  let ops : List (Op × Int) := [(.dirCreate ['/', 'd'] 0, 0),
    (.fileCreate ['/', 'd', '/', 'a'] 0, 0), (.fileLink ['/', 'd', '/', 'a'] ['/', 'b'], 0),
    (.fileDelete ['/', 'd', '/', 'a'], 0)]
  have hnames : ∀ a ∈ ops, a.1.NoMarker := by decide +kernel
  have hsome : (ops.foldlM next (LFS.new false false .sequential)).isSome = true := by
    decide +kernel
  obtain ⟨t, ht⟩ := Option.isSome_iff_exists.mp hsome
  have hrun : (fileSystem false false .sequential).Run (LFS.new false false .sequential) ops t :=
    Lts.run_ofFun.mpr ht
  have hreach : (namedRuns false .sequential).Reachable t :=
    ⟨_, _, rfl, hrun.restrict fun a ha _ => hnames a ha⟩
  exact ⟨t, hreach, namedRuns_checked hreach⟩

end Runs

end OsLab.Lfs
