import OsLab.Lfs.Preservation
import OsLab.Lib.Walks

/-!
# Every operation keeps the LFS tree consistent

Each case is the same: the blocks the operation logged are found on the new disk, the one or two
inode numbers it remapped are what the changed graph says, and the others are as they were.

* **`Entering`**, **`Entering.file`**, **`Entering.dir`**, **`Entering.link`** -- what an operation
  knows when it enters a number, and the three ways to do so.
* **`Removing`**, **`Removing.unlink`** -- the same for `file_delete`.
* **`Consistent.create`**, **`Consistent.link`**, **`Consistent.write`**, **`Consistent.delete`** --
  each operation: -1 and the same tree, or 0 and the tree with one entry more or less.
* **`Op.NoMarker`**, **`Op.Unmarked`**, **`Op.Removes`** -- which operations enter the marker of a
  free slot, and which remove an entry.
* **`Consistent.run`** -- all operations, and what they lose.
-/

namespace OsLab.Lfs

open LFS

/-! ## Nodes an operation does not touch -/

section SameNode

variable {g : LinkGraph Inum Str} {p i j : Inum} {name : Str}

theorem enter_of_ne (hp : j ≠ p) : g.enter p name i j = g.children j := by
  unfold LinkGraph.enter
  exact Function.update_of_ne hp ..

theorem sameNode_addFile (hp : j ≠ p) (hi : j ≠ i) : SameNode g (g.addFile p name i) j where
  kind := Function.update_of_ne hi ..
  children := enter_of_ne hp
  parent := rfl
  refs := Function.update_of_ne hi ..

theorem sameNode_addDir (hp : j ≠ p) (hi : j ≠ i) : SameNode g (g.addDir p name i) j where
  kind := Function.update_of_ne hi ..
  children := enter_of_ne hp
  parent := Function.update_of_ne hi ..
  refs := by
    show Function.update (Function.update g.refs i 2) p (g.refs p + 1) j = g.refs j
    rw [Function.update_of_ne hp, Function.update_of_ne hi]

theorem sameNode_addLink (hp : j ≠ p) (hi : j ≠ i) : SameNode g (g.addLink p name i) j where
  kind := rfl
  children := enter_of_ne hp
  parent := rfl
  refs := Function.update_of_ne hi ..

theorem sameNode_unlink (hp : j ≠ p) (hi : j ≠ i) (rest : Multiset (Str × Inum)) :
    SameNode g (g.unlink p i rest) j where
  kind := LinkGraph.unlink_kind_of_ne hi
  children := Function.update_of_ne hp ..
  parent := rfl
  refs := Function.update_of_ne hi ..

end SameNode

section Operations

variable {s t u : LFS} {g : LinkGraph Inum Str} {path : Str} {rc : Int} {p i : Inum}

/-- The errors that are reported are nothing to the tree. -/
theorem Consistent.errors (h : Consistent s g) (e : List Str) :
    Consistent { s with errorList := e } g :=
  ⟨h.inMemory, ⟨h.represents.checkpoint, h.represents.node⟩, h.wellLinked⟩

section Enter

variable {s' : LFS} {parentInode : Inode} {name : Str} {k size : Nat} {entries : List Slot}

/-- What an operation knows when it enters `i` in the directory `p`. -/
structure Entering (s : LFS) (g : LinkGraph Inum Str) (p i : Inum) (parentInode : Inode)
    (name : Str) (k size : Nat) (entries : List Slot) (addrs : List Nat)
    (blocks : List (List Slot)) : Prop where
  parent : DirAt s g p parentInode addrs blocks
  valid : name ≠ marker ∧ name ≠ dotName ∧ name ≠ dotDotName
  fresh : ∀ e ∈ g.children p, e.1 ≠ name
  slot : addDirEntry s.disk parentInode name i = .ok (some (k, size, entries))

/-- A walk that finds no entry, and a slot for it: all that is known when the operation writes. -/
theorem Consistent.entering (h : Consistent s g) (hpath : Unmarked path)
    (hwalk : s.walkPath path = .ok (⟨none, name, some (p, parentInode)⟩, s'))
    (hslot : addDirEntry s.disk parentInode name i = .ok (some (k, size, entries))) :
    ∃ addrs blocks, Entering s g p i parentInode name k size entries addrs blocks := by
  obtain ⟨hread, htype, hlookup, hlast⟩ := walkPath_parent hwalk
  obtain ⟨addrs, blocks, hdir⟩ := h.dirAt hread htype
  have hmarker : name ≠ marker := by
    rintro rfl
    exact hpath hlast
  obtain ⟨hname, hfresh⟩ := hdir.new_name hmarker hlookup
  exact ⟨addrs, blocks, hdir, hname, hfresh, hslot⟩

variable {addrs : List Nat} {blocks : List (List Slot)}

theorem Entering.ne (h : Entering s g p i parentInode name k size entries addrs blocks)
    (hi : g.kind i ≠ some .dir) : i ≠ p :=
  (LinkGraph.ne_of_kind h.parent.kind hi).symm

/-- `file_create` enters a new number as a file. -/
theorem Entering.file (h : Entering s g p i parentInode name k size entries addrs blocks)
    (hs : Consistent s g) (hi : g.kind i = none) (ht : Settled u t)
    (hu : u.disk = s.disk ++ [.dataDirectory entries,
      .inode (pointTo (newParent true parentInode size) k s.disk.length),
      .inode (makeInode .regular 0 1)])
    (hmap : u.inodeMap = Function.update (Function.update (Function.update s.inodeMap i (some 1)) p
      (some (s.disk.length + 1))) i (some (s.disk.length + 2)))
    (hmem : u.useDiskCr = false) : Consistent t (g.addFile p name i) := by
  have hdisk : Extends s.disk t.disk := Extends.trans (hu ▸ extends_append _ _) ht.extend
  have hne := h.ne (by simp [hi])
  have hkind : ∀ j, j ≠ i → (g.addFile p name i).kind j = g.kind j :=
    fun j hj => Function.update_of_ne hj ..
  refine ⟨ht.useDiskCr.trans hmem, hs.represents.remap (p := p) (i := i) hdisk ht.checkpoint ?_ ?_ ?_,
    hs.wellLinked.addFile h.parent.kind hi (Finset.mem_univ i) h.fresh⟩
  · intro j hjp hji
    rw [ht.inodeMap, hmap, Function.update_of_ne hji, Function.update_of_ne hjp,
      Function.update_of_ne hji]
    exact ⟨rfl, sameNode_addFile hjp hji⟩
  · -- the directory
    rw [ht.inodeMap, hmap, Function.update_of_ne hne.symm, Function.update_self]
    refine ⟨_, ht.get hu rfl (by simp), ?_, ?_, fun _ => ?_⟩
    · rw [hkind p hne.symm, h.parent.kind]
      exact congrArg some (kind_eq_dir.mpr h.parent.type).symm
    · exact (Function.update_of_ne hne.symm ..).trans h.parent.refs
    · exact h.parent.add h.slot h.valid hdisk (ht.get hu (k := 0) rfl (by simp)) rfl
        (Function.update_self ..)
  · -- the file
    rw [ht.inodeMap, hmap, Function.update_self]
    refine ⟨_, ht.get hu rfl (by simp), Function.update_self .., Function.update_self .., ?_⟩
    intro htype
    cases htype

/-- `dir_create` enters a new number as a directory. -/
theorem Entering.dir (h : Entering s g p i parentInode name k size entries addrs blocks)
    (hs : Consistent s g) (hi : g.kind i = none) (ht : Settled u t)
    (hu : u.disk = s.disk ++ [.dataDirectory entries, makeNewDirblock p i,
      .inode (pointTo (newParent false parentInode size) k s.disk.length),
      .inode (pointTo (makeInode .directory 1 2) 0 (s.disk.length + 1))])
    (hmap : u.inodeMap = Function.update (Function.update (Function.update s.inodeMap i (some 1)) p
      (some (s.disk.length + 2))) i (some (s.disk.length + 3)))
    (hmem : u.useDiskCr = false) : Consistent t (g.addDir p name i) := by
  have hdisk : Extends s.disk t.disk := Extends.trans (hu ▸ extends_append _ _) ht.extend
  -- The new number was free and the parent was not.
  have hne := h.ne (by simp [hi])
  refine ⟨ht.useDiskCr.trans hmem, hs.represents.remap (p := p) (i := i) hdisk ht.checkpoint ?_ ?_ ?_,
    hs.wellLinked.addDir h.parent.kind hi (Finset.mem_univ i) h.fresh⟩
  · intro j hjp hji
    rw [ht.inodeMap, hmap, Function.update_of_ne hji, Function.update_of_ne hjp,
      Function.update_of_ne hji]
    exact ⟨rfl, sameNode_addDir hjp hji⟩
  · -- the directory
    rw [ht.inodeMap, hmap, Function.update_of_ne hne.symm, Function.update_self]
    refine ⟨_, ht.get (k := 2) hu rfl (by simp), ?_, ?_, fun _ => ?_⟩
    · show Function.update g.kind i (some .dir) p = _
      rw [Function.update_of_ne hne.symm, h.parent.kind]
      exact congrArg some (kind_eq_dir.mpr h.parent.type).symm
    · show Function.update (Function.update g.refs i 2) p (g.refs p + 1) p = parentInode.refs + 1
      rw [Function.update_self, h.parent.refs]
    · have hparent : (g.addDir p name i).parent p = g.parent p :=
        Function.update_of_ne hne.symm ..
      obtain ⟨addrs', blocks', hblocks, hslots⟩ := h.parent.add h.slot h.valid hdisk
        (ht.get (k := 0) hu rfl (by simp)) hparent (Function.update_self ..)
      exact ⟨addrs', blocks', hblocks.congr rfl rfl, hslots⟩
  · -- the new directory
    rw [ht.inodeMap, hmap, Function.update_self]
    have hblock := ht.get (k := 1) hu rfl (by simp [makeNewDirblock])
    refine ⟨_, ht.get (k := 3) hu rfl (by simp), Function.update_self .., ?_, fun _ => ?_⟩
    · show Function.update (Function.update g.refs i 2) p (g.refs p + 1) i = 2
      rw [Function.update_of_ne hne, Function.update_self]
    · have hparent : (g.addDir p name i).parent i = p := Function.update_self ..
      have hempty : (g.addDir p name i).children i = 0 := by
        have hsource := hs.wellLinked.source i (by simp [hi])
        exact (enter_of_ne hne).trans hsource
      refine ⟨_, _, newDir_blocks hblock, List.replicate 6 freeSlot, ?_, ?_, ?_⟩
      · rw [hparent]
        rfl
      · exact fun e he => Or.inl (List.eq_of_mem_replicate he)
      · rw [hempty, occupied_replicate]

/-- A new entry: nothing is lost, and the path now leads to `i`. -/
structure Entered (s t : LFS) (g : LinkGraph Inum Str) (path : Str) (i : Inum) : Prop where
  graph : ∃ g' p parentInode name s', s.walkPath path = .ok (⟨none, name, some (p, parentInode)⟩, s') ∧
    Consistent t g' ∧ g.Keeps g' (fun _ _ => False) ∧ (name, i) ∈ g'.children p

/-- A creation is refused and keeps the tree, or has entered its path. -/
theorem Consistent.create (h : Consistent s g) {isFile : Bool} {pick : Nat}
    (hrun : s.create path isFile pick = .ok (rc, t)) :
    (rc = -1 ∧ Consistent t g) ∨
      rc = 0 ∧ (Unmarked path → ∃ i, s.inodeMap i = none ∧ Entered s t g path i) := by
  rcases create_cases hrun with ⟨hrc, e, rfl⟩ | ⟨hrc, s', p, i, parentInode, name, k, size, entries,
    hplan, rfl⟩
  · exact Or.inl ⟨hrc, h.errors e⟩
  · refine Or.inr ⟨hrc, fun hpath => ⟨i, hplan.free, ?_⟩⟩
    have hwalk := hplan.walk
    obtain ⟨e, rfl⟩ := hplan.frame
    obtain ⟨addrs, blocks, henter⟩ := h.entering hpath hwalk hplan.slot
    have hfree := h.represents.kind_none_iff.mpr hplan.free
    have hcheckpoint := h.represents.checkpoint
    cases isFile with
    | true =>
      rw [createWrites_file]
      exact ⟨g.addFile p name i, p, parentInode, name, _, hwalk,
        henter.file h hfree (settled (hcheckpoint.append _) _) rfl rfl h.inMemory,
        LinkGraph.keeps_addFile hfree, LinkGraph.mem_enter.mpr (Or.inl ⟨rfl, rfl⟩)⟩
    | false =>
      rw [createWrites_dir]
      exact ⟨g.addDir p name i, p, parentInode, name, _, hwalk,
        henter.dir h hfree (settled (hcheckpoint.append _) _) rfl rfl h.inMemory,
        LinkGraph.keeps_addDir hfree, LinkGraph.mem_enter.mpr (Or.inl ⟨rfl, rfl⟩)⟩

/-- `file_link` enters a file once more. -/
theorem Entering.link (h : Entering s g p i parentInode name k size entries addrs blocks)
    (hs : Consistent s g) {inode : Inode} (hread : s.getInodeFromInumber i = .ok inode)
    (htype : inode.type = .regular) (ht : Settled u t)
    (hu : u.disk = s.disk ++ [.dataDirectory entries,
      .inode (pointTo { parentInode with size := size } k s.disk.length),
      .inode { inode with refs := inode.refs + 1 }])
    (hmap : u.inodeMap = Function.update (Function.update s.inodeMap p (some (s.disk.length + 1))) i
      (some (s.disk.length + 2)))
    (hmem : u.useDiskCr = false) : Consistent t (g.addLink p name i) := by
  have hdisk : Extends s.disk t.disk := Extends.trans (hu ▸ extends_append _ _) ht.extend
  have hnode := hs.represents.inodeAt hs.inMemory hread
  have hi : g.kind i = some .file := by rw [hnode.kind, kind_eq_file.mpr htype]
  have hne := h.ne (by simp [hi])
  refine ⟨ht.useDiskCr.trans hmem, hs.represents.remap (p := p) (i := i) hdisk ht.checkpoint ?_ ?_ ?_,
    hs.wellLinked.addLink h.parent.kind hi h.fresh⟩
  · intro j hjp hji
    rw [ht.inodeMap, hmap, Function.update_of_ne hji, Function.update_of_ne hjp]
    exact ⟨rfl, sameNode_addLink hjp hji⟩
  · -- the directory
    rw [ht.inodeMap, hmap, Function.update_of_ne hne.symm, Function.update_self]
    refine ⟨_, ht.get (k := 1) hu rfl (by simp), ?_, ?_, fun _ => ?_⟩
    · rw [LinkGraph.addLink, h.parent.kind]
      exact congrArg some (kind_eq_dir.mpr h.parent.type).symm
    · exact (Function.update_of_ne hne.symm ..).trans h.parent.refs
    · exact h.parent.add h.slot h.valid hdisk (ht.get hu (k := 0) rfl (by simp)) rfl
        (Function.update_self ..)
  · -- the file
    rw [ht.inodeMap, hmap, Function.update_self]
    refine ⟨_, ht.get (k := 2) hu rfl (by simp), hnode.kind, ?_, ?_⟩
    · show Function.update g.refs i (g.refs i + 1) i = inode.refs + 1
      rw [Function.update_self, hnode.refs]
    · intro hdir
      have heq := hdir.symm.trans htype
      cases heq

/-- A link is refused and keeps the tree, or has entered its destination as the source's number. -/
theorem Consistent.link (h : Consistent s g) {srcpath dstpath : Str}
    (hrun : s.fileLink srcpath dstpath = .ok (rc, t)) :
    (rc = -1 ∧ Consistent t g) ∨
      rc = 0 ∧ (Unmarked dstpath → ∃ i w s₁, s.errorClear.walkPath srcpath = .ok (w, s₁) ∧
        w.inodeNumber = some i ∧ Entered s₁ t g dstpath i) := by
  rcases fileLink_cases hrun with ⟨hrc, e, rfl⟩ | ⟨hrc, s', i, p, inode, parentInode, name, k, size,
    entries, hplan, rfl⟩
  · exact Or.inl ⟨hrc, h.errors e⟩
  · refine Or.inr ⟨hrc, fun hpath => ?_⟩
    obtain ⟨w, s₁, hsrc, hi, hdst⟩ := hplan.src
    refine ⟨i, w, s₁, hsrc, hi, ?_⟩
    obtain ⟨e, rfl⟩ := walkPath_frame hsrc
    have hwalk := hdst
    obtain ⟨e', rfl⟩ := walkPath_frame hdst
    obtain ⟨addrs, blocks, henter⟩ := (h.errors e).entering hpath hdst hplan.slot
    rw [linkWrites_eq]
    exact ⟨g.addLink p name i, p, parentInode, name, _, hwalk,
      henter.link (h.errors e) hplan.read hplan.type
        (settled (h.represents.checkpoint.append _) _) rfl rfl h.inMemory,
      LinkGraph.keeps_addLink, LinkGraph.mem_enter.mpr (Or.inl ⟨rfl, rfl⟩)⟩

end Enter

section Write

variable {inode : Inode}

theorem SameNode.refl (g : LinkGraph Inum Str) (i : Inum) : SameNode g g i := ⟨rfl, rfl, rfl, rfl⟩

/-- A file is logged again: the tree is the same. -/
theorem Consistent.rewrite (h : Consistent s g) {newInode : Inode} {data : List Block}
    (hread : s.getInodeFromInumber i = .ok inode) (htype : inode.type = .regular)
    (hnew : newInode.type = inode.type ∧ newInode.refs = inode.refs) (ht : Settled u t)
    (hu : u.disk = s.disk ++ (data ++ [.inode newInode]))
    (hmap : u.inodeMap = Function.update s.inodeMap i (some (s.disk ++ data).length))
    (hmem : u.useDiskCr = false) : Consistent t g := by
  have hdisk : Extends s.disk t.disk := Extends.trans (hu ▸ extends_append _ _) ht.extend
  have hnode := h.represents.inodeAt h.inMemory hread
  have hfile : NodeAt t.disk g i (t.inodeMap i) := by
    rw [ht.inodeMap, hmap, Function.update_self, List.length_append]
    refine ⟨newInode, ht.get (k := data.length) hu (by simp) (by simp), ?_, ?_, ?_⟩
    · rw [hnode.kind, hnew.1]
    · rw [hnode.refs, hnew.2]
    · intro hdir
      have heq := (hnew.1.symm.trans hdir).symm.trans htype
      cases heq
  refine ⟨ht.useDiskCr.trans hmem, h.represents.remap (p := i) hdisk ht.checkpoint ?_ hfile hfile,
    h.wellLinked⟩
  intro j hj _
  rw [ht.inodeMap, hmap, Function.update_of_ne hj]
  exact ⟨rfl, .refl g j⟩

/-- A write never changes the tree. -/
theorem Consistent.write (h : Consistent s g) {offset numBlks : Int} {draw : Nat → Char}
    (hrun : s.fileWrite path offset numBlks draw = .ok (rc, t)) : Consistent t g := by
  rcases fileWrite_cases hrun with ⟨_, e, rfl⟩ | ⟨s', i, inode, hplan, _, written, _, hwrites⟩
  · exact h.errors e
  · obtain ⟨e, rfl⟩ := hplan.frame
    rw [fileWrites_eq _ i inode _ _ rfl] at hwrites
    obtain ⟨_, rfl⟩ := Prod.mk.inj hwrites
    exact (h.errors e).rewrite hplan.read hplan.type (writtenInode_same ..)
      (settled (h.represents.checkpoint.append _) _) rfl rfl h.inMemory

end Write

section Delete

variable {inode parentInode : Inode} {name : Str} {k slot : Nat} {entries : List Slot}

/-- What `file_delete` knows when it writes. -/
structure Removing (s : LFS) (g : LinkGraph Inum Str) (p i : Inum) (inode parentInode : Inode)
    (name : Str) (k slot : Nat) (entries : List Slot) (addrs : List Nat)
    (blocks : List (List Slot)) : Prop where
  parent : DirAt s g p parentInode addrs blocks
  file : InodeAt s.disk g i inode
  type : inode.type = .regular
  found : lookupLoop s.disk name parentInode.pointers = .ok (some i)
  slot : findMatchingDirSlot s.disk name parentInode = .ok (some (k, slot))
  entries : readDirblock s.disk parentInode k = .ok entries

/-- A plan to delete has found the file and its entry. -/
theorem Consistent.removing (h : Consistent s g) {s' : LFS}
    (hplan : DeletePlan s path s' i p inode parentInode name k slot entries) :
    ∃ addrs blocks, Removing s g p i inode parentInode name k slot entries addrs blocks := by
  obtain ⟨hread, htype, hlookup, _⟩ := walkPath_parent hplan.walk
  obtain ⟨addrs, blocks, hdir⟩ := h.dirAt hread htype
  exact ⟨addrs, blocks, hdir, h.represents.inodeAt h.inMemory hplan.read, hplan.type, hlookup,
    hplan.slot, hplan.entries⟩

variable {addrs : List Nat} {blocks : List (List Slot)}

theorem Removing.kind (h : Removing s g p i inode parentInode name k slot entries addrs blocks) :
    g.kind i = some .file := by
  rw [h.file.kind, kind_eq_file.mpr h.type]

theorem Removing.ne (h : Removing s g p i inode parentInode name k slot entries addrs blocks) :
    i ≠ p :=
  (LinkGraph.ne_of_kind h.parent.kind (by simp [h.kind])).symm

/-- The directory is logged without the entry; what is left of the file is `hfile`. -/
theorem Removing.unlink (h : Removing s g p i inode parentInode name k slot entries addrs blocks)
    (hs : Consistent s g) (ht : Settled u t) {l : List Block}
    (hu : u.disk = s.disk ++ (.dataDirectory (entries.set slot freeSlot) ::
      .inode (pointTo parentInode k s.disk.length) :: l))
    (hmapp : u.inodeMap p = some (s.disk.length + 1))
    (hother : ∀ j, j ≠ p → j ≠ i → u.inodeMap j = s.inodeMap j)
    (hfile : ∀ rest, NodeAt u.disk (g.unlink p i rest) i (u.inodeMap i))
    (hmem : u.useDiskCr = false) :
    ∃ rest, g.children p = (name, i) ::ₘ rest ∧ Consistent t (g.unlink p i rest) := by
  have hdisk : Extends s.disk t.disk := Extends.trans (hu ▸ extends_append _ _) ht.extend
  obtain ⟨rest, addrs', blocks', hrest, hblocks, hslots⟩ := h.parent.remove hs h.kind h.found h.slot
    h.entries hdisk (ht.get (k := 0) hu rfl (by simp))
  refine ⟨rest, hrest, ht.useDiskCr.trans hmem,
    hs.represents.remap (p := p) (i := i) hdisk ht.checkpoint ?_ ?_ ?_,
    hs.wellLinked.unlink h.kind hrest⟩
  · intro j hjp hji
    rw [ht.inodeMap]
    exact ⟨hother j hjp hji, sameNode_unlink hjp hji rest⟩
  · -- the directory
    rw [ht.inodeMap, hmapp]
    refine ⟨_, ht.get (k := 1) hu rfl (by simp), ?_, ?_, fun _ => ?_⟩
    · rw [LinkGraph.unlink_kind_of_ne h.ne.symm, h.parent.kind]
      exact congrArg some (kind_eq_dir.mpr h.parent.type).symm
    · exact (Function.update_of_ne h.ne.symm ..).trans h.parent.refs
    · exact ⟨addrs', blocks', hblocks, hslots rfl (Function.update_self ..)⟩
  · rw [ht.inodeMap]
    exact (hfile rest).keep ht.extend (.refl _ i)

/-- A file has as many links as its inode says, so it loses the last link when `refs` is 1. -/
theorem Removing.refs_pos
    (h : Removing s g p i inode parentInode name k slot entries addrs blocks)
    (hs : Consistent s g) : 1 ≤ inode.refs := by
  have hrefs := hs.wellLinked.file_refs i h.kind
  have hpos := hs.wellLinked.file_linked i h.kind
  rw [h.file.refs] at hrefs
  omega

/-- `file_delete` unlinks the file its path leads to. -/
theorem Consistent.delete_unlinks (h : Consistent s g)
    (hrun : s.fileDelete path = .ok (rc, t)) :
    (rc = -1 ∧ Consistent t g) ∨
      rc = 0 ∧ ∃ i p parentInode name s', s.errorClear.walkPath path =
          .ok (⟨some i, name, some (p, parentInode)⟩, s') ∧ g.kind i = some .file ∧
        ∃ rest, g.children p = (name, i) ::ₘ rest ∧ Consistent t (g.unlink p i rest) := by
  rcases fileDelete_cases hrun with ⟨hrc, e, rfl⟩ | ⟨hrc, s', i, p, inode, parentInode, name, k, slot,
    entries, hplan, rfl⟩
  · exact Or.inl ⟨hrc, h.errors e⟩
  · obtain ⟨addrs, blocks, hremove⟩ := h.removing hplan
    refine Or.inr ⟨hrc, i, p, parentInode, name, s', hplan.walk, hremove.kind, ?_⟩
    obtain ⟨e, rfl⟩ := hplan.frame
    have hpos := hremove.refs_pos h
    have hne := hremove.ne
    by_cases hlast : inode.refs = 1
    · -- the inode number is freed
      rw [unlinked, if_pos hlast, deleteWrites_last _ i p (by omega)]
      refine hremove.unlink h (settled (h.represents.checkpoint.append _) _) (l := []) rfl ?_ ?_ ?_
        h.inMemory
      · exact Function.update_self ..
      · intro j hjp hji
        exact (Function.update_of_ne hjp ..).trans (Function.update_of_ne hji ..)
      · intro rest
        -- The write of the parent comes last and concerns another number.
        have hfree : Function.update (Function.update s.inodeMap i none) p
            (some (s.disk.length + 1)) i = none := by
          rw [Function.update_of_ne hne, Function.update_self]
        show NodeAt _ _ i (Function.update (Function.update s.inodeMap i none) p _ i)
        rw [hfree]
        show (g.unlink p i rest).kind i = none
        rw [LinkGraph.unlink, if_pos (hremove.file.refs.trans hlast)]
        exact Function.update_self ..
    · -- the file is logged with one link less
      rw [unlinked, if_neg hlast, deleteWrites_more _ i p (by omega)]
      refine hremove.unlink h (settled (h.represents.checkpoint.append _) _)
        (l := [.inode { inode with refs := inode.refs - 1 }]) rfl ?_ ?_ ?_ h.inMemory
      · exact (Function.update_of_ne hne.symm ..).trans (Function.update_self ..)
      · intro j hjp hji
        exact (Function.update_of_ne hji ..).trans (Function.update_of_ne hjp ..)
      · intro rest
        show NodeAt _ _ i (Function.update (Function.update s.inodeMap p _) i
          (some (s.disk.length + 2)) i)
        rw [Function.update_self]
        refine ⟨{ inode with refs := inode.refs - 1 }, by simp, ?_, ?_, ?_⟩
        · rw [LinkGraph.unlink, if_neg (hremove.file.refs.trans_ne hlast)]
          exact hremove.file.kind
        · show Function.update g.refs i (g.refs i - 1) i = inode.refs - 1
          rw [Function.update_self, hremove.file.refs]
        -- The type is kept, and it is not that of a directory.
        · intro hdir
          have heq := hdir.symm.trans hremove.type
          cases heq

/-- `file_delete` removes the entry its path leads to, and no other. -/
theorem Consistent.delete (h : Consistent s g) (hrun : s.fileDelete path = .ok (rc, t)) :
    (rc = -1 ∧ Consistent t g) ∨
      rc = 0 ∧ ∃ i p parentInode name s', s.errorClear.walkPath path =
          .ok (⟨some i, name, some (p, parentInode)⟩, s') ∧
        ∃ g', Consistent t g' ∧ g.Keeps g' fun d e => d = p ∧ e = (name, i) := by
  rcases h.delete_unlinks hrun with hrefused | ⟨hrc, i, p, parentInode, name, s', hwalk, hkind, rest,
    hrest, ht⟩
  · exact Or.inl hrefused
  · exact Or.inr ⟨hrc, i, p, parentInode, name, s', hwalk, g.unlink p i rest, ht,
      LinkGraph.keeps_unlink hkind hrest⟩

end Delete

/-! ## Runs -/

/-- No path of the operation has the marker as a component. -/
def Op.NoMarker : Op → Prop
  | .fileCreate path _ => Lfs.NoMarker path
  | .dirCreate path _ => Lfs.NoMarker path
  | .fileLink srcpath dstpath => Lfs.NoMarker srcpath ∧ Lfs.NoMarker dstpath
  | .fileWrite path _ _ _ => Lfs.NoMarker path
  | .fileDelete path => Lfs.NoMarker path
  | .sync => True

instance : DecidablePred Op.NoMarker
  | .fileCreate path _ => inferInstanceAs (Decidable (Lfs.NoMarker path))
  | .dirCreate path _ => inferInstanceAs (Decidable (Lfs.NoMarker path))
  | .fileLink srcpath dstpath =>
    inferInstanceAs (Decidable (Lfs.NoMarker srcpath ∧ Lfs.NoMarker dstpath))
  | .fileWrite path _ _ _ => inferInstanceAs (Decidable (Lfs.NoMarker path))
  | .fileDelete path => inferInstanceAs (Decidable (Lfs.NoMarker path))
  | .sync => inferInstanceAs (Decidable True)

/-- A successful operation that enters a name does not enter the marker. -/
def Op.Unmarked (rc : Int) : Op → Prop
  | .fileCreate path _ => rc = 0 → Lfs.Unmarked path
  | .dirCreate path _ => rc = 0 → Lfs.Unmarked path
  | .fileLink _ dstpath => rc = 0 → Lfs.Unmarked dstpath
  | _ => True

theorem Op.NoMarker.unmarked {op : Op} (h : op.NoMarker) (rc : Int) : op.Unmarked rc := by
  cases op with
  | fileCreate path pick => exact fun _ => Lfs.NoMarker.unmarked h
  | dirCreate path pick => exact fun _ => Lfs.NoMarker.unmarked h
  | fileLink srcpath dstpath => exact fun _ => Lfs.NoMarker.unmarked h.2
  | fileWrite path offset numBlks draw => trivial
  | fileDelete path => trivial
  | sync => trivial

/-- A successful `file_delete` removes the entry `e` of directory `d`. -/
def Op.Removes (s : LFS) (rc : Int) (d : Inum) (e : Str × Inum) : Op → Prop
  | .fileDelete path => rc = 0 ∧ ∃ parentInode s', s.errorClear.walkPath path =
      .ok (⟨some e.2, e.1, some (d, parentInode)⟩, s')
  | _ => False

/-- A refused operation, or one that logs a file again, loses nothing. -/
theorem Consistent.unchanged (h : Consistent t g) {lost : Inum → Str × Inum → Prop}
    (hlost : ∀ d e, ¬ lost d e) : ∃ g', Consistent t g' ∧ g.Keeps g' lost :=
  ⟨g, h, (LinkGraph.Keeps.refl g).mono (fun _ _ hfalse => hfalse.elim)
    fun d e he => absurd he (hlost d e)⟩

/-- An operation that enters loses nothing. -/
theorem Entered.run (h : Entered s t g path i) {lost : Inum → Str × Inum → Prop}
    (hlost : ∀ d e, ¬ lost d e) : ∃ g', Consistent t g' ∧ g.Keeps g' lost := by
  obtain ⟨g', _, _, _, _, _, ht, hkeeps, _⟩ := h.graph
  exact ⟨g', ht, hkeeps.mono (fun _ _ hfalse => hfalse.elim) fun d e he => absurd he (hlost d e)⟩

/-- `sync` writes the checkpoint region only. -/
theorem Consistent.sync (h : Consistent s g) : Consistent s.sync.2 g := by
  have hcheckpoint := h.represents.checkpoint
  have hdisk := extends_set_checkpoint hcheckpoint s.cr
  exact ⟨h.inMemory,
    ⟨hcheckpoint.set _, fun i => (h.represents.node i).keep hdisk (.refl g i)⟩, h.wellLinked⟩

/-- Every operation keeps the tree consistent and loses only what it removes. -/
theorem Consistent.run (h : Consistent s g) {op : Op} (hop : op.Unmarked rc)
    (hrun : op.run s = .ok (rc, t)) :
    ∃ g', Consistent t g' ∧ g.Keeps g' fun d e => op.Removes s rc d e := by
  cases op with
  | fileCreate path pick =>
    rcases (h.errors []).create hrun with ⟨_, ht⟩ | ⟨hrc, hent⟩
    · exact ht.unchanged fun _ _ hfalse => hfalse
    · obtain ⟨i, _, hent⟩ := hent (hop hrc)
      exact hent.run fun _ _ hfalse => hfalse
  | dirCreate path pick =>
    rcases (h.errors []).create hrun with ⟨_, ht⟩ | ⟨hrc, hent⟩
    · exact ht.unchanged fun _ _ hfalse => hfalse
    · obtain ⟨i, _, hent⟩ := hent (hop hrc)
      exact hent.run fun _ _ hfalse => hfalse
  | fileLink srcpath dstpath =>
    rcases h.link hrun with ⟨_, ht⟩ | ⟨hrc, hent⟩
    · exact ht.unchanged fun _ _ hfalse => hfalse
    · obtain ⟨i, _, _, _, _, hent⟩ := hent (hop hrc)
      exact hent.run fun _ _ hfalse => hfalse
  | fileWrite path offset numBlks draw => exact (h.write hrun).unchanged fun _ _ hfalse => hfalse
  | fileDelete path =>
    rcases h.delete hrun with ⟨hrc, ht⟩ | ⟨hrc, i, p, parentInode, name, s', hwalk, g', ht, hkeeps⟩
    · refine ht.unchanged fun _ _ hremoves => ?_
      have hzero := hremoves.1
      omega
    · refine ⟨g', ht, hkeeps.mono ?_ ?_⟩
      · rintro d e ⟨rfl, rfl⟩
        exact ⟨hrc, parentInode, s', hwalk⟩
      · -- the path leads to one entry only
        rintro d e ⟨_, parentInode', s'', hwalk'⟩
        have hsame := Except.ok.inj (hwalk.symm.trans hwalk')
        obtain ⟨hi, _, hparent⟩ : i = e.2 ∧ name = e.1 ∧ p = d := by
          injection hsame with hsame _
          injection hsame with hi hname hparent
          exact ⟨Option.some.inj hi, hname, congrArg Prod.fst (Option.some.inj hparent)⟩
        exact hi ▸ hkeeps.file p (name, i) ⟨rfl, rfl⟩
  | sync =>
    obtain ⟨_, rfl⟩ := Prod.mk.inj (Except.ok.inj hrun)
    exact h.sync.unchanged fun _ _ hfalse => hfalse

/-- The fresh file system is a root directory. -/
theorem consistent_new (noForceCheckpoints : Bool) (inodePolicy : InodePolicy) :
    Consistent (LFS.new false noForceCheckpoints inodePolicy) (.single ROOT_INODE) := by
  refine ⟨rfl, ⟨⟨_, rfl⟩, fun i => ?_⟩, LinkGraph.single_wellLinked (Finset.mem_univ _)⟩
  by_cases hroot : i = ROOT_INODE
  · subst hroot
    have hblock : (LFS.new false noForceCheckpoints inodePolicy).disk[1]? =
        some (makeNewDirblock ROOT_INODE ROOT_INODE) := rfl
    have hblocks := newDir_blocks hblock
    refine ⟨_, rfl, LinkGraph.single_kind_root _, rfl, fun _ => ⟨_, _, hblocks,
      List.replicate 6 freeSlot, rfl, ?_, rfl⟩⟩
    exact fun e he => Or.inl (List.eq_of_mem_replicate he)
  · have hmap : (LFS.new false noForceCheckpoints inodePolicy).inodeMap i = none :=
      Function.update_of_ne hroot ..
    rw [hmap]
    exact LinkGraph.single_kind_of_ne hroot

/-- The runs without the marker. -/
def namedRuns (noForceCheckpoints : Bool) (inodePolicy : InodePolicy) : Lts LFS (Op × Int) :=
  (fileSystem false noForceCheckpoints inodePolicy).restrict fun _ a => a.1.NoMarker

end Operations

end OsLab.Lfs
