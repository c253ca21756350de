import OsLab.Vsfs.Names

/-!
# The calls of VSFS

Each call, made from a consistent state, ends without a failed assertion and leaves a store that
represents the graph the call is meant to leave.

* **`Consistent`**, **`IsDir`**, **`IsFile`** -- the invariant, and what is known of a directory or
  file that is drawn.
* **`createdFile`**, **`createdDir`**, **`linked`**, **`written`**, **`deleted`** -- the states that
  the calls leave; each has a `_spec` about storage and graph.
* **`createFile_cases`**, **`createLink_cases`**, **`writeFile_cases`** -- a call leaves the state
  as it is, or one of these.
* **`dropLink_last`**, **`deleteFile_unlinks`** -- the last link frees the inode and its block; then
  the entry goes.
-/

namespace OsLab.Vsfs

/-! ## Single updates -/

section Updates

variable {s : Fs} {i b : Nat} {inode : Inode} {block block' : Block} {n : Str}

theorem lookupName_ok (h : s.nameToInum n = some i) : s.lookupName n = .ok i := by
  simp [Fs.lookupName, h]

theorem updateInode_ok (h : s.inodes[i]? = some inode) (f : Inode → Inode) :
    s.updateInode i f = .ok { s with inodes := s.inodes.set i (f inode) } := by
  have hget := index_some_eq_ok.mpr h
  simp only [Fs.updateInode, hget, bind, Except.bind]
  rfl

theorem updateBlock_ok (h : s.data[b]? = some block) {f : Block → Except Abort Block}
    (hf : f block = .ok block') :
    s.updateBlock (some b) f = .ok { s with data := s.data.set b block' } := by
  have hget := index_some_eq_ok.mpr h
  simp only [Fs.updateBlock, hget, hf, bind, Except.bind]
  rfl

/-- `addDirEntry`'s result. -/
def Block.appendEntry (block : Block) (name : Str) (inum : Nat) : Block :=
  { block with dirList := block.dirList ++ [(name, inum)], dirUsed := block.dirUsed + 1 }

/-- An entry is added to a directory's block with room for it, and the block counts it. -/
theorem addDirEntry_ok (htype : block.ftype = .d) (hroom : block.dirUsed < block.maxUsed) :
    block.addDirEntry n i = .ok (block.appendEntry n i) := by
  have hle : block.dirUsed + 1 ≤ block.maxUsed := hroom
  simp only [Block.addDirEntry, Block.appendEntry, htype, decide_true, assert_true, hle, bind,
    Except.bind]
  rfl

theorem getFreeEntries_ok (htype : block.ftype = .d) :
    block.getFreeEntries = .ok ((block.maxUsed : Int) - block.dirUsed) := by
  simp only [Block.getFreeEntries, htype, decide_true, assert_true, bind, Except.bind]
  rfl

theorem dirEntryExists_ok (htype : block.ftype = .d) :
    block.dirEntryExists n = .ok (block.dirList.any (n = ·.1)) := by
  simp only [Block.dirEntryExists, htype, decide_true, assert_true, bind, Except.bind]
  rfl

/-- The block of a new directory. -/
def newDirBlock (block : Block) (inum parent : Nat) : Block :=
  { block with
    ftype := .d, dirList := [(dotName, inum), (dotDotName, parent)], dirUsed := 2 }

/-- A free block becomes the block of a directory, with `.` and `..` entered. -/
theorem newDirBlock_ok (hwf : block.WellFormed) (hfree : block.ftype = .free) (inum parent : Nat) :
    (do
      let b ← block.setType .d
      let b ← b.addDirEntry ['.'] inum
      b.addDirEntry ['.', '.'] parent) = .ok (newDirBlock block inum parent) := by
  obtain ⟨hmax, hused, _, hblank⟩ := hwf
  have hlist : block.dirList = [] := hblank (by simp [hfree])
  rw [hlist] at hused
  simp [Block.setType, Block.addDirEntry, newDirBlock, dotName, dotDotName, hfree, hlist, hused,
    hmax, bind, Except.bind, pure, Except.pure]

/-- The block of a file with its first data. -/
def newDataBlock (block : Block) (data : Str) : Block := { block with ftype := .f, data := data }

/-- A free block becomes a file's, with its data. -/
theorem newDataBlock_ok (hfree : block.ftype = .free) (data : Str) :
    (do
      let b ← block.setType .f
      b.addData data) = .ok (newDataBlock block data) := by
  simp only [Block.setType, Block.addData, hfree, decide_true, assert_true, bind, Except.bind,
    pure, Except.pure]
  rfl

/-- A file's block is free again, without its data. -/
theorem blockFree_ok (hfile : block.ftype = .f) :
    block.free = .ok { block with data := [], ftype := .free } := by
  simp only [Block.free, hfile, bind, Except.bind]
  rfl

end Updates

/-! ## Directory entries -/

section Entries

variable {v : Store} {g : LinkGraph Nat Str} {d b i : Nat} {inode : Inode} {block : Block}
  {n : Str}

/-- The name is in the directory exactly if it is `.`, `..` or a child's. -/
theorem not_exists_iff (h : DirBlock g d block) :
    (block.dirList.any (n = ·.1)) = false ↔
      (n ≠ dotName ∧ n ≠ dotDotName) ∧ ∀ e ∈ g.children d, e.1 ≠ n := by
  obtain ⟨kids, hlist, hchildren, _⟩ := h.entries
  rw [hlist, hchildren, List.any_eq_false]
  simp only [List.forall_mem_cons, decide_eq_true_eq, Multiset.mem_coe]
  constructor
  · rintro ⟨hdot, hdotdot, hkids⟩
    exact ⟨⟨hdot, hdotdot⟩, fun e he heq => hkids e he heq.symm⟩
  · rintro ⟨⟨hdot, hdotdot⟩, hkids⟩
    exact ⟨hdot, hdotdot, fun e he heq => hkids e he heq.symm⟩

/-- An entry that is appended to a directory's block is one child more in the graph. -/
theorem appendEntry (hs : Storage v) (hr : Represents v g) (hd : v.inodes[d]? = some inode)
    (haddr : inode.addr = some b) (hb : v.data[b]? = some block) (hdir : DirBlock g d block)
    (hroom : block.dirUsed < 32) (hfree : block.dirList.any (n = ·.1) = false) :
    Storage { v with data := v.data.set b (block.appendEntry n i) } ∧
      Represents { v with data := v.data.set b (block.appendEntry n i) }
        { g with children := g.enter d n i } := by
  obtain ⟨hmax, hused, _, _⟩ := hs.block b block hb
  obtain ⟨⟨hdot, hdotdot⟩, _⟩ := (not_exists_iff hdir).mp hfree
  obtain ⟨kids, hlist, hchildren, hkids⟩ := hdir.entries
  have henter : Function.update g.children d ↑(kids ++ [(n, i)]) = g.enter d n i := by
    rw [LinkGraph.enter, hchildren, Multiset.cons_coe]
    congr 1
    exact Multiset.coe_eq_coe.mpr List.perm_append_comm
  constructor
  · have hwf : (block.appendEntry n i).WellFormed :=
      ⟨hmax, by simp [Block.appendEntry, hused], hroom, fun hne => absurd hdir.ftype hne⟩
    exact hs.setBlock hb rfl hwf
  · rw [← henter]
    have hlist' : (block.appendEntry n i).dirList =
        (dotName, d) :: (dotDotName, g.parent d) :: (kids ++ [(n, i)]) := by
      simp [Block.appendEntry, hlist]
    refine hr.setEntries hs hd haddr hb hdir.ftype hlist' ?_
    rw [List.forall_mem_append]
    exact ⟨hkids, by simpa using ⟨hdot, hdotdot⟩⟩

/-- `delDirEntry`'s result. -/
def Block.removeEntry (block : Block) (name : Str) : Block :=
  { block with
    dirList := block.dirList.eraseP (·.1 = name), dirUsed := block.dirUsed - 1 }

/-- `delDirEntry` finds the entry by the last part of the full name, and takes it out. -/
theorem delDirEntry_ok (htype : block.ftype = .d) {cs : List Str} (hcs : ∀ c ∈ cs, ValidName c)
    (hn : ValidName n) {e : Str × Nat} (he : e ∈ block.dirList) (hen : e.1 = n) :
    block.delDirEntry (Fs.fullName (dirPath cs) n) = .ok (block.removeEntry n) := by
  have hsplit := split_render (validName_snoc hcs hn)
  rw [← fullName_dirPath hcs] at hsplit
  have hlast : index ([] :: (cs ++ [n])) (some (([] :: (cs ++ [n])).length - 1)) = .ok n := by
    simp [index_some_eq_ok]
  have hfind : ∃ k, block.dirList.findIdx? (·.1 = n) = some k := by
    rw [← Option.isSome_iff_exists, List.findIdx?_isSome, List.any_eq_true]
    exact ⟨e, he, by simpa using hen⟩
  obtain ⟨k, hk⟩ := hfind
  have herase : block.dirList.eraseP (·.1 = n) = block.dirList.eraseIdx k := by
    rw [List.eraseP_eq_eraseIdx, hk]
  simp only [Block.delDirEntry, htype, decide_true, assert_true, hsplit, hlast, hk, bind,
    Except.bind, Block.removeEntry, herase]
  rfl

/-- An entry that is taken out of a directory's block is one child less in the graph. -/
theorem removeEntry (hs : Storage v) (hr : Represents v g) (hd : v.inodes[d]? = some inode)
    (haddr : inode.addr = some b) (hb : v.data[b]? = some block) (hdir : DirBlock g d block)
    (hnames : ((g.children d).map Prod.fst).Nodup) (hmem : (n, i) ∈ g.children d) :
    ∃ rest, g.children d = (n, i) ::ₘ rest ∧
      Storage { v with data := v.data.set b (block.removeEntry n) } ∧
      Represents { v with data := v.data.set b (block.removeEntry n) }
        { g with children := Function.update g.children d rest } := by
  obtain ⟨hmax, hused, hle, _⟩ := hs.block b block hb
  obtain ⟨kids, hlist, hchildren, hkids⟩ := hdir.entries
  rw [hchildren] at hmem hnames
  obtain ⟨hdot, hdotdot⟩ := hkids _ (Multiset.mem_coe.mp hmem)
  obtain ⟨e, l₁, l₂, _, hen, hsplit, herase⟩ :=
    List.exists_of_eraseP (p := (fun e : Str × Nat => decide (e.1 = n))) hmem (by simp)
  -- names are distinct, so the entry that goes is the file's
  obtain rfl : e = (n, i) := by
    have hnodup : (kids.map Prod.fst).Nodup := hnames
    refine List.inj_on_of_nodup_map hnodup ?_ hmem (by simpa using hen)
    simp [hsplit]
  have hkids' : ∀ e ∈ l₁ ++ l₂, e.1 ≠ dotName ∧ e.1 ≠ dotDotName := by
    intro e he
    apply hkids e
    rw [hsplit]
    rcases List.mem_append.mp he with he | he <;> simp [he]
  have hlist' : (block.removeEntry n).dirList =
      (dotName, d) :: (dotDotName, g.parent d) :: (l₁ ++ l₂) := by
    rw [Block.removeEntry, hlist, List.eraseP_cons_of_neg, List.eraseP_cons_of_neg, herase]
    · simpa using Ne.symm hdotdot
    · simpa using Ne.symm hdot
  refine ⟨↑(l₁ ++ l₂), ?_, ?_, ?_⟩
  · rw [hchildren, hsplit, Multiset.cons_coe]
    exact Multiset.coe_eq_coe.mpr List.perm_middle
  · have hlen : block.dirList.length = (l₁ ++ l₂).length + 3 := by
      simp only [hlist, hsplit, List.length_cons, List.length_append]
      omega
    refine hs.setBlock hb rfl ⟨hmax, ?_, ?_, fun hne => absurd hdir.ftype hne⟩
    · rw [hlist', Block.removeEntry]
      simp only [List.length_cons, hused, hlen]
      omega
    · show block.dirUsed - 1 ≤ 32
      omega
  · exact hr.setEntries hs hd haddr hb hdir.ftype hlist' hkids'

end Entries

/-! ## Consistent states -/

structure Consistent (s : Fs) (g : LinkGraph Nat Str) : Prop where
  storage : Storage s.toStore
  represents : Represents s.toStore g
  wellLinked : g.WellLinked (Finset.range s.numInodes) ROOT
  paths : Paths s g

/-- The directory `q`: its inode number, its inode and its block. -/
structure IsDir (s : Fs) (g : LinkGraph Nat Str) (q : Str) (d : Nat) (inode : Inode) (b : Nat)
    (block : Block) : Prop where
  name : s.nameToInum q = some d
  kind : g.kind d = some .dir
  inodes_eq : s.inodes[d]? = some inode
  addr : inode.addr = some b
  data_eq : s.data[b]? = some block
  dirBlock : DirBlock g d block

/-- Each listed directory has an inode number, an inode and a block of its own. -/
theorem Consistent.exists_isDir {s : Fs} {g : LinkGraph Nat Str} (h : Consistent s g) {q : Str}
    (hq : q ∈ s.dirs) : ∃ d inode b block, IsDir s g q d inode b block := by
  obtain ⟨d, hname, hkind, _⟩ := h.paths.dirs q hq
  obtain ⟨inode, b, block, hinode, _, haddr, hblock, hdir⟩ := h.represents.exists_dir hkind
  exact ⟨d, inode, b, block, hname, hkind, hinode, haddr, hblock, hdir⟩

section Create

variable {s : Fs} {g : LinkGraph Nat Str} {q n : Str} {d b i : Nat} {inode : Inode} {block : Block}

/-- An inode that `inodeAlloc` finds is free and has no address. -/
theorem Storage.free_inode {v : Store} (h : Storage v) (hi : i < v.numInodes)
    (hfree : ¬ v.InodeUsed i) :
    ∃ inode, v.inodes[i]? = some inode ∧ inode.ftype = .free ∧ inode.addr = none := by
  have hlt : i < v.inodes.length := h.inodes_length ▸ hi
  have hget := List.getElem?_eq_getElem hlt
  have htype : v.inodes[i].ftype = .free := by
    by_contra hne
    exact hfree ⟨_, hget, hne⟩
  exact ⟨_, hget, htype, h.free_addr i _ hget htype⟩

theorem Storage.free_block {v : Store} (h : Storage v) (hb : b < v.numData)
    (hfree : ¬ v.BlockUsed b) : ∃ block, v.data[b]? = some block ∧ block.ftype = .free := by
  have hlt : b < v.data.length := h.data_length ▸ hb
  have hget := List.getElem?_eq_getElem hlt
  refine ⟨_, hget, ?_⟩
  by_contra hne
  exact hfree ⟨_, hget, hne⟩

/-- The state after a successful `createFile` of a file. -/
def createdFile (s : Fs) (i b : Nat) (block : Block) (n : Str) : Fs :=
  { s with
    ibitmap := s.ibitmap.marked i
    inodes := s.inodes.set i ⟨.f, none, 1⟩
    data := s.data.set b (block.appendEntry n i) }

/-- The state after a successful `createFile` of a directory with block `fb`. -/
def createdDir (s : Fs) (i fb : Nat) (fblock : Block) (d : Nat) (inode : Inode) (b : Nat)
    (block : Block) (n : Str) : Fs :=
  { s with
    ibitmap := s.ibitmap.marked i
    inodes := (s.inodes.set i ⟨.d, some fb, 2⟩).set d inode.incRefCnt
    dbitmap := s.dbitmap.marked fb
    data := (s.data.set fb (newDirBlock fblock i d)).set b (block.appendEntry n i) }

theorem used_set_one {used : Nat → Prop} {j : Nat} :
    (if i = j then True else used j) ↔ (j = i ∨ used j) := by
  by_cases hij : i = j
  · simp [hij]
  · simp [hij, Ne.symm hij]

/-- A free inode is not the directory. -/
theorem IsDir.ne_of_unused (hdir : IsDir s g q d inode b block) (hr : Represents s.toStore g)
    (hunused : ¬ s.InodeUsed i) : i ≠ d := by
  rintro rfl
  have hkind := hr.kind i inode hdir.inodes_eq
  rw [hdir.kind] at hkind
  exact hunused ⟨inode, hdir.inodes_eq, by simp [kind_eq_dir.mp hkind.symm]⟩

/-- Nor is a free block the directory's. -/
theorem IsDir.block_ne (hdir : IsDir s g q d inode b block) {fb : Nat} {fblock : Block}
    (hfb : s.data[fb]? = some fblock) (hfree : fblock.ftype = .free) : fb ≠ b := by
  rintro rfl
  obtain rfl : fblock = block := Option.some.inj (hfb.symm.trans hdir.data_eq)
  rw [hdir.dirBlock.ftype] at hfree
  cases hfree

/-- A new file is one node and one entry more. -/
theorem createdFile_spec (h : Consistent s g) (hdir : IsDir s g q d inode b block)
    (hroom : block.dirUsed < 32) (hfree : block.dirList.any (n = ·.1) = false)
    (hi : i < s.numInodes) (hunused : ¬ s.InodeUsed i) :
    Storage (createdFile s i b block n).toStore ∧
      Represents (createdFile s i b block n).toStore (g.addFile d n i) := by
  obtain ⟨old, hget, htype, haddr⟩ := h.storage.free_inode hi hunused
  have hne := hdir.ne_of_unused h.represents hunused
  -- first the inode, then the entry
  have hs₁ : Storage { s.toStore with
      ibitmap := s.ibitmap.marked i
      inodes := s.inodes.set i ⟨.f, none, 1⟩ } := by
    apply h.storage.setInode hget haddr.symm (fun hsome => absurd haddr hsome)
    refine (h.storage.ibits.set_one hi hunused).congr fun j _ => ?_
    simpa using used_set_one
  have hr₁ : Represents { s.toStore with
      ibitmap := s.ibitmap.marked i
      inodes := s.inodes.set i ⟨.f, none, 1⟩ }
      { g with
        kind := Function.update g.kind i (some .file), refs := Function.update g.refs i 1 } :=
    h.represents.setInode hget (by simp) (fun _ => rfl) _
  have hd₁ : (s.inodes.set i ⟨.f, none, 1⟩)[d]? = some inode := by
    rw [List.getElem?_set_ne hne, hdir.inodes_eq]
  exact appendEntry hs₁ hr₁ hd₁ hdir.addr hdir.data_eq
    ⟨hdir.dirBlock.ftype, hdir.dirBlock.entries⟩ hroom hfree

/-- A new directory is one node and one entry more, and one link more of its parent. -/
theorem createdDir_spec (h : Consistent s g) (hdir : IsDir s g q d inode b block)
    (hroom : block.dirUsed < 32) (hfree : block.dirList.any (n = ·.1) = false)
    (hi : i < s.numInodes) (hunused : ¬ s.InodeUsed i) {fb : Nat} {fblock : Block}
    (hfb : s.data[fb]? = some fblock) (hfbfree : fblock.ftype = .free) :
    Storage (createdDir s i fb fblock d inode b block n).toStore ∧
      Represents (createdDir s i fb fblock d inode b block n).toStore (g.addDir d n i) := by
  obtain ⟨old, hget, htype, haddr⟩ := h.storage.free_inode hi hunused
  have hne := hdir.ne_of_unused h.represents hunused
  have hkind : g.kind i = none := by
    rw [h.represents.kind i old hget, htype]
    rfl
  have hbne := hdir.block_ne hfb hfbfree
  have hbunused : ¬ s.BlockUsed fb := fun hused => (blockUsed_iff hfb).mp hused hfbfree
  have hfblt := h.storage.block_lt hfb
  -- the inode and its block, the parent's count, the parent's entry
  have hs₁ : Storage { s.toStore with
      ibitmap := s.ibitmap.marked i
      inodes := s.inodes.set i ⟨.d, some fb, 2⟩
      dbitmap := s.dbitmap.marked fb
      data := s.data.set fb (newDirBlock fblock i d) } := by
    have hmax := (h.storage.block fb fblock hfb).maxUsed
    apply h.storage.setBoth hget hfb (Or.inl haddr) (fun hlive => absurd hfbfree hlive)
    · exact Or.inr ⟨rfl, rfl, by simp⟩
    · exact ⟨hmax, rfl, by simp [newDirBlock], fun hd => absurd rfl hd⟩
    · refine (h.storage.ibits.set_one hi hunused).congr fun j _ => ?_
      simpa using used_set_one
    · refine (h.storage.dbits.set_one hfblt hbunused).congr fun c _ => ?_
      simpa [newDirBlock] using used_set_one
  have hr₁ : Represents { s.toStore with
      ibitmap := s.ibitmap.marked i
      inodes := s.inodes.set i ⟨.d, some fb, 2⟩
      dbitmap := s.dbitmap.marked fb
      data := s.data.set fb (newDirBlock fblock i d) }
      { g with
        kind := Function.update g.kind i (some .dir)
        parent := Function.update g.parent i d, refs := Function.update g.refs i 2 } :=
    h.represents.newDir hget hfb hfbfree (h.wellLinked.source i (by simp [hkind])) rfl rfl _ _
  have hd₁ : (s.inodes.set i ⟨.d, some fb, 2⟩)[d]? = some inode := by
    rw [List.getElem?_set_ne hne, hdir.inodes_eq]
  have hs₂ := hs₁.setRefCnt hd₁ (inode.refCnt + 1)
  have hr₂ := hr₁.setRefCnt hd₁ (inode.refCnt + 1)
  have hd₂ : ((s.inodes.set i ⟨.d, some fb, 2⟩).set d inode.incRefCnt)[d]? =
      some inode.incRefCnt := by
    rw [getElem?_set_of_some hd₁, if_pos rfl]
  have hb₂ : (s.data.set fb (newDirBlock fblock i d))[b]? = some block := by
    rw [List.getElem?_set_ne hbne, hdir.data_eq]
  have hlive : inode.ftype ≠ .free := (h.storage.addr_used hdir.inodes_eq hdir.addr).1
  have hdir₂ : DirBlock { g with parent := Function.update g.parent i d } d block := by
    refine ⟨hdir.dirBlock.ftype, ?_⟩
    simpa [Function.update_of_ne hne.symm] using hdir.dirBlock.entries
  obtain ⟨hs₃, hr₃⟩ := appendEntry hs₂ hr₂ hd₂ hdir.addr hb₂
    ⟨hdir₂.ftype, hdir₂.entries⟩ hroom hfree
  refine ⟨hs₃, ?_⟩
  have hrefs : g.refs d = inode.refCnt := h.represents.refs d inode hdir.inodes_eq hlive
  rw [LinkGraph.addDir, hrefs]
  exact hr₃

/-- The directory has room and no entry of that name. -/
def CanEnter (block : Block) (n : Str) : Prop :=
  block.dirUsed < 32 ∧ block.dirList.any (n = ·.1) = false

/-- What `createFile` reads before it looks for an inode: the parent's inode and block, and whether
the name is there. -/
theorem IsDir.reads (h : Storage s.toStore) (hdir : IsDir s g q d inode b block) :
    s.lookupName q = .ok d ∧ index s.inodes (some d) = .ok inode ∧
      index s.data inode.addr = .ok block ∧
      block.getFreeEntries = .ok ((32 : Int) - block.dirUsed) ∧
      block.dirEntryExists n = .ok (block.dirList.any (n = ·.1)) := by
  refine ⟨lookupName_ok hdir.name, index_some_eq_ok.mpr hdir.inodes_eq, ?_, ?_,
    dirEntryExists_ok hdir.dirBlock.ftype⟩
  · rw [hdir.addr]
    exact index_some_eq_ok.mpr hdir.data_eq
  · rw [getFreeEntries_ok hdir.dirBlock.ftype, (h.block b block hdir.data_eq).maxUsed]
    rfl

theorem CanEnter.room (h : CanEnter block n) : ¬ ((32 : Int) - block.dirUsed ≤ 0) := by
  have := h.1
  omega

/-- Without room in the directory, or with the name there, `createFile` gives up before it takes
anything. -/
theorem createFile_full (h : Storage s.toStore) (hdir : IsDir s g q d inode b block)
    (hcan : ¬ CanEnter block n) (ftype : FType) : s.createFile q n ftype = .ok (none, s) := by
  obtain ⟨hname, hinode, hblock, hfree, hexists⟩ := hdir.reads (n := n) h
  by_cases hroom : (32 : Int) - block.dirUsed ≤ 0
  · simp only [Fs.createFile, hname, hinode, hblock, hfree, hroom, if_true, bind, Except.bind]
    rfl
  · have hdup : block.dirList.any (n = ·.1) = true := by
      cases hany : block.dirList.any (n = ·.1) with
      | true => rfl
      | false => exact absurd ⟨by omega, hany⟩ hcan
    simp only [Fs.createFile, hname, hinode, hblock, hfree, hroom, hexists, hdup, if_true, if_false,
      bind, Except.bind]
    rfl

/-- So it does without a free inode. -/
theorem createFile_noInode (h : Storage s.toStore) (hdir : IsDir s g q d inode b block)
    (hcan : CanEnter block n) (halloc : s.ibitmap.alloc = (none, s.ibitmap)) (ftype : FType) :
    s.createFile q n ftype = .ok (none, s) := by
  obtain ⟨hname, hinode, hblock, hfree, hexists⟩ := hdir.reads (n := n) h
  simp only [Fs.createFile, hname, hinode, hblock, hfree, hcan.room, hexists, hcan.2, if_false,
    Fs.inodeAlloc, halloc, bind, Except.bind]
  rfl

/-- The part of `createFile` after the inode is allocated, as a function of the block that it
finds. -/
theorem createFile_eq (h : Storage s.toStore) (hdir : IsDir s g q d inode b block)
    (hcan : CanEnter block n) (halloc : s.ibitmap.alloc = (some i, s.ibitmap.marked i))
    (ftype : FType) :
    s.createFile q n ftype = (do
      let (created, s) ← Fs.createBlock { s with ibitmap := s.ibitmap.marked i } ftype i d
      match created with
      | none => return (none, s)
      | some (fblock, refCnt) => do
        let s ← s.updateInode i fun _ => ⟨ftype, fblock, refCnt⟩
        let s ← if ftype = .d then s.updateInode d Inode.incRefCnt else pure s
        let s ← s.updateBlock (some b) (·.addDirEntry n i)
        return (some i, s)) := by
  obtain ⟨hname, hinode, hblock, hfree, hexists⟩ := hdir.reads (n := n) h
  rw [hdir.addr] at hblock
  simp only [Fs.createFile, hname, hinode, hdir.addr, hblock, hfree, hcan.room, hexists, hcan.2,
    if_false, Fs.inodeAlloc, bind, Except.bind, Bool.false_eq_true]
  -- the rest of `createFile` for the inode that `alloc` gives
  generalize s.ibitmap.alloc = found at halloc
  subst halloc
  rfl

/-- A new file gets no block, and is entered. -/
theorem createFile_file (h : Storage s.toStore) (hdir : IsDir s g q d inode b block)
    (hcan : CanEnter block n) (halloc : s.ibitmap.alloc = (some i, s.ibitmap.marked i))
    {old : Inode} (hold : s.inodes[i]? = some old) :
    s.createFile q n .f = .ok (some i, createdFile s i b block n) := by
  have hmax := (h.block b block hdir.data_eq).maxUsed
  have hinodes : Fs.updateInode { s with ibitmap := s.ibitmap.marked i } i
      (fun _ => ⟨.f, none, 1⟩) =
      .ok { s with
        ibitmap := s.ibitmap.marked i, inodes := s.inodes.set i ⟨.f, none, 1⟩ } := by
    apply updateInode_ok
    exact hold
  have hdata : Fs.updateBlock { s with
      ibitmap := s.ibitmap.marked i, inodes := s.inodes.set i ⟨.f, none, 1⟩ } (some b)
      (·.addDirEntry n i) = .ok (createdFile s i b block n) := by
    apply updateBlock_ok
    · exact hdir.data_eq
    · exact addDirEntry_ok hdir.dirBlock.ftype (hmax ▸ hcan.1)
  rw [createFile_eq h hdir hcan halloc]
  simp only [Fs.createBlock, hinodes, hdata, if_false, reduceCtorEq, bind, Except.bind, pure,
    Except.pure]

/-- A new directory gets its block, and is entered in its parent's. -/
theorem createFile_dir (h : Storage s.toStore) (hdir : IsDir s g q d inode b block)
    (hcan : CanEnter block n) (halloc : s.ibitmap.alloc = (some i, s.ibitmap.marked i))
    {old : Inode} (hold : s.inodes[i]? = some old) (hne : i ≠ d) {fb : Nat} {fblock : Block}
    (hballoc : s.dbitmap.alloc = (some fb, s.dbitmap.marked fb)) (hfb : s.data[fb]? = some fblock)
    (hfbfree : fblock.ftype = .free) :
    s.createFile q n .d = .ok (some i, createdDir s i fb fblock d inode b block n) := by
  have hmax := (h.block b block hdir.data_eq).maxUsed
  have hbne := hdir.block_ne hfb hfbfree
  -- The block of the new directory, with its two dots.
  have hcreated : Fs.createBlock { s with ibitmap := s.ibitmap.marked i } .d i d =
      .ok (some (some fb, 2), { s with
        ibitmap := s.ibitmap.marked i, dbitmap := s.dbitmap.marked fb
        data := s.data.set fb (newDirBlock fblock i d) }) := by
    have hnew : Fs.updateBlock { s with
        ibitmap := s.ibitmap.marked i, dbitmap := s.dbitmap.marked fb } (some fb)
        (fun b => do
          let b ← b.setType .d
          let b ← b.addDirEntry ['.'] i
          b.addDirEntry ['.', '.'] d) =
        .ok { s with
          ibitmap := s.ibitmap.marked i, dbitmap := s.dbitmap.marked fb
          data := s.data.set fb (newDirBlock fblock i d) } := by
      apply updateBlock_ok
      · exact hfb
      · exact newDirBlock_ok (h.block fb fblock hfb) hfbfree i d
    simp only [Fs.createBlock, Fs.dataAlloc, hballoc, if_true]
    rw [hnew]
    rfl
  -- Its inode, with that block.
  have hinodes : Fs.updateInode { s with
      ibitmap := s.ibitmap.marked i, dbitmap := s.dbitmap.marked fb
      data := s.data.set fb (newDirBlock fblock i d) } i (fun _ => ⟨.d, some fb, 2⟩) =
      .ok { s with
        ibitmap := s.ibitmap.marked i, inodes := s.inodes.set i ⟨.d, some fb, 2⟩
        dbitmap := s.dbitmap.marked fb, data := s.data.set fb (newDirBlock fblock i d) } := by
    apply updateInode_ok
    exact hold
  -- The parent's inode, which counts one more link. It is another one than the new inode.
  have hparent : Fs.updateInode { s with
      ibitmap := s.ibitmap.marked i, inodes := s.inodes.set i ⟨.d, some fb, 2⟩
      dbitmap := s.dbitmap.marked fb, data := s.data.set fb (newDirBlock fblock i d) } d
      Inode.incRefCnt =
      .ok { s with
        ibitmap := s.ibitmap.marked i
        inodes := (s.inodes.set i ⟨.d, some fb, 2⟩).set d inode.incRefCnt
        dbitmap := s.dbitmap.marked fb, data := s.data.set fb (newDirBlock fblock i d) } := by
    apply updateInode_ok
    rw [List.getElem?_set_ne hne]
    exact hdir.inodes_eq
  -- The parent's block, with the new entry. It is another one than the new block.
  have hdata : Fs.updateBlock { s with
      ibitmap := s.ibitmap.marked i
      inodes := (s.inodes.set i ⟨.d, some fb, 2⟩).set d inode.incRefCnt
      dbitmap := s.dbitmap.marked fb, data := s.data.set fb (newDirBlock fblock i d) } (some b)
      (·.addDirEntry n i) = .ok (createdDir s i fb fblock d inode b block n) := by
    apply updateBlock_ok
    · rw [List.getElem?_set_ne hbne]
      exact hdir.data_eq
    · exact addDirEntry_ok hdir.dirBlock.ftype (hmax ▸ hcan.1)
  rw [createFile_eq h hdir hcan halloc]
  simp only [hcreated, hinodes, hparent, hdata, if_true, bind, Except.bind, pure, Except.pure]

/-- The inode goes back when there is no block for the directory. -/
theorem createFile_noBlock (h : Storage s.toStore) (hdir : IsDir s g q d inode b block)
    (hcan : CanEnter block n) (hi : i < s.numInodes) (hunused : ¬ s.InodeUsed i)
    (halloc : s.ibitmap.alloc = (some i, s.ibitmap.marked i))
    (hballoc : s.dbitmap.alloc = (none, s.dbitmap)) :
    s.createFile q n .d = .ok (none, s) := by
  obtain ⟨old, hold, htype, haddr⟩ := h.free_inode hi hunused
  have hset : s.inodes.set i old.free = s.inodes := by
    have hfree : old.free = old := by
      obtain ⟨_, _, _⟩ := old
      simp_all [Inode.free]
    obtain ⟨hlt, rfl⟩ := List.getElem?_eq_some_iff.mp hold
    rw [hfree]
    exact List.set_getElem_self hlt
  have hback : Fs.inodeFree { s with ibitmap := s.ibitmap.marked i } i = .ok s := by
    have hbitmap := h.ibits.free_alloc hi hunused
    have hinodes := updateInode_ok hold Inode.free
    rw [hset] at hinodes
    simp only [Fs.inodeFree, hbitmap, bind, Except.bind]
    exact hinodes
  have hcreated : Fs.createBlock { s with ibitmap := s.ibitmap.marked i } .d i d =
      .ok (none, s) := by
    simp only [Fs.createBlock, Fs.dataAlloc, hballoc, hback, if_true, bind, Except.bind]
    rfl
  rw [createFile_eq h hdir hcan halloc]
  simp only [hcreated, bind, Except.bind, pure, Except.pure]

/-- `createFile` leaves the state as it is or creates the file or the directory. -/
theorem createFile_cases (h : Consistent s g) (hdir : IsDir s g q d inode b block) {ftype : FType}
    (hftype : ftype = .f ∨ ftype = .d) :
    s.createFile q n ftype = .ok (none, s) ∨
      ∃ i < s.numInodes, ¬ s.InodeUsed i ∧ CanEnter block n ∧
        ((ftype = .f ∧ s.createFile q n ftype = .ok (some i, createdFile s i b block n)) ∨
          (ftype = .d ∧ ∃ fb fblock, s.data[fb]? = some fblock ∧ fblock.ftype = .free ∧
            s.createFile q n ftype = .ok (some i, createdDir s i fb fblock d inode b block n))) := by
  have hs := h.storage
  by_cases hcan : CanEnter block n
  · rcases hs.ibits.alloc with ⟨i, hi, hunused, halloc⟩ | ⟨_, halloc⟩
    · obtain ⟨old, hold, _⟩ := hs.free_inode hi hunused
      have hne := hdir.ne_of_unused h.represents hunused
      rcases hftype with rfl | rfl
      · exact Or.inr ⟨i, hi, hunused, hcan, Or.inl ⟨rfl, createFile_file hs hdir hcan halloc hold⟩⟩
      · rcases hs.dbits.alloc with ⟨fb, hfb, hbunused, hballoc⟩ | ⟨_, hballoc⟩
        · obtain ⟨fblock, hfblock, hfbfree⟩ := hs.free_block hfb hbunused
          exact Or.inr ⟨i, hi, hunused, hcan, Or.inr ⟨rfl, fb, fblock, hfblock, hfbfree,
            createFile_dir hs hdir hcan halloc hold hne hballoc hfblock hfbfree⟩⟩
        · exact Or.inl (createFile_noBlock hs hdir hcan hi hunused halloc hballoc)
    · exact Or.inl (createFile_noInode hs hdir hcan halloc ftype)
  · exact Or.inl (createFile_full hs hdir hcan ftype)

end Create

/-- The file `p`: its inode number and its inode. -/
structure IsFile (s : Fs) (g : LinkGraph Nat Str) (p : Str) (i : Nat) (inode : Inode) : Prop where
  name : s.nameToInum p = some i
  kind : g.kind i = some .file
  inodes_eq : s.inodes[i]? = some inode
  ftype : inode.ftype = .f
  refs : g.refs i = inode.refCnt

theorem IsFile.live {s : Fs} {g : LinkGraph Nat Str} {p : Str} {i : Nat} {inode : Inode}
    (h : IsFile s g p i inode) : inode.ftype ≠ .free := by
  simp [h.ftype]

theorem IsFile.unique {s : Fs} {g : LinkGraph Nat Str} {p : Str} {i j : Nat}
    {inode inode' : Inode} (h : IsFile s g p i inode) (h' : IsFile s g p j inode') :
    i = j ∧ inode = inode' := by
  obtain rfl := Option.some.inj (h.name.symm.trans h'.name)
  exact ⟨rfl, Option.some.inj (h.inodes_eq.symm.trans h'.inodes_eq)⟩

/-- Each listed file has an inode number and an inode, and is entered in some directory. -/
theorem Consistent.exists_isFile {s : Fs} {g : LinkGraph Nat Str} (h : Consistent s g) {p : Str}
    (hp : p ∈ s.files) : ∃ i inode, IsFile s g p i inode ∧ Entered s g p i := by
  obtain ⟨i, hname, hkind, hin⟩ := h.paths.files p hp
  obtain ⟨inode, hinode, htype, hrefs⟩ := h.represents.exists_file hkind
  exact ⟨i, inode, ⟨hname, hkind, hinode, htype, hrefs⟩, hin⟩

section Link

variable {s : Fs} {g : LinkGraph Nat Str} {p q n : Str} {d b i : Nat} {inode tinode : Inode}
  {block : Block}

/-- The state after a successful `createLink` to the file `i`. -/
def linked (s : Fs) (i : Nat) (tinode : Inode) (b : Nat) (block : Block) (n : Str) : Fs :=
  { s with
    inodes := s.inodes.set i tinode.incRefCnt
    data := s.data.set b (block.appendEntry n i) }

theorem IsFile.ne_dir (hfile : IsFile s g p i tinode) (hdir : IsDir s g q d inode b block) :
    i ≠ d := by
  rintro rfl
  have hkind := hfile.kind.symm.trans hdir.kind
  cases hkind

/-- A new name is one entry more, and one link more of its target. -/
theorem linked_spec (h : Consistent s g) (hdir : IsDir s g q d inode b block)
    (hfile : IsFile s g p i tinode) (hcan : CanEnter block n) :
    Storage (linked s i tinode b block n).toStore ∧
      Represents (linked s i tinode b block n).toStore (g.addLink d n i) := by
  have hs₁ := h.storage.setRefCnt hfile.inodes_eq (tinode.refCnt + 1)
  have hr₁ := h.represents.setRefCnt hfile.inodes_eq (tinode.refCnt + 1)
  have hd₁ : (s.inodes.set i tinode.incRefCnt)[d]? = some inode := by
    rw [List.getElem?_set_ne (hfile.ne_dir hdir), hdir.inodes_eq]
  obtain ⟨hs₂, hr₂⟩ := appendEntry hs₁ hr₁ hd₁ hdir.addr hdir.data_eq
    ⟨hdir.dirBlock.ftype, hdir.dirBlock.entries⟩ hcan.1 hcan.2
  refine ⟨hs₂, ?_⟩
  rw [LinkGraph.addLink, hfile.refs]
  exact hr₂

/-- `createLink` leaves the state as it is or enters the file under the new name. -/
theorem createLink_cases (h : Consistent s g) (hdir : IsDir s g q d inode b block)
    (hfile : IsFile s g p i tinode) (hn : ValidName n) :
    s.createLink p n q = .ok (none, s) ∨
      CanEnter block n ∧ s.createLink p n q = .ok (some i, linked s i tinode b block n) := by
  obtain ⟨hname, hinode, hblock, hfree, hexists⟩ := hdir.reads (n := n) h.storage
  by_cases hcan : CanEnter block n
  · have hmax := (h.storage.block b block hdir.data_eq).maxUsed
    have htarget := lookupName_ok hfile.name
    have hinodes := updateInode_ok hfile.inodes_eq Inode.incRefCnt
    have hsplit : split n '/' = [n] := List.splitOn_eq_singleton hn.2
    have hlast : index [n] (some ([n].length - 1)) = .ok n := by simp
    have hdata : Fs.updateBlock { s with inodes := s.inodes.set i tinode.incRefCnt } (some b)
        (·.addDirEntry n i) = .ok (linked s i tinode b block n) := by
      apply updateBlock_ok
      · exact hdir.data_eq
      · exact addDirEntry_ok hdir.dirBlock.ftype (hmax ▸ hcan.1)
    rw [hdir.addr] at hblock
    refine Or.inr ⟨hcan, ?_⟩
    simp only [Fs.createLink, hname, hinode, hdir.addr, hblock, hfree, hcan.room, hexists, hcan.2,
      htarget, hinodes, hsplit, hlast, hdata, if_false, bind, Except.bind, pure, Except.pure,
      Bool.false_eq_true]
  · refine Or.inl ?_
    by_cases hroom : (32 : Int) - block.dirUsed ≤ 0
    · simp only [Fs.createLink, hname, hinode, hblock, hfree, hroom, if_true, bind, Except.bind]
      rfl
    · have hdup : block.dirList.any (n = ·.1) = true := by
        cases hany : block.dirList.any (n = ·.1) with
        | true => rfl
        | false => exact absurd ⟨by omega, hany⟩ hcan
      simp only [Fs.createLink, hname, hinode, hblock, hfree, hroom, hexists, hdup, if_true,
        if_false, bind, Except.bind]
      rfl

end Link

section Write

variable {s : Fs} {g : LinkGraph Nat Str} {p : Str} {b i : Nat} {inode : Inode} {block : Block}

/-- The state after a successful `writeFile`. -/
def written (s : Fs) (i : Nat) (inode : Inode) (fb : Nat) (fblock : Block) (data : Str) : Fs :=
  { s with
    inodes := s.inodes.set i { inode with addr := some fb }
    dbitmap := s.dbitmap.marked fb
    data := s.data.set fb (newDataBlock fblock data) }

/-- Data changes nothing in the graph, and the block of the file is used from then on. -/
theorem written_spec (h : Consistent s g) (hfile : IsFile s g p i inode) (haddr : inode.addr = none)
    {fb : Nat} {fblock : Block} (hfb : s.data[fb]? = some fblock) (hfree : fblock.ftype = .free)
    (data : Str) :
    Storage (written s i inode fb fblock data).toStore ∧
      Represents (written s i inode fb fblock data).toStore g := by
  have hunused : ¬ s.BlockUsed fb := fun hused => (blockUsed_iff hfb).mp hused hfree
  have hwf := h.storage.block fb fblock hfb
  constructor
  · apply h.storage.setBoth hfile.inodes_eq hfb (Or.inl haddr) (fun hlive => absurd hfree hlive)
    · exact Or.inr ⟨rfl, hfile.ftype.symm, hfile.live⟩
    · exact ⟨hwf.maxUsed, hwf.used, hwf.used_le, fun _ => hwf.blank (by simp [hfree])⟩
    · refine h.storage.ibits.congr fun j _ => ?_
      by_cases hij : i = j
      · subst hij
        simpa using (inodeUsed_iff hfile.inodes_eq).symm
      · simp [hij]
    · refine (h.storage.dbits.set_one (h.storage.block_lt hfb) hunused).congr fun c _ => ?_
      simpa [newDataBlock] using used_set_one
  · have hsame : FType.kind inode.ftype = g.kind i := by rw [hfile.ftype, hfile.kind]; rfl
    have hgraph : { g with
        kind := Function.update g.kind i inode.ftype.kind
        refs := Function.update g.refs i inode.refCnt } = g := by
      rw [hsame, ← hfile.refs, Function.update_eq_self, Function.update_eq_self]
    have hr₁ : Represents { s.toStore with
        dbitmap := s.dbitmap.marked fb
        data := s.data.set fb (newDataBlock fblock data) } g :=
      h.represents.setOtherBlock hfb (by simp [hfree]) (s.dbitmap.marked fb)
    have hr₂ : Represents (written s i inode fb fblock data).toStore { g with
        kind := Function.update g.kind i inode.ftype.kind
        refs := Function.update g.refs i inode.refCnt } := by
      refine hr₁.setInode hfile.inodes_eq ?_ (fun _ => rfl) s.ibitmap
      simp [hfile.ftype]
    rwa [hgraph] at hr₂

/-- `writeFile` leaves the state as it is or gives an empty file its block. A second write to a file
is refused. -/
theorem writeFile_cases (h : Consistent s g) (hfile : IsFile s g p i inode) (data : Str) :
    s.writeFile p data = .ok (-1, s) ∨
      inode.addr = none ∧ ∃ fb fblock, s.data[fb]? = some fblock ∧ fblock.ftype = .free ∧
        s.writeFile p data = .ok (0, written s i inode fb fblock data) := by
  have hname := lookupName_ok hfile.name
  have hinode := index_some_eq_ok.mpr hfile.inodes_eq
  by_cases haddr : inode.addr = none
  -- An inode without an address has room for the one block of a file.
  · have hsize : ¬ inode.getSize = 1 := by simp [Inode.getSize, haddr]
    rcases h.storage.dbits.alloc with ⟨fb, hfb, hunused, halloc⟩ | ⟨_, halloc⟩
    · obtain ⟨fblock, hfblock, hfree⟩ := h.storage.free_block hfb hunused
      -- A free block takes the type and the data without an assertion failing.
      have hnew : Fs.updateBlock { s with dbitmap := s.dbitmap.marked fb } (some fb)
          (fun b => do
            let b ← b.setType .f
            b.addData data) =
          .ok { s with
            dbitmap := s.dbitmap.marked fb
            data := s.data.set fb (newDataBlock fblock data) } := by
        apply updateBlock_ok
        · exact hfblock
        · exact newDataBlock_ok hfree data
      have hinodes : Fs.updateInode { s with
          dbitmap := s.dbitmap.marked fb
          data := s.data.set fb (newDataBlock fblock data) } i
          (fun i => { i with addr := some fb }) = .ok (written s i inode fb fblock data) := by
        apply updateInode_ok
        exact hfile.inodes_eq
      refine Or.inr ⟨haddr, fb, fblock, hfblock, hfree, ?_⟩
      simp only [Fs.writeFile, hname, hinode, hsize, Fs.dataAlloc, halloc, if_false, bind,
        Except.bind, pure, Except.pure] at hnew hinodes ⊢
      rw [hnew]
      simp only [hinodes]
    · refine Or.inl ?_
      simp only [Fs.writeFile, hname, hinode, hsize, Fs.dataAlloc, halloc, if_false, bind,
        Except.bind]
      rfl
  · have hsize : inode.getSize = 1 := by simp [Inode.getSize, haddr]
    refine Or.inl ?_
    simp only [Fs.writeFile, hname, hinode, hsize, if_true, bind, Except.bind]
    rfl

end Write

section Delete

variable {s : Fs} {g : LinkGraph Nat Str} {p q n : Str} {b d i : Nat} {inode dinode : Inode}
  {block : Block}

/-- The store without inode `i`. -/
def freedInode (v : Store) (i : Nat) (inode : Inode) : Store :=
  { v with ibitmap := v.ibitmap.unmarked i, inodes := v.inodes.set i inode.free }

/-- The store without block `b`. -/
def freedBlock (v : Store) (b : Nat) (block : Block) : Store :=
  { v with
    dbitmap := v.dbitmap.unmarked b
    data := v.data.set b { block with data := [], ftype := .free } }

/-- A used inode is freed: its bit is cleared, and it has no address. -/
theorem inodeFree_ok (hs : Storage s.toStore) (hi : s.inodes[i]? = some inode)
    (hlive : inode.ftype ≠ .free) :
    s.inodeFree i = .ok { s with toStore := freedInode s.toStore i inode } := by
  have hfree := hs.ibits.free_ok (hs.inode_lt hi) ⟨inode, hi, hlive⟩
  simp only [Fs.inodeFree, hfree, bind, Except.bind]
  exact updateInode_ok (s := { s with ibitmap := s.ibitmap.unmarked i }) hi Inode.free

/-- A file's block is freed. -/
theorem dataFree_ok (hs : Storage s.toStore) (hb : s.data[b]? = some block)
    (hfile : block.ftype = .f) :
    s.dataFree b = .ok { s with toStore := freedBlock s.toStore b block } := by
  have hfree := hs.dbits.free_ok (hs.block_lt hb) ⟨block, hb, by simp [hfile]⟩
  simp only [Fs.dataFree, hfree, bind, Except.bind]
  exact updateBlock_ok (s := { s with dbitmap := s.dbitmap.unmarked b }) hb (blockFree_ok hfile)

/-- The last link of an empty file frees its inode. -/
theorem dropLink_inode (hs : Storage s.toStore) (hi : s.inodes[i]? = some inode)
    (hlive : inode.ftype ≠ .free) (hlast : inode.refCnt = 1) (haddr : inode.addr = none) :
    s.dropLink i inode = .ok { s with toStore := freedInode s.toStore i inode } := by
  have hfree := inodeFree_ok hs hi hlive
  simp only [Fs.dropLink, hlast, haddr, if_true, bind, Except.bind, pure, Except.pure, hfree]

/-- The last link of a file with a block frees the block, then the inode. -/
theorem dropLink_block (hs : Storage s.toStore) (hi : s.inodes[i]? = some inode)
    (hlive : inode.ftype ≠ .free) (hlast : inode.refCnt = 1) (haddr : inode.addr = some b)
    (hb : s.data[b]? = some block) (hfile : block.ftype = .f) :
    s.dropLink i inode =
      .ok { s with toStore := freedInode (freedBlock s.toStore b block) i inode } := by
  have hdata := dataFree_ok hs hb hfile
  have hbits := hs.ibits.free_ok (hs.inode_lt hi) ⟨inode, hi, hlive⟩
  have hget := index_some_eq_ok.mpr hi
  simp only [Fs.dropLink, hlast, haddr, if_true, bind, Except.bind, hdata, freedBlock, Fs.inodeFree,
    hbits, Fs.updateInode, hget, pure, Except.pure, freedInode]

/-- A link that is not the last one is counted down. -/
theorem dropLink_count (hi : s.inodes[i]? = some inode) (hmore : inode.refCnt ≠ 1) :
    s.dropLink i inode = .ok { s with inodes := s.inodes.set i inode.decRefCnt } := by
  have hupdate := updateInode_ok hi Inode.decRefCnt
  simp only [Fs.dropLink, hmore, if_false, hupdate]

theorem used_set_zero {used : Nat → Prop} {j : Nat} :
    (if i = j then False else used j) ↔ (j ≠ i ∧ used j) := by
  by_cases hij : i = j
  · simp [hij]
  · simp [hij, Ne.symm hij]

/-- The graph after `dropLink`: the entry is still there. -/
def dropped (g : LinkGraph Nat Str) (i : Nat) : LinkGraph Nat Str :=
  { g with
    kind := if g.refs i = 1 then Function.update g.kind i none else g.kind
    refs := Function.update g.refs i (g.refs i - 1) }

/-- The last link goes: the inode is freed, and its block if it has one, and the graph has a node
less. -/
theorem dropLink_last (hs : Storage s.toStore) (hr : Represents s.toStore g)
    (hfile : IsFile s g p i inode) (hlast : inode.refCnt = 1) :
    ∃ v, s.dropLink i inode = .ok { s with toStore := v } ∧ Storage v ∧
      Represents v (dropped g i) ∧ v.numInodes = s.numInodes := by
  have hlive := hfile.live
  have hibits : (s.ibitmap.unmarked i).Agrees s.numInodes fun j =>
      if i = j then inode.free.ftype ≠ .free else s.InodeUsed j := by
    have hused := hs.ibits.set_zero (hs.inode_lt hfile.inodes_eq) ⟨inode, hfile.inodes_eq, hlive⟩
    refine hused.congr fun j _ => ?_
    simpa [Inode.free] using used_set_zero
  -- The last reference goes, so the graph loses the node.
  have hgraph : dropped g i = { g with
      kind := Function.update g.kind i inode.free.ftype.kind
      refs := Function.update g.refs i (g.refs i - 1) } := by
    rw [dropped, if_pos (hfile.refs.trans hlast)]
    rfl
  rw [hgraph]
  cases haddr : inode.addr with
  | none =>
    refine ⟨_, dropLink_inode hs hfile.inodes_eq hlive hlast haddr, ?_, ?_, rfl⟩
    · apply hs.setInode hfile.inodes_eq
      · exact haddr.symm
      · exact fun hsome => absurd haddr hsome
      · exact hibits
    · exact hr.setInode hfile.inodes_eq (by simp [Inode.free]) (fun hlive => absurd rfl hlive) _
  | some ab =>
    -- The block is freed first: it is a file's, so the graph does not see it.
    obtain ⟨ablock, hablock, hatype⟩ := hs.addr_block i inode ab hfile.inodes_eq haddr
    rw [hfile.ftype] at hatype
    have hwf := hs.block ab ablock hablock
    refine ⟨_, dropLink_block hs hfile.inodes_eq hlive hlast haddr hablock hatype, ?_, ?_, rfl⟩
    · apply hs.setBoth hfile.inodes_eq hablock
      · exact Or.inr haddr
      · exact fun _ => haddr
      · exact Or.inl ⟨rfl, rfl⟩
      · exact ⟨hwf.maxUsed, hwf.used, hwf.used_le, fun _ => hwf.blank (by simp [hatype])⟩
      · exact hibits
      · have hused := hs.dbits.set_zero (hs.block_lt hablock) ⟨ablock, hablock, by simp [hatype]⟩
        refine hused.congr fun c _ => ?_
        simpa using used_set_zero
    · have hr₁ : Represents (freedBlock s.toStore ab ablock) g :=
        hr.setOtherBlock hablock (by simp [hatype]) (s.dbitmap.unmarked ab)
      exact hr₁.setInode hfile.inodes_eq (by simp [Inode.free]) (fun hlive => absurd rfl hlive) _

/-- Dropping a link succeeds, and leaves the graph without it; the entry itself is still there. -/
theorem dropLink_ok (hs : Storage s.toStore) (hr : Represents s.toStore g)
    (hfile : IsFile s g p i inode) :
    ∃ v, s.dropLink i inode = .ok { s with toStore := v } ∧ Storage v ∧
      Represents v (dropped g i) ∧ v.numInodes = s.numInodes := by
  by_cases hlast : inode.refCnt = 1
  · exact dropLink_last hs hr hfile hlast
  · have hne : g.refs i ≠ 1 := hfile.refs.symm ▸ hlast
    refine ⟨{ s.toStore with inodes := s.inodes.set i inode.decRefCnt },
      dropLink_count hfile.inodes_eq hlast, hs.setRefCnt hfile.inodes_eq (inode.refCnt - 1), ?_, rfl⟩
    rw [dropped, if_neg hne, hfile.refs]
    exact hr.setRefCnt hfile.inodes_eq (inode.refCnt - 1)

/-- The state after `deleteFile`, from the store that `dropLink` leaves. -/
def deleted (s : Fs) (v : Store) (b : Nat) (block : Block) (p n : Str) : Fs :=
  { s with
    toStore := { v with data := v.data.set b (block.removeEntry n) }
    files := s.files.erase p }

/-- `deleteFile`, from the store that `dropLink` leaves. -/
theorem deleteFile_eq {v : Store} {cs : List Str} (hcs : ∀ c ∈ cs, ValidName c) (hn : ValidName n)
    (hp : Fs.fullName (dirPath cs) n ∈ s.files)
    (hname : s.nameToInum (Fs.fullName (dirPath cs) n) = some i) (hi : s.inodes[i]? = some inode)
    (hfile : inode.ftype = .f) (hdrop : s.dropLink i inode = .ok { s with toStore := v })
    (hparent : s.nameToInum (dirPath cs) = some d) (hd : v.inodes[d]? = some dinode)
    (haddr : dinode.addr = some b) (hb : v.data[b]? = some block) (hdir : block.ftype = .d)
    (hentry : (n, i) ∈ block.dirList) :
    s.deleteFile (Fs.fullName (dirPath cs) n) =
      .ok (0, deleted s v b block (Fs.fullName (dirPath cs) n) n) := by
  have hname := lookupName_ok hname
  have hinode := index_some_eq_ok.mpr hi
  have hpname : Fs.lookupName { s with toStore := v } (dirPath cs) = .ok d := lookupName_ok hparent
  have hpinode := index_some_eq_ok.mpr hd
  have hdel : Fs.updateBlock { s with toStore := v } (some b)
      (·.delDirEntry (Fs.fullName (dirPath cs) n)) =
      .ok { s with toStore := { v with data := v.data.set b (block.removeEntry n) } } := by
    apply updateBlock_ok
    · exact hb
    · exact delDirEntry_ok hdir hcs hn hentry rfl
  have hftype : ¬ inode.ftype = .d := by simp [hfile]
  simp only [Fs.deleteFile, hname, hinode, hdrop, getParent_fullName hcs hn, hpname, hpinode,
    hftype, if_false, haddr, hdel, hp, if_true, bind, Except.bind, pure, Except.pure, deleted]

/-- Unlinking removes one entry of the graph, and the node if that was its last one. -/
theorem deleteFile_unlinks (h : Consistent s g) (hp : p ∈ s.files) :
    ∃ i inode v b block n q j rest, IsFile s g p i inode ∧
      s.dropLink i inode = .ok { s with toStore := v } ∧ block.ftype = .d ∧
      s.deleteFile p = .ok (0, deleted s v b block p n) ∧ q ∈ s.dirs ∧ ValidName n ∧
      p = Fs.fullName q n ∧ s.nameToInum q = some j ∧ g.children j = (n, i) ::ₘ rest ∧
      Consistent (deleted s v b block p n) (g.unlink j i rest) := by
  obtain ⟨i, inode, hfile, q, n, j, hq, hn, rfl, hj, hmem⟩ := h.exists_isFile hp
  obtain ⟨v, hdrop, hs, hr, hnum⟩ := dropLink_ok h.storage h.represents hfile
  -- the parent is as it was
  have hne : j ≠ i := by
    rintro rfl
    have hdir := h.wellLinked.dir_of_mem hmem
    rw [hfile.kind] at hdir
    cases hdir
  have hkind : (dropped g i).kind j = some .dir := by
    have hdir := h.wellLinked.dir_of_mem hmem
    simp only [dropped]
    split
    · rw [Function.update_of_ne hne, hdir]
    · exact hdir
  obtain ⟨dinode, b, block, hdinode, _, haddr, hblock, hdir⟩ := hr.exists_dir hkind
  obtain ⟨rest, hrest, hs', hr'⟩ := removeEntry hs hr hdinode haddr hblock hdir
    (h.wellLinked.names j) hmem
  have hwl := h.wellLinked.unlink hfile.kind hrest
  obtain ⟨cs, hcs, hqcs⟩ := h.paths.form q hq
  have hentry : (n, i) ∈ block.dirList := by
    obtain ⟨kids, hlist, hchildren, _⟩ := hdir.entries
    have hkids : (n, i) ∈ kids := by
      rw [← Multiset.mem_coe, ← hchildren]
      exact hmem
    simp [hlist, hkids]
  subst hqcs
  have hdelete := deleteFile_eq hcs hn hp hfile.name hfile.inodes_eq hfile.ftype hdrop hj hdinode
    haddr hblock hdir.ftype hentry
  refine ⟨i, inode, v, b, block, n, dirPath cs, j, rest, hfile, hdrop, hdir.ftype, hdelete, hq, hn,
    rfl, hj, hrest, hs', hr', ?_, ?_⟩
  · show LinkGraph.WellLinked (Finset.range v.numInodes) ROOT _
    rw [hnum]
    exact hwl
  · refine (h.paths.unlink hq hj hp hfile.name hfile.kind hrest hwl).congr ?_ ?_ ?_ <;> rfl

/-- `deleteFile` of a listed file succeeds, and leaves a consistent state. -/
theorem deleteFile_ok (h : Consistent s g) (hp : p ∈ s.files) :
    ∃ i inode v b block n g', IsFile s g p i inode ∧
      s.dropLink i inode = .ok { s with toStore := v } ∧ block.ftype = .d ∧
      s.deleteFile p = .ok (0, deleted s v b block p n) ∧
      Consistent (deleted s v b block p n) g' := by
  obtain ⟨i, inode, v, b, block, n, q, j, rest, hfile, hdrop, hdir, hdelete, _, _, _, _, _, ht⟩ :=
    deleteFile_unlinks h hp
  exact ⟨i, inode, v, b, block, n, g.unlink j i rest, hfile, hdrop, hdir, hdelete, ht⟩

end Delete

end OsLab.Vsfs
