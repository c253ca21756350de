import OsLab.Lib.Lts
import OsLab.Vsfs.Calls

/-!
# The operations of the VSFS workload

`doCreate`, `doLink`, `doDelete` and `doAppend` draw their arguments from `dirs` and `files`.
Whatever they draw, they end normally and keep the state consistent.

* **`doCreate_cases`**, **`doLink_cases`**, **`doDelete_cases`**, **`doAppend_cases`** -- -1 and
  nothing changed, or 0 and the state that the calls build.
* **`createdFile_consistent`** and its like -- each of these states is consistent, with the graph
  changed by one entry.
* **`Op`**, **`Op.Drawn`**, **`workload`** -- the operations as labels of a transition system, which
  starts from `fresh`.
* **`fresh_consistent`** -- and the fresh file system is consistent.
-/

namespace OsLab.Vsfs

variable {s : Fs} {g : LinkGraph Nat Str} {p q n : Str} {i d b : Nat} {inode : Inode}
  {block : Block}

/-! ## Consistency -/

/-- An inode that is free is no node of the graph. -/
theorem Represents.kind_none {v : Store} (hr : Represents v g) (hunused : ¬ v.InodeUsed i) :
    g.kind i = none := by
  cases hget : v.inodes[i]? with
  | none => exact hr.outside i hget
  | some inode =>
    have hfree : inode.ftype = .free := by
      by_contra hlive
      exact hunused ⟨inode, hget, hlive⟩
    rw [hr.kind i inode hget, hfree]
    rfl

/-- A name that can be entered is none of the children's. -/
theorem CanEnter.names_ne (hcan : CanEnter block n) (hdir : IsDir s g q d inode b block) :
    ∀ e ∈ g.children d, e.1 ≠ n :=
  ((not_exists_iff hdir.dirBlock).mp hcan.2).2

theorem subset_enter (k : Nat) : g.children k ⊆ g.enter d n i k :=
  fun _ he => LinkGraph.mem_enter.mpr (.inr he)

theorem mem_enter_self : (n, i) ∈ g.enter d n i d :=
  LinkGraph.mem_enter.mpr (.inl ⟨rfl, rfl⟩)

theorem kind_update_of_live {kind : Option NodeKind} (hi : g.kind i = none) (k : Nat)
    (hk : g.kind k ≠ none) : Function.update g.kind i kind k = g.kind k := by
  refine Function.update_of_ne ?_ ..
  rintro rfl
  exact hk hi

/-! ## What each operation leaves -/

/-- The caller's part of a new file. -/
def newFile (s : Fs) (p : Str) (i : Nat) : Fs :=
  { Paths.learn s p i with files := s.files ++ [p] }

/-- The caller's part of a new directory. -/
def newDir (s : Fs) (p : Str) (i : Nat) : Fs :=
  { Paths.learn s p i with dirs := s.dirs ++ [p] }

/-- A create returns -1 and leaves the state, or has found an inode and enters the new file or
directory. -/
theorem doCreate_cases (h : Consistent s g) (hdir : IsDir s g q d inode b block) {ftype : FType}
    (hftype : ftype = .f ∨ ftype = .d) :
    s.doCreate ftype q n = .ok (-1, s) ∨
      ∃ i < s.numInodes, ¬ s.InodeUsed i ∧ CanEnter block n ∧
        ((ftype = .f ∧ s.doCreate ftype q n =
            .ok (0, newFile (createdFile s i b block n) (Fs.fullName q n) i)) ∨
          (ftype = .d ∧ ∃ fb fblock, s.data[fb]? = some fblock ∧ fblock.ftype = .free ∧
            s.doCreate ftype q n = .ok (0,
              newDir (createdDir s i fb fblock d inode b block n) (Fs.fullName q n) i))) := by
  rcases createFile_cases (n := n) h hdir hftype with hnone | ⟨i, hi, hunused, hcan, hcreated⟩
  · refine Or.inl ?_
    simp only [Fs.doCreate, hnone, bind, Except.bind, pure, Except.pure]
  · refine Or.inr ⟨i, hi, hunused, hcan, ?_⟩
    rcases hcreated with ⟨rfl, hcreated⟩ | ⟨rfl, fb, fblock, hfb, hfbfree, hcreated⟩
    · refine Or.inl ⟨rfl, ?_⟩
      simp only [Fs.doCreate, hcreated, bind, Except.bind, pure, Except.pure]
      rfl
    · refine Or.inr ⟨rfl, fb, fblock, hfb, hfbfree, ?_⟩
      simp only [Fs.doCreate, hcreated, bind, Except.bind, pure, Except.pure]
      rfl

/-- A link returns -1 and leaves the state, or enters the inode of its target under the new name. -/
theorem doLink_cases (h : Consistent s g) (hdir : IsDir s g q d inode b block) (hn : ValidName n)
    (hp : s.files ≠ [] → p ∈ s.files) :
    s.doLink q n p = .ok (-1, s) ∨
      CanEnter block n ∧ ∃ i tinode, IsFile s g p i tinode ∧
        s.doLink q n p = .ok (0, newFile (linked s i tinode b block n) (Fs.fullName q n) i) := by
  by_cases hfiles : s.files = []
  · refine Or.inl ?_
    simp [Fs.doLink, hfiles, pure, Except.pure]
  · have hlen : ¬ s.files.length = 0 := by simpa using hfiles
    obtain ⟨i, tinode, hfile, _⟩ := h.exists_isFile (hp hfiles)
    rcases createLink_cases h hdir hfile hn with hnone | ⟨hcan, hlinked⟩
    · refine Or.inl ?_
      simp only [Fs.doLink, hlen, if_false, hnone, bind, Except.bind, pure, Except.pure]
    · refine Or.inr ⟨hcan, i, tinode, hfile, ?_⟩
      simp only [Fs.doLink, hlen, if_false, hlinked, bind, Except.bind, pure, Except.pure]
      rfl

theorem doDelete_eq (hp : p ∈ s.files) : s.doDelete p = s.deleteFile p := by
  have hlen := List.length_pos_of_mem hp
  simp only [Fs.doDelete, hlen.ne', if_false]

/-- An unlink returns -1 if there is no file, or drops the link and takes the entry out of the
parent's block. -/
theorem doDelete_cases (h : Consistent s g) (hp : s.files ≠ [] → p ∈ s.files) :
    s.doDelete p = .ok (-1, s) ∨
      ∃ i inode v b block n g', IsFile s g p i inode ∧
        s.dropLink i inode = .ok { s with toStore := v } ∧ block.ftype = .d ∧
        s.doDelete p = .ok (0, deleted s v b block p n) ∧
        Consistent (deleted s v b block p n) g' := by
  by_cases hfiles : s.files = []
  · refine Or.inl ?_
    simp [Fs.doDelete, hfiles, pure, Except.pure]
  · rw [doDelete_eq (hp hfiles)]
    exact Or.inr (deleteFile_ok h (hp hfiles))

/-- A write returns -1 and leaves the state, or puts its data into the first block of a file that
had none. -/
theorem doAppend_cases (h : Consistent s g) (hp : s.files ≠ [] → p ∈ s.files) (data : Str) :
    s.doAppend p data = .ok (-1, s) ∨
      ∃ i inode, IsFile s g p i inode ∧ inode.addr = none ∧ ∃ fb fblock,
        s.data[fb]? = some fblock ∧ fblock.ftype = .free ∧
        s.doAppend p data = .ok (0, written s i inode fb fblock data) := by
  by_cases hfiles : s.files = []
  · refine Or.inl ?_
    simp [Fs.doAppend, hfiles, pure, Except.pure]
  · have hlen : ¬ s.files.length = 0 := by simpa using hfiles
    obtain ⟨i, inode, hfile, _⟩ := h.exists_isFile (hp hfiles)
    have happend : s.doAppend p data = s.writeFile p data := by
      simp only [Fs.doAppend, hlen, if_false]
    rw [happend]
    rcases writeFile_cases h hfile data with hfull | ⟨haddr, hwritten⟩
    · exact Or.inl hfull
    · exact Or.inr ⟨i, inode, hfile, haddr, hwritten⟩

/-! ## Consistency is kept -/

/-- The state behind a new file is consistent: the graph has one node and one entry more. -/
theorem createdFile_consistent (h : Consistent s g) (hdir : IsDir s g q d inode b block)
    (hq : q ∈ s.dirs) (hn : ValidName n) (hcan : CanEnter block n) (hi : i < s.numInodes)
    (hunused : ¬ s.InodeUsed i) :
    Consistent (newFile (createdFile s i b block n) (Fs.fullName q n) i) (g.addFile d n i) := by
  have hkind := h.represents.kind_none hunused
  have hnames := hcan.names_ne hdir
  obtain ⟨hs, hr⟩ := createdFile_spec h hdir hcan.1 hcan.2 hi hunused
  refine ⟨hs, hr, h.wellLinked.addFile hdir.kind hkind (Finset.mem_range.mpr hi) hnames, ?_⟩
  refine (h.paths.enterFile hq hn hdir.name hnames subset_enter mem_enter_self
    (kind_update_of_live hkind) (Function.update_self ..)).congr ?_ ?_ ?_ <;> rfl

/-- The same behind a new directory, whose block holds its two dots. -/
theorem createdDir_consistent (h : Consistent s g) (hdir : IsDir s g q d inode b block)
    (hq : q ∈ s.dirs) (hn : ValidName n) (hcan : CanEnter block n) (hi : i < s.numInodes)
    (hunused : ¬ s.InodeUsed i) {fb : Nat} {fblock : Block} (hfb : s.data[fb]? = some fblock)
    (hfbfree : fblock.ftype = .free) :
    Consistent (newDir (createdDir s i fb fblock d inode b block n) (Fs.fullName q n) i)
      (g.addDir d n i) := by
  have hkind := h.represents.kind_none hunused
  have hnames := hcan.names_ne hdir
  obtain ⟨hs, hr⟩ := createdDir_spec h hdir hcan.1 hcan.2 hi hunused hfb hfbfree
  refine ⟨hs, hr, h.wellLinked.addDir hdir.kind hkind (Finset.mem_range.mpr hi) hnames, ?_⟩
  refine (h.paths.enterDir hq hn hdir.name hnames subset_enter mem_enter_self
    (kind_update_of_live hkind) hkind (Function.update_self ..)).congr ?_ ?_ ?_ <;> rfl

/-- The same behind a new name of a file: one entry more, and one link more to count. -/
theorem linked_consistent (h : Consistent s g) (hdir : IsDir s g q d inode b block)
    (hq : q ∈ s.dirs) (hn : ValidName n) (hcan : CanEnter block n) {tinode : Inode}
    (hfile : IsFile s g p i tinode) :
    Consistent (newFile (linked s i tinode b block n) (Fs.fullName q n) i) (g.addLink d n i) := by
  have hnames := hcan.names_ne hdir
  obtain ⟨hs, hr⟩ := linked_spec h hdir hfile hcan
  refine ⟨hs, hr, h.wellLinked.addLink hdir.kind hfile.kind hnames, ?_⟩
  have hpaths : Paths (newFile s (Fs.fullName q n) i) (g.addLink d n i) :=
    h.paths.enterFile hq hn hdir.name hnames subset_enter mem_enter_self (fun _ _ => rfl) hfile.kind
  refine hpaths.congr ?_ ?_ ?_ <;> rfl

/-- Data changes nothing in the graph. -/
theorem written_consistent (h : Consistent s g) (hfile : IsFile s g p i inode)
    (haddr : inode.addr = none) {fb : Nat} {fblock : Block} (hfb : s.data[fb]? = some fblock)
    (hfree : fblock.ftype = .free) (data : Str) :
    Consistent (written s i inode fb fblock data) g := by
  obtain ⟨hs, hr⟩ := written_spec h hfile haddr hfb hfree data
  refine ⟨hs, hr, h.wellLinked, h.paths.congr ?_ ?_ ?_⟩ <;> rfl

/-- A drawn create ends normally in a consistent state, and leaves one. -/
theorem doCreate_ok (h : Consistent s g) (hq : q ∈ s.dirs) (hn : ValidName n) {ftype : FType}
    (hftype : ftype = .f ∨ ftype = .d) :
    ∃ rc t g', s.doCreate ftype q n = .ok (rc, t) ∧ Consistent t g' := by
  obtain ⟨d, inode, b, block, hdir⟩ := h.exists_isDir hq
  rcases doCreate_cases (n := n) h hdir hftype with hnone | ⟨i, hi, hunused, hcan, hcreated⟩
  · exact ⟨-1, s, g, hnone, h⟩
  · rcases hcreated with ⟨rfl, hcreated⟩ | ⟨rfl, fb, fblock, hfb, hfbfree, hcreated⟩
    · exact ⟨0, _, _, hcreated, createdFile_consistent h hdir hq hn hcan hi hunused⟩
    · exact ⟨0, _, _, hcreated, createdDir_consistent h hdir hq hn hcan hi hunused hfb hfbfree⟩

/-- So does a link to a file that is drawn, if there are any. -/
theorem doLink_ok (h : Consistent s g) (hq : q ∈ s.dirs) (hn : ValidName n)
    (hp : s.files ≠ [] → p ∈ s.files) :
    ∃ rc t g', s.doLink q n p = .ok (rc, t) ∧ Consistent t g' := by
  obtain ⟨d, inode, b, block, hdir⟩ := h.exists_isDir hq
  rcases doLink_cases h hdir hn hp with hnone | ⟨hcan, i, tinode, hfile, hlinked⟩
  · exact ⟨-1, s, g, hnone, h⟩
  · exact ⟨0, _, _, hlinked, linked_consistent h hdir hq hn hcan hfile⟩

/-- So does an unlink. -/
theorem doDelete_ok (h : Consistent s g) (hp : s.files ≠ [] → p ∈ s.files) :
    ∃ rc t g', s.doDelete p = .ok (rc, t) ∧ Consistent t g' := by
  rcases doDelete_cases h hp with hnone | ⟨_, _, _, _, _, _, g', _, _, _, hdeleted, ht⟩
  · exact ⟨-1, s, g, hnone, h⟩
  · exact ⟨0, _, g', hdeleted, ht⟩

/-- So does a write. -/
theorem doAppend_ok (h : Consistent s g) (hp : s.files ≠ [] → p ∈ s.files) (data : Str) :
    ∃ rc t g', s.doAppend p data = .ok (rc, t) ∧ Consistent t g' := by
  rcases doAppend_cases h hp data with hfull | ⟨i, inode, hfile, haddr, fb, fblock, hfb, hfree,
    hwritten⟩
  · exact ⟨-1, s, g, hfull, h⟩
  · exact ⟨0, _, g, hwritten, written_consistent h hfile haddr hfb hfree data⟩

/-! ## The system -/

/-- An operation with the arguments it draws. -/
inductive Op where
  | creat (parent nfile : Str)
  | mkdir (parent nfile : Str)
  | link (parent nfile target : Str)
  | unlink (dfile : Str)
  | append (afile data : Str)

def Op.run (s : Fs) : Op → Except Abort (Int × Fs)
  | .creat parent nfile => s.doCreate .f parent nfile
  | .mkdir parent nfile => s.doCreate .d parent nfile
  | .link parent nfile target => s.doLink parent nfile target
  | .unlink dfile => s.doDelete dfile
  | .append afile data => s.doAppend afile data

/-- The arguments are ones that can be drawn: with no files none is drawn. -/
def Op.Drawn (s : Fs) : Op → Prop
  | .creat parent nfile => parent ∈ s.dirs ∧ ValidName nfile
  | .mkdir parent nfile => parent ∈ s.dirs ∧ ValidName nfile
  | .link parent nfile target =>
    (parent ∈ s.dirs ∧ ValidName nfile) ∧ (s.files ≠ [] → target ∈ s.files)
  | .unlink dfile => s.files ≠ [] → dfile ∈ s.files
  | .append afile _ => s.files ≠ [] → afile ∈ s.files

/-- Every drawn operation ends normally in a consistent state, and leaves one. -/
theorem Consistent.run_ok (h : Consistent s g) {op : Op} (hop : op.Drawn s) :
    ∃ rc t g', op.run s = .ok (rc, t) ∧ Consistent t g' := by
  cases op with
  | creat parent nfile => exact doCreate_ok h hop.1 hop.2 (Or.inl rfl)
  | mkdir parent nfile => exact doCreate_ok h hop.1 hop.2 (Or.inr rfl)
  | link parent nfile target => exact doLink_ok h hop.1.1 hop.1.2 hop.2
  | unlink dfile => exact doDelete_ok h hop
  | append afile data => exact doAppend_ok h hop data

/-- Workloads over a fresh file system. -/
def workload (numInodes numData : Nat) : Lts Fs Op where
  init s := Fs.new numInodes numData = .ok s
  step s op t := op.Drawn s ∧ ∃ rc, op.run s = .ok (rc, t)

/-! ## The fresh file system -/

/-- The fresh file system. -/
def fresh (numInodes numData : Nat) : Fs where
  numInodes := numInodes
  numData := numData
  ibitmap := (Bitmap.new numInodes).marked ROOT
  inodes := (List.replicate numInodes Inode.new).set ROOT ⟨.d, some 0, 2⟩
  dbitmap := (Bitmap.new numData).marked ROOT
  data := (List.replicate numData (Block.new .free)).set 0 (newDirBlock (Block.new .free) ROOT ROOT)
  files := []
  dirs := [['/']]
  nameToInum := Function.update (fun _ => none) ['/'] (some ROOT)

/-- The root directory alone. -/
def rootGraph : LinkGraph Nat Str := .single ROOT

/-- `__init__` needs an inode and a block for the root, and then leaves the fresh file system. -/
theorem new_ok {numInodes numData : Nat} (hi : 0 < numInodes) (hd : 0 < numData) :
    Fs.new numInodes numData = .ok (fresh numInodes numData) := by
  have himark := (Bitmap.Agrees.new numInodes).markAllocated_ok hi id
  have hdmark := (Bitmap.Agrees.new numData).markAllocated_ok hd id
  have hinode : (List.replicate numInodes Inode.new)[0]? = some Inode.new := by
    rw [List.getElem?_replicate, if_pos hi]
  have hblock : (List.replicate numData (Block.new .free))[0]? = some (Block.new .free) := by
    rw [List.getElem?_replicate, if_pos hd]
  have hget := index_some_eq_ok.mpr hinode
  have hgetb := index_some_eq_ok.mpr hblock
  have hwf : (Block.new .free).WellFormed := ⟨rfl, rfl, by decide, fun _ => rfl⟩
  have hdir := newDirBlock_ok hwf rfl ROOT ROOT
  simp only [Fs.new, Fs.updateInode, Fs.updateBlock, ROOT, himark, hdmark, hget, hgetb, bind,
    Except.bind, pure, Except.pure] at hdir ⊢
  rw [hdir]
  rfl

theorem fresh_name (numInodes numData : Nat) :
    (fresh numInodes numData).nameToInum ['/'] = some ROOT := by
  simp [fresh]

/-- In the fresh file system every inode but the root's is free. -/
theorem fresh_inode {numInodes numData i : Nat} {inode : Inode}
    (h : (fresh numInodes numData).inodes[i]? = some inode) :
    i = ROOT ∧ inode = ⟨.d, some 0, 2⟩ ∨ i ≠ ROOT ∧ inode = Inode.new := by
  rw [fresh, List.getElem?_set] at h
  split at h
  · split at h
    · exact Or.inl ⟨Eq.symm ‹_›, (Option.some.inj h).symm⟩
    · cases h
  · have hmem := List.mem_of_getElem? h
    exact Or.inr ⟨fun heq => ‹¬ _› heq.symm, List.eq_of_mem_replicate hmem⟩

/-- So is every block but the root's, which holds its two dots. -/
theorem fresh_block {numInodes numData b : Nat} {block : Block}
    (h : (fresh numInodes numData).data[b]? = some block) :
    b = 0 ∧ block = newDirBlock (Block.new .free) ROOT ROOT ∨ b ≠ 0 ∧ block = Block.new .free := by
  rw [fresh, List.getElem?_set] at h
  split at h
  · split at h
    · exact Or.inl ⟨Eq.symm ‹_›, (Option.some.inj h).symm⟩
    · cases h
  · have hmem := List.mem_of_getElem? h
    exact Or.inr ⟨fun heq => ‹¬ _› heq.symm, List.eq_of_mem_replicate hmem⟩

section Fresh

variable {numInodes numData : Nat}

theorem fresh_root (hi : 0 < numInodes) :
    (fresh numInodes numData).inodes[ROOT]? = some ⟨.d, some 0, 2⟩ := by
  simp [fresh, ROOT, hi]

theorem fresh_rootBlock (hd : 0 < numData) :
    (fresh numInodes numData).data[0]? = some (newDirBlock (Block.new .free) ROOT ROOT) := by
  simp [fresh, hd]

theorem fresh_storage (hi : 0 < numInodes) (hd : 0 < numData) :
    Storage (fresh numInodes numData).toStore where
  inodes_length := by simp [fresh]
  data_length := by simp [fresh]
  -- One bit of each bitmap is set: that of the root, and that of its block.
  ibits := by
    refine ((Bitmap.Agrees.new numInodes).set_one hi id).congr fun i _ => ?_
    constructor
    · rintro ⟨inode, hinode, hlive⟩
      rcases fresh_inode hinode with ⟨hroot, _⟩ | ⟨_, rfl⟩
      · exact Or.inl hroot
      · exact absurd rfl hlive
    · rintro (rfl | hfalse)
      · exact ⟨_, fresh_root hi, by simp⟩
      · exact hfalse.elim
  dbits := by
    refine ((Bitmap.Agrees.new numData).set_one hd id).congr fun b _ => ?_
    constructor
    · rintro ⟨block, hblock, hlive⟩
      rcases fresh_block hblock with ⟨hzero, _⟩ | ⟨_, rfl⟩
      · exact Or.inl hzero
      · exact absurd rfl hlive
    · rintro (rfl | hfalse)
      · exact ⟨_, fresh_rootBlock hd, by simp [newDirBlock]⟩
      · exact hfalse.elim
  block b block hblock := by
    rcases fresh_block hblock with ⟨_, rfl⟩ | ⟨_, rfl⟩
    · exact ⟨rfl, rfl, by decide, fun hne => absurd rfl hne⟩
    · exact ⟨rfl, rfl, by decide, fun _ => rfl⟩
  free_addr i inode hinode hfree := by
    rcases fresh_inode hinode with ⟨_, rfl⟩ | ⟨_, rfl⟩
    · cases hfree
    · rfl
  addr_block i inode b hinode haddr := by
    rcases fresh_inode hinode with ⟨_, rfl⟩ | ⟨_, rfl⟩
    · obtain rfl : 0 = b := Option.some.inj haddr
      exact ⟨_, fresh_rootBlock hd, rfl⟩
    · cases haddr
  addr_inj i j inode inode' b hinode hinode' haddr haddr' := by
    rcases fresh_inode hinode with ⟨rfl, _⟩ | ⟨_, rfl⟩
    · rcases fresh_inode hinode' with ⟨rfl, _⟩ | ⟨_, rfl⟩
      · rfl
      · cases haddr'
    · cases haddr
  owned b hb := by
    obtain ⟨block, hblock, hlive⟩ := hb
    rcases fresh_block hblock with ⟨rfl, _⟩ | ⟨_, rfl⟩
    · exact ⟨ROOT, _, fresh_root hi, rfl⟩
    · exact absurd rfl hlive

theorem fresh_represents (hi : 0 < numInodes) (hd : 0 < numData) :
    Represents (fresh numInodes numData).toStore rootGraph where
  kind i inode hinode := by
    rcases fresh_inode hinode with ⟨rfl, rfl⟩ | ⟨hne, rfl⟩
    · exact LinkGraph.single_kind_root ROOT
    · exact LinkGraph.single_kind_of_ne hne
  outside i hnone := by
    refine LinkGraph.single_kind_of_ne ?_
    rintro rfl
    have hroot : (fresh numInodes numData).inodes[ROOT]? = some ⟨.d, some 0, 2⟩ := fresh_root hi
    rw [hroot] at hnone
    cases hnone
  refs i inode hinode hlive := by
    rcases fresh_inode hinode with ⟨_, rfl⟩ | ⟨_, rfl⟩
    · rfl
    · exact absurd rfl hlive
  dir i inode hinode hdir := by
    rcases fresh_inode hinode with ⟨rfl, rfl⟩ | ⟨_, rfl⟩
    · exact ⟨0, _, rfl, fresh_rootBlock hd, rfl, [], rfl, rfl, by simp⟩
    · cases hdir

theorem fresh_paths : Paths (fresh numInodes numData) rootGraph where
  root_mem := by simp [fresh]
  root_name := fresh_name numInodes numData
  form p hp := by
    obtain rfl := List.mem_singleton.mp hp
    exact ⟨[], by simp, rfl⟩
  dirs p hp := by
    obtain rfl := List.mem_singleton.mp hp
    exact ⟨ROOT, fresh_name numInodes numData, LinkGraph.single_kind_root ROOT, Or.inl rfl⟩
  files p hp := by cases hp
  inj p hp q hq _ := (List.mem_singleton.mp hp).trans (List.mem_singleton.mp hq).symm
  files_nodup := List.nodup_nil

/-- The fresh file system represents the root alone. -/
theorem fresh_consistent (hi : 0 < numInodes) (hd : 0 < numData) :
    Consistent (fresh numInodes numData) rootGraph :=
  ⟨fresh_storage hi hd, fresh_represents hi hd,
    LinkGraph.single_wellLinked (Finset.mem_range.mpr hi), fresh_paths⟩

end Fresh

end OsLab.Vsfs
