import OsLab.Lib.LinkGraph
import OsLab.Vsfs.Storage

/-!
# The directory tree of a VSFS store

A store represents a link graph: the inodes are its nodes, a directory's block starts with `.` and
`..` and continues with the directory's children. Every change a call makes to an inode or to a
directory block is one change to the graph.

* **`DirBlock`**, **`Represents`** -- what a directory's block holds, and when a store represents a
  graph.
* **`exists_dir`**, **`exists_file`** -- the inode and the block of a node.
* **`setInode`**, **`setRefCnt`**, **`setOtherBlock`**, **`newDir`**, **`setEntries`** -- the
  changes to the store, as changes to the graph.
-/

namespace OsLab.Vsfs

def FType.kind : FType → Option NodeKind
  | .free => none
  | .d => some .dir
  | .f => some .file

theorem kind_eq_none {t : FType} : t.kind = none ↔ t = .free := by
  cases t <;> simp [FType.kind]

theorem kind_eq_dir {t : FType} : t.kind = some .dir ↔ t = .d := by
  cases t <;> simp [FType.kind]

theorem kind_eq_file {t : FType} : t.kind = some .file ↔ t = .f := by
  cases t <;> simp [FType.kind]

def dotName : Str := ['.']

def dotDotName : Str := ['.', '.']

/-- `block` is the block of a directory `i` with the entries `kids`. -/
structure DirBlock (g : LinkGraph Nat Str) (i : Nat) (block : Block) : Prop where
  ftype : block.ftype = .d
  entries : ∃ kids, block.dirList = (dotName, i) :: (dotDotName, g.parent i) :: kids ∧
    g.children i = kids ∧ ∀ e ∈ kids, e.1 ≠ dotName ∧ e.1 ≠ dotDotName

structure Represents (v : Store) (g : LinkGraph Nat Str) : Prop where
  kind : ∀ (i : Nat) inode, v.inodes[i]? = some inode → g.kind i = inode.ftype.kind
  outside : ∀ i : Nat, v.inodes[i]? = none → g.kind i = none
  refs : ∀ (i : Nat) inode, v.inodes[i]? = some inode → inode.ftype ≠ .free →
    g.refs i = inode.refCnt
  dir : ∀ (i : Nat) inode, v.inodes[i]? = some inode → inode.ftype = .d →
    ∃ b block, inode.addr = some b ∧ v.data[b]? = some block ∧ DirBlock g i block

namespace Represents

variable {v : Store} {g : LinkGraph Nat Str} {i d b : Nat} {inode inode' : Inode}
  {block block' : Block} {n : Str}

/-- A node has an inode of its kind. -/
theorem exists_inode (h : Represents v g) (hi : g.kind i ≠ none) :
    ∃ inode, v.inodes[i]? = some inode ∧ g.kind i = inode.ftype.kind := by
  cases hget : v.inodes[i]? with
  | none => exact absurd (h.outside i hget) hi
  | some inode => exact ⟨inode, rfl, h.kind i inode hget⟩

/-- The inode and the block of a directory, which holds its entries. -/
theorem exists_dir (h : Represents v g) (hi : g.kind i = some .dir) :
    ∃ inode b block, v.inodes[i]? = some inode ∧ inode.ftype = .d ∧ inode.addr = some b ∧
      v.data[b]? = some block ∧ DirBlock g i block := by
  have hlive : g.kind i ≠ none := by simp [hi]
  obtain ⟨inode, hget, hkind⟩ := h.exists_inode hlive
  have htype : inode.ftype = .d := kind_eq_dir.mp (hkind ▸ hi)
  obtain ⟨b, block, haddr, hblock, hdir⟩ := h.dir i inode hget htype
  exact ⟨inode, b, block, hget, htype, haddr, hblock, hdir⟩

/-- The inode of a file, which counts its links. -/
theorem exists_file (h : Represents v g) (hi : g.kind i = some .file) :
    ∃ inode, v.inodes[i]? = some inode ∧ inode.ftype = .f ∧ g.refs i = inode.refCnt := by
  have hlive : g.kind i ≠ none := by simp [hi]
  obtain ⟨inode, hget, hkind⟩ := h.exists_inode hlive
  have htype : inode.ftype = .f := kind_eq_file.mp (hkind ▸ hi)
  exact ⟨inode, hget, htype, h.refs i inode hget (by simp [htype])⟩

theorem kind_update (h : Represents v g) (hi : v.inodes[i]? = some inode) (j : Nat) (x : Inode)
    (hj : (v.inodes.set i inode')[j]? = some x) :
    Function.update g.kind i inode'.ftype.kind j = x.ftype.kind := by
  rw [getElem?_set_of_some hi] at hj
  by_cases hij : i = j
  · subst hij
    rw [if_pos rfl] at hj
    obtain rfl := Option.some.inj hj
    exact Function.update_self ..
  · rw [if_neg hij] at hj
    rw [Function.update_of_ne (Ne.symm hij)]
    exact h.kind j x hj

theorem outside_update (h : Represents v g) (hi : v.inodes[i]? = some inode)
    (kind : Option NodeKind) (j : Nat) (hj : (v.inodes.set i inode')[j]? = none) :
    Function.update g.kind i kind j = none := by
  rw [getElem?_set_of_some hi] at hj
  by_cases hij : i = j
  · simp [hij] at hj
  · rw [if_neg hij] at hj
    rw [Function.update_of_ne (Ne.symm hij)]
    exact h.outside j hj

theorem refs_update (h : Represents v g) (hi : v.inodes[i]? = some inode) {refs : Int}
    (hrefs : inode'.ftype ≠ .free → refs = inode'.refCnt) (j : Nat) (x : Inode)
    (hj : (v.inodes.set i inode')[j]? = some x) (hlive : x.ftype ≠ .free) :
    Function.update g.refs i refs j = x.refCnt := by
  rw [getElem?_set_of_some hi] at hj
  by_cases hij : i = j
  · subst hij
    rw [if_pos rfl] at hj
    obtain rfl := Option.some.inj hj
    rw [Function.update_self, hrefs hlive]
  · rw [if_neg hij] at hj
    rw [Function.update_of_ne (Ne.symm hij)]
    exact h.refs j x hj hlive

/-- An inode changes and is no directory then: the node changes with it. -/
theorem setInode (h : Represents v g) (hi : v.inodes[i]? = some inode)
    (hnew : inode'.ftype ≠ .d) {refs : Int} (hrefs : inode'.ftype ≠ .free → refs = inode'.refCnt)
    (ibitmap : Bitmap) :
    Represents { v with ibitmap := ibitmap, inodes := v.inodes.set i inode' }
      { g with
        kind := Function.update g.kind i inode'.ftype.kind
        refs := Function.update g.refs i refs } where
  kind := h.kind_update hi
  outside := h.outside_update hi _
  refs := h.refs_update hi hrefs
  dir j x hj htype := by
    replace hj : (v.inodes.set i inode')[j]? = some x := hj
    rw [getElem?_set_of_some hi] at hj
    split at hj
    · obtain rfl := Option.some.inj hj
      exact absurd htype hnew
    · obtain ⟨c, block, haddr, hblock, hdir⟩ := h.dir j x hj htype
      exact ⟨c, block, haddr, hblock, hdir.ftype, hdir.entries⟩

/-- The link count of a used inode changes, and that of the node. -/
theorem setRefCnt (h : Represents v g) (hi : v.inodes[i]? = some inode) (refs : Int) :
    Represents { v with inodes := v.inodes.set i { inode with refCnt := refs } }
      { g with refs := Function.update g.refs i refs } where
  kind j x hj := by
    have hkind := h.kind_update hi j x hj
    rwa [← h.kind i inode hi, Function.update_eq_self] at hkind
  outside j hj := by
    have hkind := h.outside_update hi (g.kind i) j hj
    rwa [Function.update_eq_self] at hkind
  refs := h.refs_update hi fun _ => rfl
  dir j x hj htype := by
    replace hj : (v.inodes.set i { inode with refCnt := refs })[j]? = some x := hj
    rw [getElem?_set_of_some hi] at hj
    have hdir : ∃ y, v.inodes[j]? = some y ∧ y.ftype = x.ftype ∧ y.addr = x.addr := by
      split at hj
      · obtain rfl := Option.some.inj hj
        exact ⟨inode, ‹i = j› ▸ hi, rfl, rfl⟩
      · exact ⟨x, hj, rfl, rfl⟩
    obtain ⟨y, hy, hyt, hya⟩ := hdir
    obtain ⟨c, block, haddr, hblock, hblockdir⟩ := h.dir j y hy (hyt.trans htype)
    exact ⟨c, block, hya ▸ haddr, hblock, hblockdir.ftype, hblockdir.entries⟩

/-- A block that is no directory's changes, and the graph does not. -/
theorem setOtherBlock (h : Represents v g) (hb : v.data[b]? = some block) (hold : block.ftype ≠ .d)
    (dbitmap : Bitmap) :
    Represents { v with dbitmap := dbitmap, data := v.data.set b block' } g where
  kind := h.kind
  outside := h.outside
  refs := h.refs
  dir j x hj htype := by
    obtain ⟨c, y, haddr, hy, hdir⟩ := h.dir j x hj htype
    refine ⟨c, y, haddr, ?_, hdir⟩
    have hbc : b ≠ c := by
      rintro rfl
      obtain rfl : block = y := Option.some.inj (hb.symm.trans hy)
      exact hold hdir.ftype
    show (v.data.set b block')[c]? = some y
    rw [getElem?_set_of_some hb, if_neg hbc, hy]

/-- A free inode and a free block become an empty directory. -/
theorem newDir (h : Represents v g) (hi : v.inodes[i]? = some inode)
    (hb : v.data[b]? = some block) (hbfree : block.ftype = .free) (hchildren : g.children i = 0)
    {p : Nat} (hblock : block'.ftype = .d)
    (hentries : block'.dirList = [(dotName, i), (dotDotName, p)]) {refs : Int}
    (ibitmap dbitmap : Bitmap) :
    Represents
      { v with
        ibitmap := ibitmap, inodes := v.inodes.set i ⟨.d, some b, refs⟩
        dbitmap := dbitmap, data := v.data.set b block' }
      { g with
        kind := Function.update g.kind i (some .dir)
        parent := Function.update g.parent i p
        refs := Function.update g.refs i refs } where
  kind := h.kind_update hi
  outside := h.outside_update hi _
  refs := h.refs_update hi fun _ => rfl
  dir j x hj htype := by
    replace hj : (v.inodes.set i ⟨.d, some b, refs⟩)[j]? = some x := hj
    rw [getElem?_set_of_some hi] at hj
    by_cases hij : i = j
    · subst hij
      rw [if_pos rfl] at hj
      obtain rfl := Option.some.inj hj
      refine ⟨b, block', rfl, ?_, hblock, [], ?_, ?_, by simp⟩
      · show (v.data.set b block')[b]? = some block'
        rw [getElem?_set_of_some hb, if_pos rfl]
      · rw [hentries]
        simp
      · exact hchildren
    -- Another directory has a block of its own, and `b` was free.
    · rw [if_neg hij] at hj
      obtain ⟨c, y, haddr, hy, hdir⟩ := h.dir j x hj htype
      have hbc : b ≠ c := by
        rintro rfl
        obtain rfl : block = y := Option.some.inj (hb.symm.trans hy)
        rw [hdir.ftype] at hbfree
        cases hbfree
      refine ⟨c, y, haddr, ?_, hdir.ftype, ?_⟩
      · show (v.data.set b block')[c]? = some y
        rw [getElem?_set_of_some hb, if_neg hbc, hy]
      · simpa [Function.update_of_ne (Ne.symm hij)] using hdir.entries

/-- The entries of directory `d` change in its block. -/
theorem setEntries (h : Represents v g) (hs : Storage v) (hd : v.inodes[d]? = some inode)
    (haddr : inode.addr = some b) (hb : v.data[b]? = some block) {kids : List (Str × Nat)}
    (hftype : block'.ftype = .d)
    (hentries : block'.dirList = (dotName, d) :: (dotDotName, g.parent d) :: kids)
    (hkids : ∀ e ∈ kids, e.1 ≠ dotName ∧ e.1 ≠ dotDotName) :
    Represents { v with data := v.data.set b block' }
      { g with children := Function.update g.children d kids } where
  kind := h.kind
  outside := h.outside
  refs := h.refs
  dir j x hj htype := by
    have hget := getElem?_set_of_some hb block'
    by_cases hdj : d = j
    · subst hdj
      obtain rfl : inode = x := Option.some.inj (hd.symm.trans hj)
      refine ⟨b, block', haddr, (hget b).trans (if_pos rfl), hftype, kids, hentries, ?_, hkids⟩
      exact Function.update_self ..
    · obtain ⟨c, y, hyaddr, hy, hdir⟩ := h.dir j x hj htype
      have hbc : b ≠ c := by
        rintro rfl
        exact hdj (hs.addr_inj d j inode x b hd hj haddr hyaddr)
      refine ⟨c, y, hyaddr, ?_, hdir.ftype, ?_⟩
      · show (v.data.set b block')[c]? = some y
        rw [hget, if_neg hbc, hy]
      · simpa [Function.update_of_ne (Ne.symm hdj)] using hdir.entries

end Represents

end OsLab.Vsfs
