import OsLab.Vsfs.Consistency

/-!
# Unlinking what has just been made

A free inode counts one link and a free block has no data, whatever they held before. So the store
that a new name was entered in comes back when the name is unlinked.

* **`Blank`**, **`blank_reachable`** -- what is free has been wiped, in every reachable state.
* **`freedInode_created`**, **`freedInode_written`** -- freeing what has just been taken gives back
  the store with the entry.
* **`unlink_entered`** -- and taking out the entry gives back the store.
* **`unlink_undoes`** -- for a file that was created, created and written, or linked.
-/

namespace OsLab.Vsfs

/-! ## What is free is blank -/

/-- A free inode counts one link. -/
def Inode.Blank (x : Inode) : Prop := x.ftype = .free → x.refCnt = 1

/-- A free block has no data. -/
def Block.Blank (x : Block) : Prop := x.ftype = .free → x.data = []

structure Blank (v : Store) : Prop where
  inode : ∀ x ∈ v.inodes, x.Blank
  block : ∀ x ∈ v.data, x.Blank

section Blank

variable {s t : Fs} {g : LinkGraph Nat Str} {p q n : Str} {i d b fb : Nat} {inode : Inode}
  {block fblock : Block}

theorem forall_mem_set {α : Type*} {P : α → Prop} {xs : List α} {y : α} (h : ∀ x ∈ xs, P x)
    (hy : P y) : ∀ x ∈ xs.set i y, P x := by
  intro x hx
  obtain hold | hnew := List.mem_or_eq_of_mem_set hx
  · exact h x hold
  · rwa [hnew]

theorem Inode.Blank.of_live {x : Inode} (h : x.ftype ≠ .free) : x.Blank :=
  fun hfree => absurd hfree h

theorem Block.Blank.of_live {x : Block} (h : x.ftype ≠ .free) : x.Blank :=
  fun hfree => absurd hfree h

/-- A directory's block is not free, so nothing is asked of it. -/
theorem Block.Blank.appendEntry (hdir : block.ftype = .d) : (block.appendEntry n i).Blank := by
  apply Block.Blank.of_live
  simp [Block.appendEntry, hdir]

namespace Blank

theorem fresh (numInodes numData : Nat) : Blank (fresh numInodes numData).toStore where
  inode x hx := by
    obtain ⟨i, hget⟩ := List.mem_iff_getElem?.mp hx
    rcases fresh_inode hget with ⟨_, rfl⟩ | ⟨_, rfl⟩
    · exact .of_live (by simp)
    · exact fun _ => rfl
  block x hx := by
    obtain ⟨b, hget⟩ := List.mem_iff_getElem?.mp hx
    rcases fresh_block hget with ⟨_, rfl⟩ | ⟨_, rfl⟩ <;> exact fun _ => rfl

/-- A new file leaves everything that is free as it was. So do a new directory, a new name and new
data. -/
theorem createdFile (h : Blank s.toStore) (hdir : block.ftype = .d) :
    Blank (createdFile s i b block n).toStore where
  inode := forall_mem_set h.inode (.of_live (by simp))
  block := forall_mem_set h.block (.appendEntry hdir)

theorem createdDir (h : Blank s.toStore) (hlive : inode.ftype ≠ .free) (hdir : block.ftype = .d) :
    Blank (createdDir s i fb fblock d inode b block n).toStore where
  inode := forall_mem_set (forall_mem_set h.inode (.of_live (by simp))) (.of_live hlive)
  block := forall_mem_set (forall_mem_set h.block (.of_live (by simp [newDirBlock])))
    (.appendEntry hdir)

theorem linked (h : Blank s.toStore) (hlive : inode.ftype ≠ .free) (hdir : block.ftype = .d) :
    Blank (linked s i inode b block n).toStore where
  inode := forall_mem_set h.inode (.of_live hlive)
  block := forall_mem_set h.block (.appendEntry hdir)

theorem written (h : Blank s.toStore) (hlive : inode.ftype ≠ .free) (data : Str) :
    Blank (written s i inode fb fblock data).toStore where
  inode := forall_mem_set h.inode (.of_live hlive)
  block := forall_mem_set h.block (.of_live (by simp [newDataBlock]))

/-- The last link of a file leaves its inode with the count it had, which is 1. -/
theorem dropLink {v : Store} (hs : Storage s.toStore) (h : Blank s.toStore)
    (hfile : IsFile s g p i inode) (hdrop : s.dropLink i inode = .ok { s with toStore := v }) :
    Blank v := by
  have hlive := hfile.live
  by_cases hlast : inode.refCnt = 1
  · have hinode : ∀ x ∈ s.inodes.set i inode.free, x.Blank :=
      forall_mem_set h.inode fun _ => hlast
    cases haddr : inode.addr with
    | none =>
      have hfreed := dropLink_inode hs hfile.inodes_eq hlive hlast haddr
      cases hfreed.symm.trans hdrop
      exact ⟨hinode, h.block⟩
    | some ab =>
      -- the block is freed with the inode
      obtain ⟨ablock, hablock, hatype⟩ := hs.addr_block i inode ab hfile.inodes_eq haddr
      rw [hfile.ftype] at hatype
      have hfreed := dropLink_block hs hfile.inodes_eq hlive hlast haddr hablock hatype
      cases hfreed.symm.trans hdrop
      exact ⟨hinode, forall_mem_set h.block fun _ => rfl⟩
  · -- the inode stays in use
    cases (dropLink_count hfile.inodes_eq hlast).symm.trans hdrop
    exact ⟨forall_mem_set h.inode (.of_live hlive), h.block⟩

theorem deleted {v : Store} (h : Blank v) (hdir : block.ftype = .d) :
    Blank (deleted s v b block p n).toStore where
  inode := h.inode
  block := forall_mem_set h.block (.of_live (by simp [Block.removeEntry, hdir]))

theorem doCreate (h : Consistent s g) (hb : Blank s.toStore) (hq : q ∈ s.dirs) {ftype : FType}
    (hftype : ftype = .f ∨ ftype = .d) {rc : Int} (hrun : s.doCreate ftype q n = .ok (rc, t)) :
    Blank t.toStore := by
  obtain ⟨d, inode, b, block, hdir⟩ := h.exists_isDir hq
  have hblock := hdir.dirBlock.ftype
  rcases doCreate_cases (n := n) h hdir hftype with hnone | ⟨i, _, _, _, hcreated⟩
  · cases hnone.symm.trans hrun
    exact hb
  · rcases hcreated with ⟨_, hcreated⟩ | ⟨_, fb, fblock, _, _, hcreated⟩
    · cases hcreated.symm.trans hrun
      exact hb.createdFile hblock
    · cases hcreated.symm.trans hrun
      exact hb.createdDir (h.storage.addr_used hdir.inodes_eq hdir.addr).1 hblock

theorem doLink (h : Consistent s g) (hb : Blank s.toStore) (hq : q ∈ s.dirs) (hn : ValidName n)
    (hp : s.files ≠ [] → p ∈ s.files) {rc : Int} (hrun : s.doLink q n p = .ok (rc, t)) :
    Blank t.toStore := by
  obtain ⟨d, inode, b, block, hdir⟩ := h.exists_isDir hq
  rcases doLink_cases h hdir hn hp with hnone | ⟨_, i, tinode, hfile, hlinked⟩
  · cases hnone.symm.trans hrun
    exact hb
  · cases hlinked.symm.trans hrun
    exact hb.linked hfile.live hdir.dirBlock.ftype

theorem doDelete (h : Consistent s g) (hb : Blank s.toStore) (hp : s.files ≠ [] → p ∈ s.files)
    {rc : Int} (hrun : s.doDelete p = .ok (rc, t)) : Blank t.toStore := by
  rcases doDelete_cases h hp with hnone | ⟨i, inode, v, b, block, n, _, hfile, hdrop, hdir,
    hdeleted, _⟩
  · cases hnone.symm.trans hrun
    exact hb
  · cases hdeleted.symm.trans hrun
    exact (hb.dropLink h.storage hfile hdrop).deleted hdir

theorem doAppend (h : Consistent s g) (hb : Blank s.toStore) (hp : s.files ≠ [] → p ∈ s.files)
    {data : Str} {rc : Int} (hrun : s.doAppend p data = .ok (rc, t)) : Blank t.toStore := by
  rcases doAppend_cases h hp data with hfull | ⟨i, inode, hfile, _, fb, fblock, _, _, hwritten⟩
  · cases hfull.symm.trans hrun
    exact hb
  · cases hwritten.symm.trans hrun
    exact hb.written hfile.live data

/-- An operation leaves what is free blank. -/
theorem run (h : Consistent s g) (hb : Blank s.toStore) {op : Op} (hop : op.Drawn s) {rc : Int}
    (hrun : op.run s = .ok (rc, t)) : Blank t.toStore := by
  cases op with
  | creat parent nfile => exact doCreate h hb hop.1 (Or.inl rfl) hrun
  | mkdir parent nfile => exact doCreate h hb hop.1 (Or.inr rfl) hrun
  | link parent nfile target => exact doLink h hb hop.1.1 hop.1.2 hop.2 hrun
  | unlink dfile => exact doDelete h hb hop hrun
  | append afile data => exact doAppend h hb hop hrun

end Blank

/-- Every state a workload reaches is consistent, and what is free in it is blank. -/
theorem blank_reachable {numInodes numData : Nat} (h : (workload numInodes numData).Reachable s) :
    ∃ g, Consistent s g ∧ Blank s.toStore := by
  refine h.invariant (I := fun s => ∃ g, Consistent s g ∧ Blank s.toStore) ?_ ?_
  · intro s hinit
    obtain ⟨hi, hd⟩ := pos_of_new hinit
    obtain rfl : Vsfs.fresh numInodes numData = s :=
      Except.ok.inj ((new_ok hi hd).symm.trans hinit)
    exact ⟨rootGraph, fresh_consistent hi hd, .fresh numInodes numData⟩
  · rintro s op t ⟨g, hs, hb⟩ ⟨hop, rc, hrun⟩
    obtain ⟨rc', t', g', hrun', ht⟩ := hs.run_ok hop
    cases hrun'.symm.trans hrun
    exact ⟨g', ht, hb.run hs hop hrun⟩

end Blank

/-! ## What `dropLink` takes back -/

section Undo

variable {s t : Fs} {g : LinkGraph Nat Str} {p q n : Str} {i d b fb : Nat} {inode : Inode}
  {block fblock : Block}

/-- The store with the entry of a new name, and nothing else new. -/
def Store.enter (v : Store) (b : Nat) (block : Block) (n : Str) (i : Nat) : Store :=
  { v with data := v.data.set b (block.appendEntry n i) }

/-- An entry that was just appended is found and taken out. -/
theorem removeEntry_appendEntry (hfree : block.dirList.any (n = ·.1) = false) :
    (block.appendEntry n i).removeEntry n = block := by
  have hnone : ∀ e ∈ block.dirList, ¬ e.1 = n := by
    intro e he heq
    have hne := List.any_eq_false.mp hfree e he
    simp [heq] at hne
  -- so the first entry of that name is the last one
  have herase : (block.dirList ++ [(n, i)]).eraseP (·.1 = n) = block.dirList := by
    rw [List.eraseP_append_right _ (by simpa using hnone)]
    simp
  simp only [Block.appendEntry, Block.removeEntry, herase]
  simp

/-- The inode of a new file was blank, so freeing it gives it back. -/
theorem freedInode_created (h : Storage s.toStore) (hb : Blank s.toStore) (hi : i < s.numInodes)
    (hunused : ¬ s.InodeUsed i) :
    freedInode (createdFile s i b block n).toStore i ⟨.f, none, 1⟩ =
      s.toStore.enter b block n i := by
  obtain ⟨⟨ftype, addr, refCnt⟩, hold, rfl, rfl⟩ := h.free_inode hi hunused
  obtain rfl : refCnt = 1 := hb.inode _ (List.mem_of_getElem? hold) rfl
  have hinodes := set_set_of_some hold ⟨.f, none, 1⟩
  have hbitmap := h.ibits.unmarked_marked hi hunused
  simp only [freedInode, createdFile, Store.enter, Inode.free, hinodes, hbitmap]

/-- The block of new data was blank, so freeing it gives it back too. -/
theorem freedInode_written (h : Storage s.toStore) (hb : Blank s.toStore)
    (hfb : s.data[fb]? = some fblock) (hfree : fblock.ftype = .free) (i : Nat) (inode : Inode)
    (data : Str) :
    freedInode (freedBlock (written s i inode fb fblock data).toStore fb (newDataBlock fblock data))
      i { inode with addr := some fb } = freedInode s.toStore i inode := by
  have hunused : ¬ s.BlockUsed fb := fun hused => (blockUsed_iff hfb).mp hused hfree
  -- freeing leaves the fields of a directory as they were
  obtain ⟨ftype, dirUsed, maxUsed, dirList, content⟩ := fblock
  obtain rfl : ftype = .free := hfree
  obtain rfl : content = [] := hb.block _ (List.mem_of_getElem? hfb) rfl
  have hdata := set_set_of_some hfb ⟨.f, dirUsed, maxUsed, dirList, data⟩
  have hbitmap := h.dbits.unmarked_marked (h.block_lt hfb) hunused
  simp only [freedInode, freedBlock, written, newDataBlock, Inode.free, List.set_set, hdata,
    hbitmap]

theorem decRefCnt_incRefCnt (x : Inode) : x.incRefCnt.decRefCnt = x := by
  simp [Inode.incRefCnt, Inode.decRefCnt]

/-! ## Unlinking the new name -/

/-- Where `dropLink` leaves the entry alone, unlinking leaves nothing of it. -/
theorem unlink_entered (h : Consistent s g) (hdir : IsDir s g q d inode b block) (hq : q ∈ s.dirs)
    (hn : ValidName n) (hcan : CanEnter block n) {x : Inode}
    (hname : t.nameToInum = Function.update s.nameToInum (Fs.fullName q n) (some i))
    (hp : Fs.fullName q n ∈ t.files) (hx : t.inodes[i]? = some x) (hfile : x.ftype = .f)
    (hdrop : t.dropLink i x = .ok { t with toStore := s.toStore.enter b block n i }) :
    ∃ u, (Op.unlink (Fs.fullName q n)).run t = .ok (0, u) ∧ u.toStore = s.toStore := by
  obtain ⟨cs, hcs, rfl⟩ := h.paths.form q hq
  have hself : t.nameToInum (Fs.fullName (dirPath cs) n) = some i := by
    rw [hname, Function.update_self]
  -- the directory's path is not the new one
  have hparent : t.nameToInum (dirPath cs) = some d := by
    have hnew := h.paths.not_mem_dirs hq hn hdir.name (hcan.names_ne hdir)
    rw [hname, Function.update_of_ne (ne_of_mem_of_not_mem hq hnew), hdir.name]
  have hentered : (s.toStore.enter b block n i).data[b]? = some (block.appendEntry n i) := by
    rw [Store.enter, getElem?_set_of_some hdir.data_eq, if_pos rfl]
  have hentry : (n, i) ∈ (block.appendEntry n i).dirList := by simp [Block.appendEntry]
  have hdelete := deleteFile_eq hcs hn hp hself hx hfile hdrop hparent hdir.inodes_eq hdir.addr
    hentered hdir.dirBlock.ftype hentry
  refine ⟨_, (doDelete_eq hp).trans hdelete, ?_⟩
  -- the parent's block is the one before the entry
  have hdata := set_set_of_some hdir.data_eq (block.appendEntry n i)
  simp only [deleted, Store.enter, removeEntry_appendEntry hcan.2, hdata]

theorem mem_newFile : p ∈ (newFile s p i).files := by simp [newFile]

/-- State `t` has the new empty file `p` with inode `i`; but for that inode it is `v`. -/
structure Created (s : Fs) (v : Store) (p : Str) (i : Nat) (t : Fs) (g : LinkGraph Nat Str) :
    Prop where
  consistent : Consistent t g
  blank : Blank t.toStore
  isFile : IsFile t g p i ⟨.f, none, 1⟩
  mem : p ∈ t.files
  name : t.nameToInum = Function.update s.nameToInum p (some i)
  freed : freedInode t.toStore i ⟨.f, none, 1⟩ = v

/-- What a successful `creat` leaves: a new empty file, in a store that has changed by its inode and
its entry alone. -/
theorem creat_created (h : Consistent s g) (hb : Blank s.toStore)
    (hdir : IsDir s g q d inode b block) (hq : q ∈ s.dirs) (hn : ValidName n)
    (hrun : (Op.creat q n).run s = .ok (0, t)) :
    CanEnter block n ∧
      ∃ i g', Created s (s.toStore.enter b block n i) (Fs.fullName q n) i t g' := by
  rcases doCreate_cases (n := n) h hdir (Or.inl rfl) with hnone | ⟨i, hi, hunused, hcan, hcreated⟩
  · cases hnone.symm.trans hrun
  · rcases hcreated with ⟨_, hcreated⟩ | ⟨hne, _⟩
    · cases hcreated.symm.trans hrun
      obtain ⟨old, hold, _⟩ := h.storage.free_inode hi hunused
      have hinode : (s.inodes.set i ⟨.f, none, 1⟩)[i]? = some ⟨.f, none, 1⟩ := by
        rw [getElem?_set_of_some hold, if_pos rfl]
      refine ⟨hcan, i, g.addFile d n i, ?_⟩
      exact {
        consistent := createdFile_consistent h hdir hq hn hcan hi hunused
        blank := hb.createdFile hdir.dirBlock.ftype
        isFile := ⟨Function.update_self .., Function.update_self .., hinode, rfl,
          Function.update_self ..⟩
        mem := mem_newFile
        name := rfl
        freed := freedInode_created h.storage hb hi hunused }
    · cases hne

/-- Dropping the link of the new file leaves the store without its inode. -/
theorem Created.unlink {v : Store} (h : Created s v p i t g) :
    t.dropLink i ⟨.f, none, 1⟩ = .ok { t with toStore := v } := by
  have hdrop := dropLink_inode h.consistent.storage h.isFile.inodes_eq (by simp) rfl rfl
  rwa [h.freed] at hdrop

/-- Dropping the link of the file frees its first block too. -/
theorem Created.append {v : Store} (h : Created s v p i t g) {data : Str} {t' : Fs}
    (hrun : (Op.append p data).run t = .ok (0, t')) :
    ∃ fb, t'.inodes[i]? = some ⟨.f, some fb, 1⟩ ∧ t'.files = t.files ∧
      t'.nameToInum = t.nameToInum ∧
      t'.dropLink i ⟨.f, some fb, 1⟩ = .ok { t' with toStore := v } := by
  rcases doAppend_cases h.consistent (fun _ => h.mem) data with hfull | ⟨j, inode, hfile, _, fb,
    fblock, hfb, hfree, hwritten⟩
  · cases hfull.symm.trans hrun
  · obtain ⟨rfl, rfl⟩ := h.isFile.unique hfile
    cases hwritten.symm.trans hrun
    have ht := written_consistent h.consistent h.isFile rfl hfb hfree data
    have hinode : (written t i ⟨.f, none, 1⟩ fb fblock data).inodes[i]? =
        some ⟨.f, some fb, 1⟩ := by
      rw [written, getElem?_set_of_some h.isFile.inodes_eq, if_pos rfl]
    have hblock : (written t i ⟨.f, none, 1⟩ fb fblock data).data[fb]? =
        some (newDataBlock fblock data) := by
      rw [written, getElem?_set_of_some hfb, if_pos rfl]
    have hdrop := dropLink_block ht.storage hinode (by simp) rfl rfl hblock rfl
    have hfreed := freedInode_written h.consistent.storage h.blank hfb hfree i ⟨.f, none, 1⟩ data
    rw [hfreed, h.freed] at hdrop
    exact ⟨fb, hinode, rfl, rfl, hdrop⟩

/-- A file that was created is undone by unlinking it, also after it has been written. -/
theorem creat_undone (h : Consistent s g) (hb : Blank s.toStore) (hq : q ∈ s.dirs)
    (hn : ValidName n) (hrun : (Op.creat q n).run s = .ok (0, t)) :
    (∃ u, (Op.unlink (Fs.fullName q n)).run t = .ok (0, u) ∧ u.toStore = s.toStore) ∧
      ∀ data t', (Op.append (Fs.fullName q n) data).run t = .ok (0, t') →
        ∃ u, (Op.unlink (Fs.fullName q n)).run t' = .ok (0, u) ∧ u.toStore = s.toStore := by
  obtain ⟨d, inode, b, block, hdir⟩ := h.exists_isDir hq
  obtain ⟨hcan, i, g', hnew⟩ := creat_created h hb hdir hq hn hrun
  constructor
  · exact unlink_entered h hdir hq hn hcan hnew.name hnew.mem hnew.isFile.inodes_eq rfl hnew.unlink
  · intro data t' happend
    obtain ⟨fb, hinode, hfiles, hname, hdrop⟩ := hnew.append happend
    exact unlink_entered h hdir hq hn hcan (hname.trans hnew.name) (hfiles ▸ hnew.mem) hinode rfl
      hdrop

/-- An existing file has a link, so that the new one is not the last. -/
theorem link_undone (h : Consistent s g) (hq : q ∈ s.dirs) (hn : ValidName n) (hp : p ∈ s.files)
    (hrun : (Op.link q n p).run s = .ok (0, t)) :
    ∃ u, (Op.unlink (Fs.fullName q n)).run t = .ok (0, u) ∧ u.toStore = s.toStore := by
  obtain ⟨d, inode, b, block, hdir⟩ := h.exists_isDir hq
  rcases doLink_cases h hdir hn (fun _ => hp) with hnone | ⟨hcan, i, tinode, hfile, hlinked⟩
  · cases hnone.symm.trans hrun
  · cases hlinked.symm.trans hrun
    have hinode : (s.inodes.set i tinode.incRefCnt)[i]? = some tinode.incRefCnt := by
      rw [getElem?_set_of_some hfile.inodes_eq, if_pos rfl]
    -- the file has an entry, so two links are counted now
    have hmore : tinode.incRefCnt.refCnt ≠ 1 := by
      have hrefs := fileRefs_ok h hfile.inodes_eq hfile.ftype
      simp only [Inode.incRefCnt]
      omega
    have hdrop : (newFile (linked s i tinode b block n) (Fs.fullName q n) i).dropLink i
        tinode.incRefCnt = _ := dropLink_count hinode hmore
    have hback : (s.inodes.set i tinode.incRefCnt).set i tinode.incRefCnt.decRefCnt = s.inodes := by
      rw [decRefCnt_incRefCnt]
      exact set_set_of_some hfile.inodes_eq tinode.incRefCnt
    refine unlink_entered h hdir hq hn hcan rfl mem_newFile hinode hfile.ftype ?_
    rw [hdrop]
    simp only [newFile, Paths.learn, linked, Store.enter, hback]

end Undo

/-- **Unlinking undoes.** Unlinking a new name gives back the bitmaps, the inodes and the blocks,
whether a file was created under it, created and written, or linked. -/
theorem unlink_undoes {numInodes numData : Nat} {s : Fs}
    (h : (workload numInodes numData).Reachable s) {parent nfile : Str} (hparent : parent ∈ s.dirs)
    (hnfile : ValidName nfile) :
    (∀ t, (Op.creat parent nfile).run s = .ok (0, t) →
      (∃ u, (Op.unlink (Fs.fullName parent nfile)).run t = .ok (0, u) ∧
        u.toStore = s.toStore) ∧
      ∀ data t', (Op.append (Fs.fullName parent nfile) data).run t = .ok (0, t') →
        ∃ u, (Op.unlink (Fs.fullName parent nfile)).run t' = .ok (0, u) ∧
          u.toStore = s.toStore) ∧
    ∀ target ∈ s.files, ∀ t, (Op.link parent nfile target).run s = .ok (0, t) →
      ∃ u, (Op.unlink (Fs.fullName parent nfile)).run t = .ok (0, u) ∧
        u.toStore = s.toStore := by
  obtain ⟨g, hs, hb⟩ := blank_reachable h
  refine ⟨fun t hrun => ?_, fun target htarget t hrun => ?_⟩
  · exact creat_undone hs hb hparent hnfile hrun
  · exact link_undone hs hparent hnfile htarget hrun

/-- The only free inode and the only free block are taken and given back; with the file there, a
second name for it comes and goes. -/
theorem unlink_undoes_fresh :
    ∃ t, (Op.creat ['/'] ['a']).run (fresh 2 2) = .ok (0, t) ∧
      (∃ t', (Op.append ['/', 'a'] ['x']).run t = .ok (0, t') ∧
        ∃ u, (Op.unlink ['/', 'a']).run t' = .ok (0, u) ∧ u.toStore = (fresh 2 2).toStore) ∧
      ∃ t', (Op.link ['/'] ['b'] ['/', 'a']).run t = .ok (0, t') ∧
        ∃ u, (Op.unlink ['/', 'b']).run t' = .ok (0, u) ∧ u.toStore = t.toStore := by
  have hreach : (workload 2 2).Reachable (fresh 2 2) :=
    Lts.Reachable.of_init (new_ok (by decide) (by decide))
  obtain ⟨t, hcreat, hdirs, hfiles, ⟨t₁, happend⟩, t₂, hlink⟩ :
      ∃ t, (Op.creat ['/'] ['a']).run (fresh 2 2) = .ok (0, t) ∧ t.dirs = [['/']] ∧
        t.files = [['/', 'a']] ∧ (∃ t', (Op.append ['/', 'a'] ['x']).run t = .ok (0, t')) ∧
        ∃ t', (Op.link ['/'] ['b'] ['/', 'a']).run t = .ok (0, t') :=
    ⟨_, rfl, rfl, rfl, ⟨_, rfl⟩, _, rfl⟩
  have hroot : ['/'] ∈ (fresh 2 2).dirs := List.mem_singleton_self _
  have ha : ValidName ['a'] := ⟨by decide, by decide⟩
  have hb : ValidName ['b'] := ⟨by decide, by decide⟩
  have hreach' : (workload 2 2).Reachable t :=
    hreach.step (a := .creat ['/'] ['a']) ⟨⟨hroot, ha⟩, 0, hcreat⟩
  have hundo := (unlink_undoes hreach hroot ha).1 t hcreat
  have hundo' := unlink_undoes hreach' (hdirs ▸ List.mem_singleton_self _) hb
  exact ⟨t, hcreat, ⟨t₁, happend, hundo.2 _ _ happend⟩, t₂, hlink,
    hundo'.2 _ (hfiles ▸ List.mem_singleton_self _) t₂ hlink⟩

end OsLab.Vsfs
