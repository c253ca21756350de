import OsLab.Lfs.Validity

/-!
# The contents of files

In every reachable state the pointers of a file lead to data blocks, so a log that only grows keeps
the contents of every file that is not written.

* **`FileAt`**, **`FilesAt`** -- a file has a pointer for each of its blocks, and those that are set
  lead to data blocks.
* **`FilesAt.settle`** -- two numbers are remapped, each to nothing, to a directory or to a file of
  this kind.
* **`pointers_potentialWrites`**, **`getElem?_writtenBlocks`** -- the pointers that a write sets,
  and the blocks behind them.
* **`FilesAt.run`**, **`filesAt_reachable`** -- the step and the run.
-/

namespace OsLab.Lfs

open LFS

/-- A file has a pointer for each of its blocks, and those that are set lead to data blocks. -/
structure FileAt (disk : List Block) (inode : Inode) : Prop where
  length : inode.pointers.length = NUM_INODE_PTRS
  data : ∀ a, some a ∈ inode.pointers → ∃ contents, disk[a]? = some (.dataBlock contents)

def FilesAt (s : LFS) : Prop :=
  ∀ i inode, s.inodeOf i = some inode → inode.type = .regular → FileAt s.disk inode

variable {s t u : LFS} {i p : Inum} {inode parentInode : Inode} {disk disk' : List Block}

/-- A longer log has the blocks of the file where they were. -/
theorem FileAt.extend (h : FileAt disk inode) (hdisk : Extends disk disk') :
    FileAt disk' inode where
  length := h.length
  data a ha := by
    obtain ⟨contents, hget⟩ := h.data a ha
    refine ⟨contents, hdisk a _ hget fun entries heq => ?_⟩
    cases heq

theorem FileAt.congr {inode' : Inode} (h : FileAt disk inode)
    (hpointers : inode'.pointers = inode.pointers) : FileAt disk inode' where
  length := hpointers ▸ h.length
  data a ha := h.data a (hpointers ▸ ha)

/-- A new file has no blocks. -/
theorem fileAt_new (disk : List Block) : FileAt disk (makeInode .regular 0 1) where
  length := rfl
  data a ha := by
    have hnone := List.eq_of_mem_replicate ha
    cases hnone

/-- Where inode number `j` leads once `blocks` are logged behind `disk`: nowhere, or to one of
them. -/
inductive Leads (disk blocks : List Block) (u : LFS) (j : Inum) : Prop where
  | free (h : u.inodeMap j = none)
  | logged (k : Nat) (inode : Inode) (hget : blocks[k]? = some (.inode inode))
      (hmap : u.inodeMap j = some (disk.length + k))
      (hfile : inode.type = .regular → FileAt (disk ++ blocks) inode)

/-- Two numbers are remapped; every other file is where it was. -/
theorem FilesAt.settle (h : FilesAt s) (hs : Valid s) (ht : Settled u t) {blocks : List Block}
    (hu : u.disk = s.disk ++ blocks)
    (hother : ∀ j, j ≠ p → j ≠ i → u.inodeMap j = s.inodeMap j)
    (hp : Leads s.disk blocks u p) (hi : Leads s.disk blocks u i) : FilesAt t := by
  have hdisk : Extends s.disk t.disk := Extends.trans (hu ▸ extends_append _ _) ht.extend
  have hleads : ∀ j, Leads s.disk blocks u j → ∀ inode, t.inodeOf j = some inode →
      inode.type = .regular → FileAt t.disk inode := by
    intro j hj inode hinode htype
    obtain ⟨a, ha, hget⟩ := inodeOf_eq_some.mp hinode
    rw [ht.inodeMap] at ha
    cases hj with
    | free hnone =>
      rw [hnone] at ha
      cases ha
    | logged k logged hk hmap hfile =>
      have hlogged := ht.get hu hk (by simp)
      rw [hmap] at ha
      rw [← Option.some.inj ha, hlogged] at hget
      cases hget
      exact (hfile htype).extend (hu ▸ ht.extend)
  intro j inode hinode htype
  by_cases hjp : j = p
  · exact hleads j (hjp ▸ hp) inode hinode htype
  · by_cases hji : j = i
    · exact hleads j (hji ▸ hi) inode hinode htype
    · -- this number leads where it led
      have hmap : t.inodeMap j = s.inodeMap j := ht.inodeMap ▸ hother j hjp hji
      rw [(hs.frame hdisk hmap).1] at hinode
      exact (h j inode hinode htype).extend hdisk

/-- A directory's inode is no file. -/
theorem Leads.directory {blocks : List Block} {j : Inum} {k : Nat}
    (hget : blocks[k]? = some (.inode inode)) (hmap : u.inodeMap j = some (s.disk.length + k))
    (htype : inode.type = .directory) : Leads s.disk blocks u j := by
  refine .logged k inode hget hmap fun hfile => ?_
  rw [htype] at hfile
  cases hfile

/-! ## Operations -/

section Operations

variable {path : Str} {rc : Int}

theorem FilesAt.create (h : FilesAt s) (hs : Valid s) {isFile : Bool} {pick : Nat}
    (hrun : s.create path isFile pick = .ok (rc, t)) : FilesAt t := by
  rcases create_cases hrun with ⟨_, e, rfl⟩ | ⟨_, s', p, i, parentInode, name, k, size, entries,
    hplan, rfl⟩
  · exact h
  · obtain ⟨addrs, blocks, hp⟩ := hs.parent hplan.walk
    obtain ⟨e, rfl⟩ := hplan.frame
    have hne : i ≠ p := ne_of_isDir (isDir_free hplan.free) hp.isDir
    cases isFile with
    | true =>
      rw [createWrites_file]
      refine FilesAt.settle (p := p) (i := i) h hs (settled (hs.checkpoint.append _) _) rfl ?_ ?_ ?_
      · intro j hjp hji
        dsimp only
        rw [Function.update_of_ne hji, Function.update_of_ne hjp, Function.update_of_ne hji]
      · -- the parent, behind the block with the new entry
        refine .directory (k := 1) rfl ?_ hp.type
        dsimp only
        rw [Function.update_of_ne hne.symm, Function.update_self]
      · refine .logged 2 _ rfl ?_ fun _ => fileAt_new _
        exact Function.update_self ..
    | false =>
      rw [createWrites_dir]
      refine FilesAt.settle (p := p) (i := i) h hs (settled (hs.checkpoint.append _) _) rfl ?_ ?_ ?_
      · intro j hjp hji
        dsimp only
        rw [Function.update_of_ne hji, Function.update_of_ne hjp, Function.update_of_ne hji]
      · -- the parent, behind the blocks of both directories
        refine .directory (k := 2) rfl ?_ hp.type
        dsimp only
        rw [Function.update_of_ne hne.symm, Function.update_self]
      · exact .directory (k := 3) rfl (Function.update_self ..) rfl

theorem FilesAt.link (h : FilesAt s) (hs : Valid s) {srcpath dstpath : Str}
    (hrun : s.fileLink srcpath dstpath = .ok (rc, t)) : FilesAt t := by
  rcases fileLink_cases hrun with ⟨_, e, rfl⟩ | ⟨_, s', i, p, inode, parentInode, name, k, size,
    entries, hplan, rfl⟩
  · exact h
  · obtain ⟨w, s₁, hsrc, _, hdst⟩ := hplan.src
    obtain ⟨e, rfl⟩ := walkPath_frame hsrc
    obtain ⟨addrs, blocks, hp⟩ := (hs.errors e).parent hdst
    obtain ⟨e', rfl⟩ := walkPath_frame hdst
    have hi := hs.inodeOf hplan.read
    have hne : i ≠ p := ne_of_isDir (isDir_regular hi hplan.type) hp.isDir
    rw [linkWrites_eq]
    refine FilesAt.settle (p := p) (i := i) h hs (settled (hs.checkpoint.append _) _) rfl ?_ ?_ ?_
    · intro j hjp hji
      dsimp only
      rw [Function.update_of_ne hji, Function.update_of_ne hjp]
      rfl
    · refine .directory (k := 1) rfl ?_ hp.type
      dsimp only
      rw [Function.update_of_ne hne.symm, Function.update_self]
      rfl
    · -- the file has one more link, and the pointers it had
      refine .logged 2 _ rfl ?_ fun _ => ?_
      · exact Function.update_self ..
      · exact ((h i inode hi hplan.type).extend (extends_append _ _)).congr rfl

theorem FilesAt.delete (h : FilesAt s) (hs : Valid s)
    (hrun : s.fileDelete path = .ok (rc, t)) : FilesAt t := by
  rcases fileDelete_cases hrun with ⟨_, e, rfl⟩ | ⟨_, s', i, p, inode, parentInode, name, k, slot,
    entries, hplan, rfl⟩
  · exact h
  · obtain ⟨addrs, blocks, hp⟩ := (hs.errors []).parent hplan.walk
    obtain ⟨_, _, hlookup, _⟩ := walkPath_parent hplan.walk
    obtain ⟨e, rfl⟩ := hplan.frame
    have hi := hs.inodeOf hplan.read
    have hne : i ≠ p := ne_of_isDir (isDir_regular hi hplan.type) hp.isDir
    have hpos := hp.refs_pos (hs.errors []) hi hplan.type hlookup
    by_cases hlast : inode.refs = 1
    · rw [unlinked, if_pos hlast, deleteWrites_last _ i p (by omega)]
      refine FilesAt.settle (p := p) (i := i) h hs (settled (hs.checkpoint.append _) _) rfl ?_ ?_ ?_
      · intro j hjp hji
        dsimp only
        rw [Function.update_of_ne hjp, Function.update_of_ne hji]
      · exact .directory (k := 1) rfl (Function.update_self ..) hp.type
      · -- nothing is logged for the file
        refine .free ?_
        dsimp only
        rw [Function.update_of_ne hne, Function.update_self]
    · rw [unlinked, if_neg hlast, deleteWrites_more _ i p (by omega)]
      refine FilesAt.settle (p := p) (i := i) h hs (settled (hs.checkpoint.append _) _) rfl ?_ ?_ ?_
      · intro j hjp hji
        dsimp only
        rw [Function.update_of_ne hji, Function.update_of_ne hjp]
      · refine .directory (k := 1) rfl ?_ hp.type
        dsimp only
        rw [Function.update_of_ne hne.symm, Function.update_self]
      · refine .logged 2 _ rfl ?_ fun _ => ?_
        · exact Function.update_self ..
        · exact ((h i inode hi hplan.type).extend (extends_append _ _)).congr rfl

end Operations

/-! ## Writing -/

section Writes

variable {offset ptr n : Nat} {contents : List Str}

theorem length_potentialWrites (offset ptr n : Nat) :
    (potentialWrites offset ptr n).length = min n (NUM_INODE_PTRS - offset) := by
  induction n generalizing offset ptr with
  | zero => exact (Nat.zero_min _).symm
  | succ n ih =>
    unfold potentialWrites
    split
    · rw [List.length_cons, ih]
      omega
    · rw [List.length_nil]
      omega

/-- A write sets the pointers from `offset` on, one after the other, to the end of the log and
behind. -/
theorem pointers_potentialWrites (hlength : inode.pointers.length = NUM_INODE_PTRS) (k : Nat) :
    ((potentialWrites offset ptr n).foldl (fun inode w => pointTo inode w.1 w.2)
        inode).pointers[k]? =
      if offset ≤ k ∧ k < offset + (potentialWrites offset ptr n).length then
        some (some (ptr + (k - offset)))
      else inode.pointers[k]? := by
  induction n generalizing offset ptr inode with
  | zero =>
    unfold potentialWrites
    rw [if_neg (by rw [List.length_nil]; omega)]
    rfl
  | succ n ih =>
    unfold potentialWrites
    by_cases hoffset : offset < NUM_INODE_PTRS
    · have hlength' : (pointTo inode offset ptr).pointers.length = NUM_INODE_PTRS :=
        List.length_set.trans hlength
      rw [if_pos hoffset, List.foldl_cons, ih hlength', List.length_cons]
      rcases Nat.lt_trichotomy k offset with hlt | heq | hgt
      · -- in front of what is written
        rw [if_neg (by omega), if_neg (by omega)]
        exact List.getElem?_set_ne (by omega)
      · -- the first write
        subst heq
        rw [if_neg (by omega), if_pos (by omega), Nat.sub_self]
        exact List.getElem?_set_self (hlength ▸ hoffset)
      · by_cases hk : k < offset + ((potentialWrites (offset + 1) (ptr + 1) n).length + 1)
        · rw [if_pos (by omega), if_pos (by omega)]
          congr 2
          omega
        · rw [if_neg (by omega), if_neg (by omega)]
          exact List.getElem?_set_ne (by omega)
    · rw [if_neg hoffset, if_neg (by rw [List.length_nil]; omega)]
      rfl

theorem foldl_pointTo_size (writes : List (Nat × Nat)) (inode : Inode) :
    (writes.foldl (fun inode w => pointTo inode w.1 w.2) inode).size = inode.size ∧
      (writes.foldl (fun inode w => pointTo inode w.1 w.2) inode).pointers.length =
        inode.pointers.length := by
  induction writes generalizing inode with
  | nil => exact ⟨rfl, rfl⟩
  | cons w writes ih =>
    obtain ⟨hsize, hlength⟩ := ih (pointTo inode w.1 w.2)
    exact ⟨hsize, hlength.trans List.length_set⟩

/-- The contents that are written have a data block each. -/
theorem getElem?_writtenBlocks {writes : List (Nat × Nat)} (k : Nat) :
    (writtenBlocks contents writes)[k]? = (contents.take writes.length)[k]?.map .dataBlock := by
  unfold writtenBlocks
  rw [List.getElem?_map]

/-- The pointers of the inode that is logged: new ones where it was written, the old ones
elsewhere. -/
theorem writtenInode_pointers {writes : List (Nat × Nat)}
    (hwrites : writes = potentialWrites offset ptr n)
    (hlength : inode.pointers.length = NUM_INODE_PTRS) (k : Nat) :
    (writtenInode inode offset writes).pointers[k]? =
      if offset ≤ k ∧ k < offset + writes.length then some (some (ptr + (k - offset)))
      else inode.pointers[k]? := by
  subst hwrites
  exact @pointers_potentialWrites { inode with
    size := offset + (potentialWrites offset ptr n).length } offset ptr n hlength k

/-- The inode that `file_write` logs is a file, behind its data blocks. -/
theorem FileAt.written (h : FileAt disk inode) {writes : List (Nat × Nat)} {logged : Block}
    (hwrites : writes = potentialWrites offset disk.length contents.length) :
    FileAt (disk ++ (writtenBlocks contents writes ++ [logged]))
      (writtenInode inode offset writes) where
  length := (foldl_pointTo_size writes _).2.trans h.length
  data a ha := by
    obtain ⟨k, hk⟩ := List.getElem?_of_mem ha
    rw [writtenInode_pointers hwrites h.length] at hk
    split at hk
    · -- a pointer that is set leads to a block that is logged with it
      rename_i hin
      have hlen : writes.length ≤ contents.length := by
        rw [hwrites, length_potentialWrites]
        omega
      obtain rfl := Option.some.inj (Option.some.inj hk)
      have hlt : k - offset < (contents.take writes.length).length := by
        rw [List.length_take]
        omega
      refine ⟨(contents.take writes.length)[k - offset], ?_⟩
      rw [List.getElem?_append_right (Nat.le_add_right ..), Nat.add_sub_cancel_left,
        List.getElem?_append_left (by unfold writtenBlocks; rwa [List.length_map]),
        getElem?_writtenBlocks, List.getElem?_eq_getElem hlt]
      rfl
    · exact (h.extend (extends_append _ _)).data a (List.mem_of_getElem? hk)

/-- A file is logged again, behind its data blocks. -/
theorem FilesAt.rewrite (h : FilesAt s) (hs : Valid s) {newInode : Inode} {data : List Block}
    (hfile : FileAt (s.disk ++ (data ++ [.inode newInode])) newInode) (ht : Settled u t)
    (hu : u.disk = s.disk ++ (data ++ [.inode newInode]))
    (hmap : u.inodeMap = Function.update s.inodeMap i (some (s.disk ++ data).length)) :
    FilesAt t := by
  have hlogged : Leads s.disk (data ++ [.inode newInode]) u i := by
    refine .logged data.length newInode (getElem?_append_length data _ []) ?_ fun _ => hfile
    rw [hmap, Function.update_self, List.length_append]
  refine h.settle hs ht hu ?_ hlogged hlogged
  intro j hj _
  rw [hmap, Function.update_of_ne hj]

theorem FilesAt.write (h : FilesAt s) (hs : Valid s) {path : Str} {rc offset numBlks : Int}
    {draw : Nat → Char} (hrun : s.fileWrite path offset numBlks draw = .ok (rc, t)) :
    FilesAt t := by
  rcases fileWrite_cases hrun with ⟨_, e, rfl⟩ | ⟨s', i, inode, hplan, _, written, _, hwrites⟩
  · exact h
  · obtain ⟨e, rfl⟩ := hplan.frame
    rw [fileWrites_eq _ i inode _ _ rfl] at hwrites
    obtain ⟨_, rfl⟩ := Prod.mk.inj hwrites
    have hfile := h i inode (hs.inodeOf hplan.read) hplan.type
    exact h.rewrite hs (hfile.written rfl) (settled (hs.checkpoint.append _) _) rfl rfl

end Writes

/-! ## Every reachable state -/

/-- Every operation leaves the files readable. -/
theorem FilesAt.run (h : FilesAt s) (hs : Valid s) {op : Op} {rc : Int}
    (hrun : op.run s = .ok (rc, t)) : FilesAt t := by
  cases op with
  | fileCreate path pick => exact FilesAt.create (s := s.errorClear) h (hs.errors []) hrun
  | dirCreate path pick => exact FilesAt.create (s := s.errorClear) h (hs.errors []) hrun
  | fileLink srcpath dstpath => exact h.link hs hrun
  | fileWrite path offset numBlks draw => exact h.write hs hrun
  | fileDelete path => exact h.delete hs hrun
  | sync =>
    obtain ⟨_, rfl⟩ := Prod.mk.inj (Except.ok.inj hrun)
    have hdisk := extends_set_checkpoint hs.checkpoint s.cr
    intro i inode hinode htype
    have hsame : s.errorClear.crSync.inodeOf i = s.inodeOf i :=
      (hs.frame (t := s.errorClear.crSync) hdisk rfl).1
    exact (h i inode (hsame.symm.trans hinode) htype).extend hdisk

theorem filesAt_new (noForceCheckpoints : Bool) (inodePolicy : InodePolicy) :
    FilesAt (LFS.new false noForceCheckpoints inodePolicy) := by
  intro i inode hinode htype
  by_cases hi : i = ROOT_INODE
  · subst hi
    cases hinode
    cases htype
  · rw [inodeOf_free (new_inodeMap noForceCheckpoints inodePolicy hi)] at hinode
    cases hinode

/-- So they are in every reachable state. -/
theorem filesAt_reachable {noForceCheckpoints : Bool} {inodePolicy : InodePolicy}
    (h : (fileSystem false noForceCheckpoints inodePolicy).Reachable s) : FilesAt s := by
  refine (h.invariant (I := fun s => Valid s ∧ FilesAt s) ?_ ?_).2
  · intro s hs
    rw [show s = _ from hs]
    exact ⟨valid_new, filesAt_new _ _⟩
  · intro s a t hs hstep
    have hrun := next_eq_some.mp hstep
    exact ⟨hs.1.run hrun, hs.2.run hs.1 hrun⟩

end OsLab.Lfs
