import OsLab.Lib.Alike
import OsLab.Lfs.Liveness

/-!
# Dead blocks are not needed

What a dead block holds makes no difference: if the dead blocks of a log are overwritten with
anything, every operation returns the same, reports the same errors and aborts alike, and so it goes
on for every run. A cleaner may reuse what `determine_liveness` does not mark, as long as inodes are
read through the inode map in memory.

* **`Cleaned`** -- two states that differ in what dead blocks hold.
* **`Cleaned.lookup`**, **`Cleaned.walkPath`** -- whatever is read is live, so it is read alike.
* **`Appended`**, **`Cleaned.settle`** -- what is written is the same, behind the old log.
* **`Cleaned.run`**, **`Hidden.step`** -- an operation and a step of a run keep the difference
  hidden.
* **`cleaning_safe`** -- so no run can tell.
-/

namespace OsLab.Lfs

open LFS

/-- `t` is `s`, apart from what dead blocks hold. -/
structure Cleaned (s t : LFS) : Prop where
  eq : t = { s with disk := t.disk }
  length : t.disk.length = s.disk.length
  live : ∀ a, Live s.target a → t.disk[a]? = s.disk[a]?

/-! ## Reading -/

section Reading

variable {s t : LFS} {i p : Inum} {inode : Inode} {path : Str}

theorem Cleaned.inodeMap (h : Cleaned s t) : t.inodeMap = s.inodeMap := by rw [h.eq]

theorem Cleaned.errors (h : Cleaned s t) (e : List Str) :
    Cleaned { s with errorList := e } { t with errorList := e } where
  eq := by
    show ({ t with errorList := e } : LFS) = { s with errorList := e, disk := t.disk }
    rw [h.eq]
  length := h.length
  live := h.live

theorem index_congr {α : Type*} {xs ys : List α} {a : Nat} (h : ys[a]? = xs[a]?) :
    index ys (some a) = index xs (some a) := by
  simp only [index, position, h]

/-- So both read it, where inodes are read through the map in memory. -/
theorem Cleaned.getInodeFromInumber (h : Cleaned s t) (hmem : s.useDiskCr = false) (i : Inum) :
    t.getInodeFromInumber i = s.getInodeFromInumber i := by
  have hmem' : t.useDiskCr = false := by
    rw [h.eq]
    exact hmem
  unfold LFS.getInodeFromInumber inodeAddress
  rw [hmem, hmem', h.inodeMap]
  cases hi : s.inodeMap i with
  | none => rfl
  | some a =>
    -- the inode of a number in use is live
    show (index t.disk (some a) >>= _) = (index s.disk (some a) >>= _)
    rw [index_congr (h.live a ⟨.inode i, hi⟩)]

/-- A live directory block is read alike. -/
theorem Cleaned.readEntries (h : Cleaned s t) {a : Nat} (hlive : Live s.target a) :
    LFS.readEntries t.disk (some a) = LFS.readEntries s.disk (some a) := by
  unfold LFS.readEntries
  rw [index_congr (h.live a hlive)]

/-- The blocks of an inode in use are live. -/
theorem live_of_mem (hi : s.inodeOf i = some inode) {a : Nat} (ha : some a ∈ inode.pointers) :
    Live s.target a := by
  obtain ⟨k, hk⟩ := List.mem_iff_getElem?.mp ha
  exact ⟨.pointer i k, target_pointer.mpr ⟨inode, hi, hk⟩⟩

theorem Cleaned.lookupLoop (h : Cleaned s t) (name : Str) {pointers : List (Option Nat)}
    (hlive : ∀ a, some a ∈ pointers → Live s.target a) :
    LFS.lookupLoop t.disk name pointers = LFS.lookupLoop s.disk name pointers := by
  induction pointers with
  | nil => rfl
  | cons address pointers ih =>
    have hrest := ih fun a ha => hlive a (List.mem_cons_of_mem _ ha)
    cases address with
    | none => exact hrest
    | some a =>
      unfold LFS.lookupLoop
      rw [h.readEntries (hlive a List.mem_cons_self), hrest]

/-- A lookup reads the inode of a directory and its blocks, which are live. -/
theorem Cleaned.lookup (h : Cleaned s t) (hs : Valid s) (p : Inum) (name : Str) :
    t.lookup p name = s.lookup p name := by
  unfold LFS.lookup
  rw [h.getInodeFromInumber hs.inMemory]
  cases hread : s.getInodeFromInumber p with
  | error e => rfl
  | ok inode =>
    show (assert _ _ >>= fun _ => LFS.lookupLoop t.disk name inode.pointers >>= _) =
      (assert _ _ >>= fun _ => LFS.lookupLoop s.disk name inode.pointers >>= _)
    rw [h.lookupLoop name fun a => live_of_mem (hs.inodeOf hread)]

/-- A walk leaves the disk alone, and goes the same way in both. -/
theorem Cleaned.walkLoop (h : Cleaned s t) (hs : Valid s) (p : Inum) (names : List Str) :
    t.walkLoop p names = (s.walkLoop p names).map fun r => (r.1, { r.2 with disk := t.disk }) := by
  induction names generalizing p with
  | nil =>
    show Except.ok (some p, t) = .ok (some p, { s with disk := t.disk })
    rw [← h.eq]
  | cons name names ih =>
    unfold LFS.walkLoop
    rw [h.lookup hs]
    cases hlookup : s.lookup p name with
    | error e => rfl
    | ok r =>
      obtain ⟨found, inode⟩ := r
      cases found with
      | none =>
        show Except.ok (none, t.errorLog _) =
          .ok (none, { s.errorLog _ with disk := t.disk })
        rw [h.eq]
        rfl
      | some i =>
        show (if inode.type ≠ .directory then _ else t.walkLoop i names) =
          Except.map _ (if inode.type ≠ .directory then _ else s.walkLoop i names)
        split
        · show Except.ok (none, t.errorLog _) =
            .ok (none, { s.errorLog _ with disk := t.disk })
          rw [h.eq]
          rfl
        · exact ih i

/-- The whole walk, with the errors that it reports. -/
theorem Cleaned.walkPath (h : Cleaned s t) (hs : Valid s) (path : Str) :
    t.walkPath path = (s.walkPath path).map fun r => (r.1, { r.2 with disk := t.disk }) := by
  unfold LFS.walkPath
  dsimp only
  split
  · show Except.ok (_, t.errorLog _) = .ok (_, { s.errorLog _ with disk := t.disk })
    rw [h.eq]
    rfl
  · rw [h.walkLoop hs]
    cases hloop : s.walkLoop ROOT_INODE ((split path '/').drop 1).dropLast with
    | error e => rfl
    | ok r =>
      obtain ⟨found, s'⟩ := r
      cases found with
      | none => rfl
      | some p =>
        obtain ⟨e, rfl⟩ := walkLoop_frame hloop
        have hstate : ({ s with errorList := e, disk := t.disk } : LFS) =
            { t with errorList := e } := by rw [h.eq]
        cases index (split path '/') (some ((split path '/').length - 1)) with
        | error e => rfl
        | ok fileName =>
          have hlookup : LFS.lookup { s with errorList := e, disk := t.disk } p fileName =
              LFS.lookup { s with errorList := e } p fileName := by
            rw [hstate]
            exact (h.errors e).lookup (hs.errors e) p fileName
          show (LFS.lookup { s with errorList := e, disk := t.disk } p fileName >>= _) =
            Except.map _ (LFS.lookup { s with errorList := e } p fileName >>= _)
          rw [hlookup]
          cases LFS.lookup { s with errorList := e } p fileName with
          | error e => rfl
          | ok r => rfl

/-! ## Slots -/

variable {addrs : List Nat} {blocks : List (List Slot)}

/-- The blocks of a directory in use are the same in both. -/
theorem Cleaned.dirBlocks (h : Cleaned s t) (hp : s.inodeOf p = some inode)
    (hblocks : DirBlocks s.disk inode addrs blocks) : DirBlocks t.disk inode addrs blocks where
  size := hblocks.size
  size_le := hblocks.size_le
  pointers := hblocks.pointers
  read := by
    have hlive : ∀ a ∈ addrs, Live s.target a := fun a ha => live_of_mem hp (by
      rw [hblocks.pointers]
      exact List.mem_append_left _ (List.mem_map_of_mem ha))
    refine List.forall₂_iff_zip.mpr ⟨hblocks.read.length_eq, fun hmem => ?_⟩
    rw [h.live _ (hlive _ (List.of_mem_zip hmem).1)]
    exact (List.forall₂_iff_zip.mp hblocks.read).2 hmem

theorem DirBlocks.findSlotLoop_congr {disk disk' : List Block}
    (h : DirBlocks disk inode addrs blocks) (h' : DirBlocks disk' inode addrs blocks) (name : Str)
    {ks : List Nat} (hks : ∀ k ∈ ks, k < blocks.length) :
    findSlotLoop disk' name inode ks = findSlotLoop disk name inode ks := by
  induction ks with
  | nil => rfl
  | cons k ks ih =>
    rw [List.forall_mem_cons] at hks
    have hk := List.getElem?_eq_getElem hks.1
    unfold findSlotLoop
    rw [h.readDirblock_ok hk, h'.readDirblock_ok hk, ih hks.2]

theorem DirBlocks.findMatchingDirSlot_congr {disk disk' : List Block}
    (h : DirBlocks disk inode addrs blocks) (h' : DirBlocks disk' inode addrs blocks) (name : Str) :
    findMatchingDirSlot disk' name inode = findMatchingDirSlot disk name inode := by
  apply h.findSlotLoop_congr h'
  intro k hk
  rw [h.length_eq]
  exact List.mem_range.mp hk

theorem DirBlocks.addDirEntry_congr {disk disk' : List Block}
    (h : DirBlocks disk inode addrs blocks) (h' : DirBlocks disk' inode addrs blocks) (name : Str)
    (i : Inum) : addDirEntry disk' inode name i = addDirEntry disk inode name i := by
  unfold addDirEntry
  rw [h.findMatchingDirSlot_congr h']
  rcases h.findMatchingDirSlot_spec ['-'] with ⟨hnone, -⟩ | ⟨k, slot, entries, e, hsome, hk, -, -⟩
  · rw [hnone]
    rfl
  · rw [hsome]
    show (readDirblock disk' inode k >>= _) = (readDirblock disk inode k >>= _)
    rw [h.readDirblock_ok hk, h'.readDirblock_ok hk]

end Reading

/-! ## Writing -/

section Writing

variable {s t u : LFS} {i p : Inum} {inode : Inode} {path : Str}

/-- The states differ in what was on `d` and `d'`, and the same has been appended to these. -/
structure Appended (d d' : List Block) (s' t' : LFS) : Prop where
  eq : t' = { s' with disk := t'.disk }
  length : t'.disk.length = s'.disk.length
  first : t'.disk[0]? = s'.disk[0]?
  new : ∀ a, d.length ≤ a → t'.disk[a]? = s'.disk[a]?
  old : ∀ a, a ≠ 0 → a < d.length → s'.disk[a]? = d[a]? ∧ t'.disk[a]? = d'[a]?

theorem Cleaned.append (h : Cleaned s t) (map : Inum → Option Nat) (e : List Str) :
    Appended s.disk t.disk { s with inodeMap := map, errorList := e }
      { t with inodeMap := map, errorList := e } where
  eq := by
    show ({ t with inodeMap := map, errorList := e } : LFS) =
      { s with inodeMap := map, errorList := e, disk := t.disk }
    rw [h.eq]
  length := h.length
  first := h.live 0 ⟨.checkpoint, rfl⟩
  new a ha := by
    show t.disk[a]? = s.disk[a]?
    rw [List.getElem?_eq_none ha, List.getElem?_eq_none (h.length ▸ ha)]
  old _ _ _ := ⟨rfl, rfl⟩

/-- What is live in the end was live before, or has been appended; so what differs was dead all
along. -/
theorem Appended.cleaned {s' t' : LFS} (h : Cleaned s t) (happend : Appended s.disk t.disk s' t')
    (hmoves : Moves s.disk.length s.target s'.disk.length s'.target) : Cleaned s' t' where
  eq := happend.eq
  length := happend.length
  live a hlive := by
    by_cases hnew : s.disk.length ≤ a
    · exact happend.new a hnew
    by_cases hzero : a = 0
    · rw [hzero]
      exact happend.first
    · have hold := not_le.mp hnew
      obtain ⟨hs', ht'⟩ := happend.old a hzero hold
      rw [hs', ht', h.live a (hmoves.live hold hlive)]

/-- The imap chunks that are logged do not depend on what is on the disk. -/
theorem updateImapLoop_disk (u : LFS) (disk : List Block) (hlength : disk.length = u.disk.length)
    (chunkList : List Cnum) (inums : List Inum) : ∃ blocks cr,
      u.updateImapLoop chunkList inums = { u with disk := u.disk ++ blocks, cr := cr } ∧
      LFS.updateImapLoop { u with disk := disk } chunkList inums =
        { u with disk := disk ++ blocks, cr := cr } := by
  induction inums generalizing u disk chunkList with
  | nil => exact ⟨[], u.cr, by simp [updateImapLoop_nil], by simp [updateImapLoop_nil]⟩
  | cons inum inums ih =>
    rw [updateImapLoop_cons, updateImapLoop_cons]
    by_cases hdone : inumToChunk inum ∈ chunkList
    · rw [if_pos hdone, if_pos hdone]
      exact ih u disk hlength chunkList
    · rw [if_neg hdone, if_neg hdone]
      -- both log the same chunk, at the same address
      have hlast : (u.disk ++ [u.makeImapChunk (inumToChunk inum)]).length - 1 =
          u.disk.length := by simp
      have hlast' : (disk ++ [u.makeImapChunk (inumToChunk inum)]).length - 1 =
          u.disk.length := by simp [hlength]
      obtain ⟨blocks, cr, heq, heq'⟩ := ih
        { u with
          disk := u.disk ++ [u.makeImapChunk (inumToChunk inum)]
          cr := u.cr.set (inumToChunk inum).val (some u.disk.length) }
        (disk ++ [u.makeImapChunk (inumToChunk inum)]) (by simp [hlength])
        (chunkList ++ [inumToChunk inum])
      refine ⟨u.makeImapChunk (inumToChunk inum) :: blocks, cr, ?_, ?_⟩
      · rw [hlast, heq]
        simp
      · show LFS.updateImapLoop { u with
          disk := disk ++ [u.makeImapChunk (inumToChunk inum)]
          cr := u.cr.set (inumToChunk inum).val
            (some ((disk ++ [u.makeImapChunk (inumToChunk inum)]).length - 1)) } _ _ = _
        rw [hlast', heq']
        simp

/-- The same blocks are logged, and the imap is written. -/
theorem Cleaned.settle (h : Cleaned s t) (hs : Valid s) (blocks : List Block)
    (map : Inum → Option Nat) (e : List Str) (inums : List Inum) :
    Appended s.disk t.disk
      (LFS.updateImap { s with disk := s.disk ++ blocks, inodeMap := map, errorList := e }
        inums).forceCheckpoint
      (LFS.updateImap { t with disk := t.disk ++ blocks, inodeMap := map, errorList := e }
        inums).forceCheckpoint := by
  have hlength : (t.disk ++ blocks).length = (s.disk ++ blocks).length := by
    rw [List.length_append, List.length_append, h.length]
  obtain ⟨chunks, cr, heq, heq'⟩ := updateImapLoop_disk
    { s with disk := s.disk ++ blocks, inodeMap := map, errorList := e } _ hlength [] inums
  have hstart : ({ t with disk := t.disk ++ blocks, inodeMap := map, errorList := e } : LFS) =
      { s with disk := t.disk ++ blocks, inodeMap := map, errorList := e } := by rw [h.eq]
  have hfirst := h.live 0 ⟨.checkpoint, rfl⟩
  have hpos : 0 < s.disk.length := by
    obtain ⟨_, hget⟩ := hs.checkpoint
    exact (List.getElem?_eq_some_iff.mp hget).1
  have hpos' : 0 < t.disk.length := h.length ▸ hpos
  rw [hstart]
  rw [updateImap_def, updateImap_def, heq, heq', List.append_assoc, List.append_assoc]
  have hnew : ∀ a, s.disk.length ≤ a →
      (t.disk ++ (blocks ++ chunks))[a]? = (s.disk ++ (blocks ++ chunks))[a]? := by
    intro a ha
    rw [List.getElem?_append_right ha, List.getElem?_append_right (h.length ▸ ha), h.length]
  have hold : ∀ a, a < s.disk.length →
      (s.disk ++ (blocks ++ chunks))[a]? = s.disk[a]? ∧
        (t.disk ++ (blocks ++ chunks))[a]? = t.disk[a]? := fun a ha =>
    ⟨List.getElem?_append_left ha, List.getElem?_append_left (h.length ▸ ha)⟩
  have hsame : (t.disk ++ (blocks ++ chunks)).length = (s.disk ++ (blocks ++ chunks)).length := by
    simp only [List.length_append, h.length]
  rw [forceCheckpoint_def, forceCheckpoint_def]
  by_cases hforce : s.noForceCheckpoints = true
  · rw [if_pos hforce, if_pos hforce]
    refine ⟨rfl, hsame, ?_, hnew, fun a _ ha => hold a ha⟩
    show (t.disk ++ (blocks ++ chunks))[0]? = (s.disk ++ (blocks ++ chunks))[0]?
    rw [(hold 0 hpos).1, (hold 0 hpos).2, hfirst]
  · rw [if_neg hforce, if_neg hforce]
    -- the checkpoint goes over block 0 of both
    have hput : ∀ (a : Nat) (disk : List Block), a ≠ 0 →
        (disk.set ADDR_CHECKPOINT_BLOCK (Block.checkpoint cr))[a]? = disk[a]? := fun a disk ha =>
      List.getElem?_set_ne (Ne.symm ha)
    refine ⟨rfl, ?_, ?_, fun a ha => ?_, fun a hne ha => ?_⟩
    · exact List.length_set.trans (hsame.trans List.length_set.symm)
    · have hset : ∀ disk : List Block, 0 < disk.length →
          (disk.set ADDR_CHECKPOINT_BLOCK (Block.checkpoint cr))[0]? = some (.checkpoint cr) :=
        fun disk hdisk => List.getElem?_set_self hdisk
      refine (hset _ ?_).trans (hset _ ?_).symm
      · rw [List.length_append]
        exact Nat.add_pos_left hpos' _
      · rw [List.length_append]
        exact Nat.add_pos_left hpos _
    · exact (hput a _ (by omega)).trans ((hnew a ha).trans (hput a _ (by omega)).symm)
    · exact ⟨(hput a _ hne).trans (hold a ha).1, (hput a _ hne).trans (hold a ha).2⟩

/-! ## Operations -/

/-- The walks from `s` and `t` find the same, and report the same. -/
theorem Cleaned.walk (h : Cleaned s t) (hs : Valid s) (path : Str) :
    EndAlike (fun r r' => r'.1 = r.1 ∧ ∃ e, r.2 = { s with errorList := e } ∧
      r'.2 = { t with errorList := e }) (s.walkPath path) (t.walkPath path) := by
  refine .of_map (h.walkPath hs path) fun r hr => ⟨rfl, ?_⟩
  obtain ⟨e, he⟩ := walkPath_frame (show s.walkPath path = .ok (r.1, r.2) from hr)
  refine ⟨e, he, ?_⟩
  show ({ r.2 with disk := t.disk } : LFS) = { t with errorList := e }
  rw [he, h.eq]

/-- The results of an operation: the same is returned, and the same has been appended. -/
def Alike (d d' : List Block) (r r' : Int × LFS) : Prop := r'.1 = r.1 ∧ Appended d d' r.2 r'.2

/-- The free inode number is found in the map. -/
theorem allocateInode_disk (u : LFS) (disk : List Block) (pick : Nat) :
    LFS.allocateInode { u with disk := disk } pick =
      ((u.allocateInode pick).1, { (u.allocateInode pick).2 with disk := disk }) := by
  have hfree : LFS.freeInumber { u with disk := disk } pick = u.freeInumber pick := rfl
  unfold allocateInode
  rw [hfree]
  cases u.freeInumber pick with
  | none => rfl
  | some i => rfl

/-- A creation ends alike on both. The other operations do so for the same reasons. -/
theorem Cleaned.create (h : Cleaned s t) (hs : Valid s) (path : Str) (isFile : Bool) (pick : Nat) :
    EndAlike (Alike s.disk t.disk) (s.create path isFile pick) (t.create path isFile pick) := by
  unfold LFS.create Device.create
  simp only [device_lfs, device_memory, device_createWrites]
  refine (h.walk hs path).bind ?_
  rintro ⟨⟨found, name, parent⟩, _⟩ ⟨_, _⟩ hwalk ⟨rfl, e, rfl, rfl⟩
  obtain ⟨disk, rfl⟩ : ∃ disk, t = { s with disk := disk } := ⟨_, h.eq⟩
  have hlength : disk.length = s.disk.length := h.length
  cases found with
  | some i => exact .ok ⟨rfl, h.append _ _⟩
  | none =>
    cases parent with
    | none => exact .ok ⟨rfl, h.append _ _⟩
    | some parent =>
      obtain ⟨p, parentInode⟩ := parent
      obtain ⟨addrs, blocks, hp⟩ := hs.parent hwalk
      have hread := h.dirBlocks hp.inodeOf hp.read
      dsimp only
      rw [allocateInode_disk { s with errorList := e } disk]
      rcases LFS.allocateInode_cases { s with errorList := e } pick with hnone | ⟨i, hfree, hsome⟩
      · rw [hnone]
        exact .ok ⟨rfl, h.append _ _⟩
      · rw [hsome]
        dsimp only
        rw [hp.read.addDirEntry_congr hread]
        refine .bind_same fun added _ => ?_
        cases added with
        | none =>
          -- the inode number is given back
          have hback : ∀ u : LFS, u.inodeMap i = some 1 →
              u.freeInode i = .ok { u with inodeMap := Function.update u.inodeMap i none } :=
            fun u hu => freeInode_eq_ok.mpr ⟨by rw [hu]; exact Option.some_ne_none 1, rfl⟩
          dsimp only
          rw [hback _ (Function.update_self ..), hback _ (Function.update_self ..)]
          exact .ok ⟨rfl, h.append _ _⟩
        | some slot =>
          obtain ⟨k, size, entries⟩ := slot
          dsimp only
          cases isFile with
          | true =>
            rw [createWrites_file, createWrites_file]
            dsimp only
            rw [hlength]
            exact .ok ⟨rfl, h.settle hs _ _ _ _⟩
          | false =>
            rw [createWrites_dir, createWrites_dir]
            dsimp only
            rw [hlength]
            exact .ok ⟨rfl, h.settle hs _ _ _ _⟩

theorem Cleaned.fileLink (h : Cleaned s t) (hs : Valid s) (srcpath dstpath : Str) :
    EndAlike (Alike s.disk t.disk) (s.fileLink srcpath dstpath) (t.fileLink srcpath dstpath) := by
  unfold LFS.fileLink Device.fileLink
  simp only [device_lfs, device_memory, device_linkWrites]
  refine ((h.errors []).walk (hs.errors []) srcpath).bind ?_
  rintro ⟨⟨found, srcName, srcParent⟩, _⟩ ⟨_, _⟩ - ⟨rfl, e, rfl, rfl⟩
  -- Only the disk differs; everything in memory is shared.
  obtain ⟨disk, rfl⟩ : ∃ disk, t = { s with disk := disk } := ⟨_, h.eq⟩
  have hlength : disk.length = s.disk.length := h.length
  cases found with
  | none => exact .ok ⟨rfl, h.append _ _⟩
  | some i =>
    dsimp only
    rw [(h.errors e).getInodeFromInumber hs.inMemory]
    refine .bind_same fun inode _ => ?_
    by_cases htype : inode.type = .regular
    · rw [if_neg (not_not.mpr htype), if_neg (not_not.mpr htype)]
      refine ((h.errors e).walk (hs.errors e) dstpath).bind ?_
      rintro ⟨⟨found, name, parent⟩, _⟩ ⟨_, _⟩ hwalk ⟨rfl, e', rfl, rfl⟩
      cases found with
      | some j => exact .ok ⟨rfl, h.append _ _⟩
      | none =>
        cases parent with
        -- Both abort, and with the same error.
        | none => exact .error _
        | some parent =>
          obtain ⟨p, parentInode⟩ := parent
          -- The blocks of the parent are live, so the two disks hold the same there.
          obtain ⟨addrs, blocks, hp⟩ := (hs.errors e).parent hwalk
          have hread := (h.errors e).dirBlocks hp.inodeOf hp.read
          dsimp only
          rw [hp.read.addDirEntry_congr hread]
          refine .bind_same fun added _ => ?_
          cases added with
          | none => exact .ok ⟨rfl, h.append _ _⟩
          | some slot =>
            obtain ⟨k, size, entries⟩ := slot
            dsimp only
            rw [linkWrites_eq, linkWrites_eq]
            dsimp only
            rw [hlength]
            exact .ok ⟨rfl, h.settle hs _ _ _ _⟩
    · rw [if_pos htype, if_pos htype]
      exact .ok ⟨rfl, h.append _ _⟩

theorem Cleaned.fileWrite (h : Cleaned s t) (hs : Valid s) (path : Str) (offset numBlks : Int)
    (draw : Nat → Char) : EndAlike (Alike s.disk t.disk) (s.fileWrite path offset numBlks draw)
      (t.fileWrite path offset numBlks draw) := by
  unfold LFS.fileWrite Device.fileWrite
  simp only [device_lfs, device_memory, device_fileWrites]
  refine ((h.errors []).walk (hs.errors []) path).bind ?_
  rintro ⟨⟨found, name, parent⟩, _⟩ ⟨_, _⟩ - ⟨rfl, e, rfl, rfl⟩
  obtain ⟨disk, rfl⟩ : ∃ disk, t = { s with disk := disk } := ⟨_, h.eq⟩
  have hlength : disk.length = s.disk.length := h.length
  cases found with
  | none => exact .ok ⟨rfl, h.append _ _⟩
  | some i =>
    dsimp only
    rw [(h.errors e).getInodeFromInumber hs.inMemory]
    refine .bind_same fun inode _ => ?_
    by_cases htype : inode.type = .regular
    · rw [if_neg (not_not.mpr htype), if_neg (not_not.mpr htype)]
      by_cases hoffset : offset < 0 ∨ NUM_INODE_PTRS ≤ offset
      · rw [if_pos hoffset, if_pos hoffset]
        exact .ok ⟨rfl, h.append _ _⟩
      · rw [if_neg hoffset, if_neg hoffset, fileWrites_eq _ i inode _ _ rfl,
          fileWrites_eq _ i inode _ _ rfl]
        dsimp only
        rw [List.length_append, List.length_append, hlength]
        exact .ok ⟨rfl, h.settle hs _ _ _ _⟩
    · rw [if_pos htype, if_pos htype]
      exact .ok ⟨rfl, h.append _ _⟩

theorem Cleaned.fileDelete (h : Cleaned s t) (hs : Valid s) (path : Str) :
    EndAlike (Alike s.disk t.disk) (s.fileDelete path) (t.fileDelete path) := by
  unfold LFS.fileDelete Device.fileDelete
  simp only [device_lfs, device_memory, device_deleteWrites]
  refine ((h.errors []).walk (hs.errors []) path).bind ?_
  rintro ⟨⟨found, name, parent⟩, _⟩ ⟨_, _⟩ hwalk ⟨rfl, e, rfl, rfl⟩
  obtain ⟨disk, rfl⟩ : ∃ disk, t = { s with disk := disk } := ⟨_, h.eq⟩
  have hlength : disk.length = s.disk.length := h.length
  cases found with
  | none => exact .ok ⟨rfl, h.append _ _⟩
  | some i =>
    cases parent with
    | none => exact .ok ⟨rfl, h.append _ _⟩
    | some parent =>
      obtain ⟨p, parentInode⟩ := parent
      obtain ⟨addrs, blocks, hp⟩ := (hs.errors []).parent hwalk
      -- From here on both read the blocks of one directory, which are live.
      have hread := h.dirBlocks hp.inodeOf hp.read
      dsimp only
      rw [(h.errors e).getInodeFromInumber hs.inMemory]
      refine .bind_same fun inode hinode => ?_
      by_cases htype : inode.type = .regular
      · rw [if_neg (not_not.mpr htype), if_neg (not_not.mpr htype)]
        have hused : s.inodeMap i ≠ none := inodeMap_of_inodeOf ((hs.errors e).inodeOf hinode)
        -- The last link is freed in the map in memory, before the slot is looked for.
        have hfreed : ∀ u : LFS, u.inodeMap i = s.inodeMap i →
            u.freeLast i inode = .ok (unlinked u i inode) := by
          intro u hu
          unfold freeLast unlinked
          split
          · exact freeInode_eq_ok.mpr ⟨hu ▸ hused, rfl⟩
          · rfl
        rw [hfreed { s with errorList := e } rfl, hfreed { s with disk := disk, errorList := e } rfl]
        show EndAlike _ (findMatchingDirSlot (unlinked _ i inode).disk name parentInode >>= _)
          (findMatchingDirSlot (unlinked _ i inode).disk name parentInode >>= _)
        rw [unlinked_disk, unlinked_disk, hp.read.findMatchingDirSlot_congr hread]
        rcases hp.read.findMatchingDirSlot_spec name with ⟨hnone, -⟩ |
          ⟨k, slot, entries, entry, hsome, hk, -, -⟩
        -- Without a slot the assertion of `file_delete` fails in both.
        · rw [hnone]
          exact .error _
        · rw [hsome]
          show EndAlike _ (readDirblock s.disk parentInode k >>= _)
            (readDirblock disk parentInode k >>= _)
          rw [hp.read.readDirblock_ok hk, hread.readDirblock_ok hk]
          refine .ok ⟨rfl, ?_⟩
          dsimp only
          unfold unlinked
          -- Either way the same blocks are logged behind logs of one length.
          by_cases hlast : inode.refs = 1
          · have hrefs : ¬ 1 < inode.refs := by omega
            rw [if_pos hlast, if_pos hlast, deleteWrites_last _ i p hrefs,
              deleteWrites_last _ i p hrefs]
            dsimp only
            rw [hlength]
            exact h.settle hs _ _ _ _
          · rw [if_neg hlast, if_neg hlast]
            by_cases hrefs : 1 < inode.refs
            · rw [deleteWrites_more _ i p hrefs, deleteWrites_more _ i p hrefs]
              dsimp only
              rw [hlength]
              exact h.settle hs _ _ _ _
            · rw [deleteWrites_last _ i p hrefs, deleteWrites_last _ i p hrefs]
              dsimp only
              rw [hlength]
              exact h.settle hs _ _ _ _
      · rw [if_pos htype, if_pos htype]
        exact .ok ⟨rfl, h.append _ _⟩

theorem Cleaned.sync (h : Cleaned s t) (hs : Valid s) : Alike s.disk t.disk s.sync t.sync := by
  obtain ⟨disk, rfl⟩ : ∃ disk, t = { s with disk := disk } := ⟨_, h.eq⟩
  have hlength : disk.length = s.disk.length := h.length
  have hput : ∀ (a : Nat) (disk : List Block), a ≠ 0 →
      (disk.set ADDR_CHECKPOINT_BLOCK (Block.checkpoint s.cr))[a]? = disk[a]? := fun a disk ha =>
    List.getElem?_set_ne (Ne.symm ha)
  have hpos : 0 < s.disk.length := by
    obtain ⟨_, hget⟩ := hs.checkpoint
    exact (List.getElem?_eq_some_iff.mp hget).1
  have hset : ∀ disk : List Block, 0 < disk.length →
      (disk.set ADDR_CHECKPOINT_BLOCK (Block.checkpoint s.cr))[0]? = some (.checkpoint s.cr) :=
    fun disk hdisk => List.getElem?_set_self hdisk
  refine ⟨rfl, rfl, ?_, ?_, fun a ha => ?_, fun a hne _ => ⟨hput a _ hne, hput a _ hne⟩⟩
  · exact List.length_set.trans (hlength.trans List.length_set.symm)
  · exact (hset _ (hlength ▸ hpos)).trans (hset _ hpos).symm
  · refine (hput a _ (by omega)).trans (Eq.trans ?_ (hput a _ (by omega)).symm)
    exact (List.getElem?_eq_none (hlength ▸ ha)).trans (List.getElem?_eq_none ha).symm

/-- All operations end alike. -/
theorem Cleaned.run_alike (h : Cleaned s t) (hs : Valid s) (op : Op) :
    EndAlike (Alike s.disk t.disk) (op.run s) (op.run t) := by
  cases op with
  | fileCreate path pick => exact (h.errors []).create (hs.errors []) path true pick
  | dirCreate path pick => exact (h.errors []).create (hs.errors []) path false pick
  | fileLink srcpath dstpath => exact h.fileLink hs srcpath dstpath
  | fileWrite path offset numBlks draw => exact h.fileWrite hs path offset numBlks draw
  | fileDelete path => exact h.fileDelete hs path
  | sync => exact .ok (h.sync hs)

end Writing

/-! ## Over a run -/

section Runs

variable {s t : LFS} {noForceCheckpoints : Bool} {inodePolicy : InodePolicy}

/-- An operation on `s` and `t` that both are still the same in the end, but for dead blocks. -/
theorem Cleaned.run (h : Cleaned s t) (hs : Valid s) (hfiles : FilesAt s) (op : Op) :
    EndAlike (fun r r' => r'.1 = r.1 ∧ Valid r.2 ∧ FilesAt r.2 ∧ Cleaned r.2 r'.2)
      (op.run s) (op.run t) := by
  refine (h.run_alike hs op).mono ?_
  rintro ⟨rc, s'⟩ ⟨_, t'⟩ hrun ⟨rfl, happend⟩
  exact ⟨rfl, hs.run hrun, hfiles.run hs hrun, happend.cleaned h (moves_run hs hfiles hrun)⟩

/-- `s` is a state that runs go through, and `t` cannot be told from it. -/
structure Hidden (s t : LFS) : Prop where
  valid : Valid s
  files : FilesAt s
  cleaned : Cleaned s t

/-- A step of one is a step of the other, and the difference stays hidden. -/
theorem Hidden.step (h : Hidden s t) {a : Op × Int} {s' : LFS} (hstep : next s a = some s') :
    ∃ t', next t a = some t' ∧ Hidden s' t' := by
  obtain ⟨⟨_, t'⟩, hrun, rfl, hs', hfiles', h'⟩ :=
    (h.cleaned.run h.valid h.files a.1).of_left (next_eq_some.mp hstep)
  exact ⟨t', next_eq_some.mpr hrun, hs', hfiles', h'⟩

/-- The same the other way round. -/
theorem Hidden.step_back (h : Hidden s t) {a : Op × Int} {t' : LFS} (hstep : next t a = some t') :
    ∃ s', next s a = some s' ∧ Hidden s' t' := by
  obtain ⟨⟨rc, s'⟩, hrun, hrc, hs', hfiles', h'⟩ :=
    (h.cleaned.run h.valid h.files a.1).of_right (next_eq_some.mp hstep)
  have hret : a.2 = rc := hrc
  exact ⟨s', next_eq_some.mpr (hret ▸ hrun), hs', hfiles', h'⟩

theorem Cleaned.livePointers (h : Cleaned s t) {inodes : List Inum}
    (hused : ∀ i ∈ inodes, s.inodeMap i ≠ none) (live : Option Nat → Bool) :
    t.livePointers live inodes = s.livePointers live inodes := by
  induction inodes generalizing live with
  | nil => rfl
  | cons i inodes ih =>
    rw [List.forall_mem_cons] at hused
    obtain ⟨a, ha⟩ := Option.ne_none_iff_exists'.mp hused.1
    unfold LFS.livePointers
    rw [h.inodeMap, ha, index_congr (h.live a ⟨.inode i, ha⟩)]
    refine bind_congr fun block => ?_
    cases block with
    | inode inode => exact ih hused.2 _
    | checkpoint entries => rfl
    | dataDirectory entries => rfl
    | dataBlock contents => rfl
    | imap entries => rfl

/-- `determine_liveness` marks the same blocks in both. -/
theorem Cleaned.determineLiveness (h : Cleaned s t) :
    t.determineLiveness = s.determineLiveness := by
  have hcr : t.cr = s.cr := by rw [h.eq]
  unfold LFS.determineLiveness
  rw [hcr, h.inodeMap]
  exact h.livePointers (fun i hi => by simpa using (List.mem_filter.mp hi).2) _

/-- What cannot be told apart from outside. -/
structure SameView (s t : LFS) : Prop where
  cleaned : Cleaned s t
  aborts : ∀ (op : Op) (e : Abort), op.run s = .error e ↔ op.run t = .error e
  liveness : t.determineLiveness = s.determineLiveness

/-- **Cleaning is safe.** In a reachable state the blocks that `determine_liveness` does not mark
can be overwritten with anything: the runs that follow are the same, with the same return values,
errors and aborts, and the same live blocks with the same contents. -/
theorem cleaning_safe {live : Option Nat → Bool}
    (h : (fileSystem false noForceCheckpoints inodePolicy).Reachable s)
    (hlive : s.determineLiveness = .ok live) (ht : t = { s with disk := t.disk })
    (hlength : t.disk.length = s.disk.length)
    (hdisk : ∀ a, live (some a) = true → t.disk[a]? = s.disk[a]?) (as : List (Op × Int)) :
    (∀ s', (fileSystem false noForceCheckpoints inodePolicy).Run s as s' →
      ∃ t', (fileSystem false noForceCheckpoints inodePolicy).Run t as t' ∧ SameView s' t') ∧
    ∀ t', (fileSystem false noForceCheckpoints inodePolicy).Run t as t' →
      ∃ s', (fileSystem false noForceCheckpoints inodePolicy).Run s as s' ∧ SameView s' t' := by
  have hvalid := valid_reachable h
  have hcleaned : Cleaned s t := by
    obtain ⟨marks, hmarks, hspec⟩ := hvalid.determineLiveness
    obtain rfl : live = marks := Except.ok.inj (hlive.symm.trans hmarks)
    exact ⟨ht, hlength, fun a ha => hdisk a ((hspec a).mpr ha)⟩
  have hhidden : Hidden s t := ⟨hvalid, filesAt_reachable h, hcleaned⟩
  have hview : ∀ s' t', Hidden s' t' → SameView s' t' := fun s' t' h' =>
    ⟨h'.cleaned, fun op e => (h'.cleaned.run_alike h'.valid op).error_iff,
      h'.cleaned.determineLiveness⟩
  constructor
  · intro s' hrun
    obtain ⟨t', hrun', h'⟩ := hrun.follow (R := Hidden)
      (N := fileSystem false noForceCheckpoints inodePolicy)
      (fun _ _ _ _ hR hstep => hR.step hstep) hhidden
    exact ⟨t', hrun', hview s' t' h'⟩
  · intro t' hrun
    obtain ⟨s', hrun', h'⟩ := hrun.follow (R := fun t s => Hidden s t)
      (N := fileSystem false noForceCheckpoints inodePolicy)
      (fun _ _ _ _ hR hstep => hR.step_back hstep) hhidden
    exact ⟨s', hrun', hview s' t' h'⟩

/-- The first version of the root directory, overwritten after a file has been created. -/
theorem cleaning_safe_create :
    ∃ s t, (fileSystem false false .sequential).Reachable s ∧ t.disk ≠ s.disk ∧
      ∀ as, (∀ s', (fileSystem false false .sequential).Run s as s' →
          ∃ t', (fileSystem false false .sequential).Run t as t' ∧ SameView s' t') ∧
        ∀ t', (fileSystem false false .sequential).Run t as t' →
          ∃ s', (fileSystem false false .sequential).Run s as s' ∧ SameView s' t' := by
  obtain ⟨s, live, hs, hblock, hlive, hdead⟩ := @exists_dead false .sequential
    [(.fileCreate ['/', 'a'] 0, 0)] 1 (makeNewDirblock ROOT_INODE ROOT_INODE) (by decide +kernel)
  refine ⟨s, { s with disk := s.disk.set 1 (.dataBlock []) }, hs, ?_, fun as => ?_⟩
  · intro hsame
    have hget : (s.disk.set 1 (.dataBlock []))[1]? = s.disk[1]? := congrArg (fun d => d[1]?) hsame
    rw [List.getElem?_set_self (List.getElem?_eq_some_iff.mp hblock).1, hblock] at hget
    cases hget
  · refine cleaning_safe hs hlive rfl List.length_set (fun a ha => ?_) as
    have hne : 1 ≠ a := by
      rintro rfl
      rw [hdead] at ha
      cases ha
    exact List.getElem?_set_ne hne

end Runs

end OsLab.Lfs
