import Mathlib.Data.List.Chain
import OsLab.Lfs.Recorder
import OsLab.Lfs.Reading

/-!
# Crash atomicity of LFS

Reading from block 0 follows addresses that were in the log when the checkpoint was written. The
log only grows, so until the checkpoint is written again the tree on disk is the same.

* **`treeOn`** -- the tree that is readable from block 0 of a disk alone, to every depth.
* **`Closed`**, **`Logged`** -- every address in a block, in the checkpoint region in memory and in
  the inode map is in the log. Every reachable state is `Logged`, and a longer log of a `Closed`
  disk reads the same (`Closed.treeOn_append`).
* **`Recorder.Prefixes`** -- the recorded disks of an operation are its write prefixes.
* **`crash_atomic`** -- what a stop after any of the writes leaves, with and without forced
  checkpoints.
-/

namespace OsLab.Lfs

open LFS

/-! ## Reading the tree from the disk alone -/

/-- The imap chunk that the checkpoint has for `i`. -/
def chunkOn (disk : List Block) (i : Inum) : Option (List (Option Nat)) :=
  match disk[ADDR_CHECKPOINT_BLOCK]? with
  | some (.checkpoint entries) => do
    let address ← entries[i.val / NUM_INODES_PER_IMAP_CHUNK]?.join
    match disk[address]? with
    | some (.imap entries) => some entries
    | _ => none
  | _ => none

def inodeOn (disk : List Block) (i : Inum) : Option Inode := do
  let entries ← chunkOn disk i
  let address ← entries[i.val % NUM_INODES_PER_IMAP_CHUNK]?.join
  match disk[address]? with
  | some (.inode inode) => some inode
  | _ => none

/-- An inode and the blocks it points to. -/
def nodeOn (disk : List Block) (i : Inum) : Option (Inode × List (Option Block)) :=
  (inodeOn disk i).map fun inode => (inode, inode.pointers.map fun p => p.bind (disk[·]?))

inductive Tree where
  | file (size : Nat) (refs : Int) (blocks : List (Option Block))
  | dir (entries : List (Str × Inum × Option Tree))

/-- The slots of a directory block. -/
def slotsOf : Option Block → List Slot
  | some (.dataDirectory entries) => entries
  | _ => []

/-- The tree below `i`, as deep as `depth`. -/
def readTree (node : Inum → Option (Inode × List (Option Block))) : Nat → Inum → Option Tree
  | 0, _ => none
  | depth + 1, i =>
    match node i with
    | none => none
    | some (inode, blocks) =>
      match inode.type with
      | .regular => some (.file inode.size inode.refs blocks)
      | .directory => some (.dir ((blocks.flatMap slotsOf).filterMap fun e =>
          e.2.map fun j => (e.1, j, readTree node depth j)))

/-- The tree that is readable from block 0, to every depth. -/
def treeOn (disk : List Block) (depth : Nat) : Option Tree :=
  readTree (nodeOn disk) depth ROOT_INODE

/-! ## Addresses point into the log -/

def addresses : Block → List Nat
  | .checkpoint entries => entries.filterMap id
  | .imap entries => entries.filterMap id
  | .inode inode => inode.pointers.filterMap id
  | _ => []

structure Closed (disk : List Block) : Prop where
  checkpoint : HasCheckpoint disk
  address_lt : ∀ block ∈ disk, ∀ a ∈ addresses block, a < disk.length

section Reading

variable {disk : List Block} {i : Inum}

theorem mem_filterMap_id {entries : List (Option Nat)} {a : Nat} (h : some a ∈ entries) :
    a ∈ entries.filterMap id :=
  List.mem_filterMap.mpr ⟨some a, h, rfl⟩

theorem mem_of_join {entries : List (Option Nat)} {k a : Nat} (h : entries[k]?.join = some a) :
    some a ∈ entries := by
  exact List.mem_of_getElem? (Option.join_eq_some_iff.mp h)

/-- An address that a block holds is read in the old log, whatever has been logged since. -/
theorem Closed.getElem?_append (h : Closed disk) (blocks : List Block) {block : Block} {a : Nat}
    (hblock : block ∈ disk) (ha : a ∈ addresses block) : (disk ++ blocks)[a]? = disk[a]? :=
  List.getElem?_append_left (h.address_lt block hblock a ha)

/-- The chunk that the checkpoint leads to is in the old log. -/
theorem Closed.chunkOn_append (h : Closed disk) (blocks : List Block) :
    chunkOn (disk ++ blocks) i = chunkOn disk i := by
  obtain ⟨entries, hroot⟩ := h.checkpoint
  have hroot' : (disk ++ blocks)[0]? = some (.checkpoint entries) := by
    obtain ⟨hlt, _⟩ := List.getElem?_eq_some_iff.mp hroot
    rw [List.getElem?_append_left hlt, hroot]
  unfold chunkOn ADDR_CHECKPOINT_BLOCK
  rw [hroot, hroot']
  cases haddress : entries[i.val / NUM_INODES_PER_IMAP_CHUNK]?.join with
  | none => simp [haddress]
  | some a =>
    have ha := mem_filterMap_id (mem_of_join haddress)
    simp only [haddress]
    show (match (disk ++ blocks)[a]? with | some (.imap entries) => some entries | _ => none) = _
    rw [h.getElem?_append blocks (List.mem_of_getElem? hroot) ha]
    rfl

theorem chunkOn_mem {entries : List (Option Nat)} (h : chunkOn disk i = some entries) :
    .imap entries ∈ disk := by
  unfold chunkOn at h
  split at h
  · obtain ⟨a, _, ha⟩ := Option.bind_eq_some_iff.mp h
    split at ha
    · rename_i hget
      obtain rfl := Option.some.inj ha
      exact List.mem_of_getElem? hget
    · cases ha
  · cases h

/-- So is the inode that the chunk leads to. -/
theorem Closed.inodeOn_append (h : Closed disk) (blocks : List Block) :
    inodeOn (disk ++ blocks) i = inodeOn disk i := by
  unfold inodeOn
  rw [h.chunkOn_append blocks]
  cases hchunk : chunkOn disk i with
  | none => rfl
  | some entries =>
    cases haddress : entries[i.val % NUM_INODES_PER_IMAP_CHUNK]?.join with
    | none => simp [haddress]
    | some a =>
      have ha := mem_filterMap_id (mem_of_join haddress)
      simp only [Option.bind_eq_bind, Option.bind_some, haddress]
      rw [h.getElem?_append blocks (chunkOn_mem hchunk) ha]

theorem inodeOn_mem {inode : Inode} (h : inodeOn disk i = some inode) : .inode inode ∈ disk := by
  unfold inodeOn at h
  obtain ⟨entries, _, h⟩ := Option.bind_eq_some_iff.mp h
  obtain ⟨a, _, ha⟩ := Option.bind_eq_some_iff.mp h
  split at ha
  · rename_i hget
    obtain rfl := Option.some.inj ha
    exact List.mem_of_getElem? hget
  · cases ha

/-- Blocks behind the log are not read. -/
theorem Closed.nodeOn_append (h : Closed disk) (blocks : List Block) :
    nodeOn (disk ++ blocks) = nodeOn disk := by
  funext i
  unfold nodeOn
  rw [h.inodeOn_append blocks]
  cases hinode : inodeOn disk i with
  | none => rfl
  | some inode =>
    have hpointers : (inode.pointers.map fun p => p.bind ((disk ++ blocks)[·]?)) =
        inode.pointers.map fun p => p.bind (disk[·]?) := by
      refine List.map_congr_left fun p hp => ?_
      cases p with
      | none => rfl
      | some a => exact h.getElem?_append blocks (inodeOn_mem hinode) (mem_filterMap_id hp)
    simp only [Option.map_some, hpointers]

/-- So the tree that is read from block 0 is the same on a longer log. -/
theorem Closed.treeOn_append (h : Closed disk) (blocks : List Block) :
    treeOn (disk ++ blocks) = treeOn disk := by
  unfold treeOn
  rw [h.nodeOn_append blocks]

end Reading

/-! ## Every address is in the log -/

structure Logged (s : LFS) : Prop where
  closed : Closed s.disk
  cr_lt : ∀ a, some a ∈ s.cr → a < s.disk.length
  map_lt : ∀ i a, s.inodeMap i = some a → a < s.disk.length
  two_le : 2 ≤ s.disk.length

section Logging

variable {s t u : LFS} {blocks : List Block} {i p : Inum} {inode parentInode : Inode}

theorem update_lt {f : Inum → Option Nat} {n b : Nat} (hf : ∀ i a, f i = some a → a < n)
    (hb : b < n) : ∀ j a, Function.update f i (some b) j = some a → a < n := by
  intro j a ha
  by_cases hj : j = i
  · subst hj
    rw [Function.update_self] at ha
    obtain rfl := Option.some.inj ha
    exact hb
  · rw [Function.update_of_ne hj] at ha
    exact hf j a ha

theorem mem_set_cr {cr : List (Option Nat)} {k a b : Nat} (h : some a ∈ cr.set k (some b)) :
    some a ∈ cr ∨ a = b := by
  rcases List.mem_or_eq_of_mem_set h with hmem | heq
  · exact Or.inl hmem
  · exact Or.inr (Option.some.inj heq)

/-- Blocks are logged whose addresses are in the log in the end. -/
theorem Logged.write (h : Logged s) (hu : u.disk = s.disk ++ blocks) (hcr : u.cr = s.cr)
    (hblocks : ∀ block ∈ blocks, ∀ a ∈ addresses block, a < u.disk.length)
    (hmap : ∀ i a, u.inodeMap i = some a → a < u.disk.length) : Logged u := by
  have hle : s.disk.length ≤ u.disk.length := by
    rw [hu, List.length_append]
    omega
  refine ⟨⟨hu ▸ h.closed.checkpoint.append blocks, fun block hblock a ha => ?_⟩,
    fun a ha => ?_, hmap, h.two_le.trans hle⟩
  · rw [hu, List.mem_append] at hblock
    rcases hblock with hold | hnew
    · exact (h.closed.address_lt block hold a ha).trans_le hle
    · exact hblocks block hnew a ha
  · rw [hcr] at ha
    exact (h.cr_lt a ha).trans_le hle

theorem Logged.setCr (h : Logged s) (k : Nat) :
    Logged { s with cr := s.cr.set k (some (s.disk.length - 1)) } := by
  refine ⟨h.closed, fun a ha => ?_, h.map_lt, h.two_le⟩
  rcases mem_set_cr ha with hold | rfl
  · exact h.cr_lt a hold
  · have hpos := h.two_le
    show s.disk.length - 1 < s.disk.length
    omega

theorem Logged.updateImapLoop (h : Logged s) (chunkList : List Cnum) (inums : List Inum) :
    Logged (s.updateImapLoop chunkList inums) := by
  induction inums generalizing s chunkList with
  | nil => exact h
  | cons inum inums ih =>
    rw [LFS.updateImapLoop_cons]
    split
    · exact ih h chunkList
    · -- the chunk holds addresses of `inode_map`
      have hlogged : Logged (s.log (s.makeImapChunk (inumToChunk inum))).2 := by
        refine h.write rfl rfl ?_ ?_
        · intro block hblock a ha
          obtain rfl := List.mem_singleton.mp hblock
          obtain ⟨x, hx, hxa⟩ := List.mem_filterMap.mp ha
          obtain ⟨j, rfl⟩ := List.mem_ofFn.mp hx
          have hlt := h.map_lt _ a hxa
          show a < (s.disk ++ _).length
          rw [List.length_append]
          omega
        · intro i a ha
          have hlt := h.map_lt i a ha
          show a < (s.disk ++ _).length
          rw [List.length_append]
          omega
      exact ih (hlogged.setCr _) _

/-- The checkpoint holds addresses of `cr`, which are in the log. -/
theorem Logged.crSync (h : Logged s) : Logged s.crSync where
  closed := by
    refine ⟨h.closed.checkpoint.set _, fun block hblock a ha => ?_⟩
    rw [LFS.crSync, List.length_set]
    rcases List.mem_or_eq_of_mem_set hblock with hold | rfl
    · exact h.closed.address_lt block hold a ha
    · obtain ⟨x, hx, rfl⟩ := List.mem_filterMap.mp ha
      exact h.cr_lt a hx
  cr_lt a ha := by
    rw [LFS.crSync, List.length_set]
    exact h.cr_lt a ha
  map_lt i a ha := by
    rw [LFS.crSync, List.length_set]
    exact h.map_lt i a ha
  two_le := by
    rw [LFS.crSync, List.length_set]
    exact h.two_le

/-- The imap chunks and the checkpoint, behind an operation. -/
theorem Logged.settle (h : Logged s) (inums : List Inum) :
    Logged (s.updateImap inums).forceCheckpoint := by
  rw [LFS.forceCheckpoint_def, LFS.updateImap_def]
  split
  · exact h.updateImapLoop [] inums
  · exact (h.updateImapLoop [] inums).crSync

theorem Logged.errors (h : Logged s) (e : List Str) : Logged { s with errorList := e } :=
  ⟨h.closed, h.cr_lt, h.map_lt, h.two_le⟩

theorem getInode_mem (h : s.getInodeFromInumber i = .ok inode) : .inode inode ∈ s.disk := by
  unfold getInodeFromInumber at h
  obtain ⟨address, _, h⟩ := bind_eq_ok.mp h
  cases address with
  | none => cases h
  | some a =>
    obtain ⟨block, hblock, h⟩ := bind_eq_ok.mp h
    have hmem := List.mem_of_getElem? (index_some_eq_ok.mp hblock)
    cases block with
    | inode inode' =>
      obtain rfl : inode' = inode := Except.ok.inj h
      exact hmem
    | checkpoint entries => cases h
    | dataDirectory entries => cases h
    | dataBlock contents => cases h
    | imap entries => cases h

section InLog

variable {n k b : Nat}

/-- The addresses of the block are below `n`. -/
def InLog (n : Nat) (block : Block) : Prop := ∀ a ∈ addresses block, a < n

theorem inLog_directory (entries : List Slot) : InLog n (.dataDirectory entries) := by
  intro a ha
  cases ha

theorem inLog_data (contents : Str) : InLog n (.dataBlock contents) := by
  intro a ha
  cases ha

theorem inLog_makeInode (type : InodeType) (size : Nat) (refs : Int) :
    InLog n (.inode (makeInode type size refs)) := by
  intro a ha
  obtain ⟨x, hx, rfl⟩ := List.mem_filterMap.mp ha
  have hnone := List.eq_of_mem_replicate hx
  cases hnone

theorem InLog.pointTo (h : InLog n (.inode inode)) (hb : b < n) :
    InLog n (.inode (LFS.pointTo inode k b)) := by
  intro a ha
  obtain ⟨x, hx, rfl⟩ := List.mem_filterMap.mp ha
  rcases mem_set_cr hx with hold | rfl
  · exact h a (mem_filterMap_id hold)
  · exact hb

theorem InLog.mono {m : Nat} {block : Block} (h : InLog m block) (hle : m ≤ n) : InLog n block :=
  fun a ha => (h a ha).trans_le hle

/-- An inode that is read has its pointers in the log. -/
theorem Logged.inLog (h : Logged s) (hread : s.getInodeFromInumber i = .ok inode) :
    InLog s.disk.length (.inode inode) :=
  h.closed.address_lt _ (getInode_mem hread)

end InLog

/-- The shape in which `createWrites` and the others leave their blocks: logged, remapped,
settled. -/
theorem Logged.writeBlocks (h : Logged s) (hu : u.disk = s.disk ++ blocks) (hcr : u.cr = s.cr)
    (hblocks : ∀ block ∈ blocks, InLog (s.disk.length + blocks.length) block)
    (hmap : ∀ i a, u.inodeMap i = some a → a < s.disk.length + blocks.length) : Logged u := by
  have hlen : u.disk.length = s.disk.length + blocks.length := by rw [hu, List.length_append]
  refine h.write hu hcr ?_ ?_
  · rw [hlen]
    exact hblocks
  · rw [hlen]
    exact hmap

/-- What a creation logs points into the log. The other operations have a lemma each. -/
theorem Logged.createWrites (h : Logged s) {isFile : Bool} {k size : Nat} {entries : List Slot}
    (hread : s.getInodeFromInumber p = .ok parentInode) :
    Logged (LFS.createWrites { s with inodeMap := Function.update s.inodeMap i (some 1) } isFile
      p i parentInode k size entries) := by
  have hparent : ∀ n, s.disk.length ≤ n → InLog n (.inode (newParent isFile parentInode size)) := by
    intro n hle
    have hold := (h.inLog hread).mono hle
    unfold newParent
    split <;> exact hold
  have hmap : ∀ n, s.disk.length ≤ n → ∀ j a, Function.update s.inodeMap i (some 1) j = some a →
      a < n := fun n hle => update_lt (fun j a ha => (h.map_lt j a ha).trans_le hle)
        (h.two_le.trans hle)
  cases isFile with
  | true =>
    rw [createWrites_file]
    apply Logged.settle
    refine h.writeBlocks rfl rfl ?_ ?_
    · rw [List.forall_mem_cons, List.forall_mem_cons, List.forall_mem_singleton]
      refine ⟨inLog_directory entries, (hparent _ ?_).pointTo ?_, inLog_makeInode _ _ _⟩ <;> simp
    · exact update_lt (update_lt (hmap _ (by simp)) (by simp)) (by simp)
  | false =>
    rw [createWrites_dir]
    apply Logged.settle
    refine h.writeBlocks rfl rfl ?_ ?_
    · rw [List.forall_mem_cons, List.forall_mem_cons, List.forall_mem_cons,
        List.forall_mem_singleton]
      refine ⟨inLog_directory entries, inLog_directory _, (hparent _ ?_).pointTo ?_,
        (inLog_makeInode _ _ _).pointTo ?_⟩ <;> simp
    · exact update_lt (update_lt (hmap _ (by simp)) (by simp)) (by simp)

theorem Logged.linkWrites (h : Logged s) {k size : Nat} {entries : List Slot}
    (hread : s.getInodeFromInumber p = .ok parentInode)
    (hread' : s.getInodeFromInumber i = .ok inode) :
    Logged (s.linkWrites i p inode parentInode k size entries) := by
  have hparent : ∀ n, s.disk.length ≤ n → InLog n (.inode { parentInode with size := size }) :=
    fun n hle => (h.inLog hread).mono hle
  have hfile : ∀ n, s.disk.length ≤ n → InLog n (.inode { inode with refs := inode.refs + 1 }) :=
    fun n hle => (h.inLog hread').mono hle
  rw [linkWrites_eq]
  apply Logged.settle
  refine h.writeBlocks rfl rfl ?_ ?_
  · rw [List.forall_mem_cons, List.forall_mem_cons, List.forall_mem_singleton]
    refine ⟨inLog_directory entries, (hparent _ ?_).pointTo ?_, hfile _ ?_⟩ <;> simp
  · exact update_lt (update_lt (fun j a ha => (h.map_lt j a ha).trans_le (by simp)) (by simp))
      (by simp)

/-- The data blocks of a write are logged from the current end of the log on. -/
theorem potentialWrites_lt {offset ptr n : Nat} :
    (potentialWrites offset ptr n).length ≤ n ∧
      ∀ w ∈ potentialWrites offset ptr n, w.2 < ptr + (potentialWrites offset ptr n).length := by
  induction n generalizing offset ptr with
  | zero => exact ⟨Nat.le_refl 0, fun w hw => by cases hw⟩
  | succ n ih =>
    unfold potentialWrites
    split
    · obtain ⟨hlen, hlt⟩ := @ih (offset + 1) (ptr + 1)
      refine ⟨by simpa using hlen, fun w hw => ?_⟩
      rw [List.length_cons]
      rcases List.mem_cons.mp hw with rfl | hw
      · show ptr < _
        omega
      · have hlt := hlt w hw
        omega
    · exact ⟨Nat.zero_le _, fun w hw => by cases hw⟩

theorem InLog.foldl_pointTo {n : Nat} {writes : List (Nat × Nat)} (h : InLog n (.inode inode))
    (hwrites : ∀ w ∈ writes, w.2 < n) :
    InLog n (.inode (writes.foldl (fun inode w => LFS.pointTo inode w.1 w.2) inode)) := by
  induction writes generalizing inode with
  | nil => exact h
  | cons w writes ih =>
    rw [List.forall_mem_cons] at hwrites
    exact ih (h.pointTo hwrites.1) hwrites.2

theorem Logged.fileWrites (h : Logged s) (hread : s.getInodeFromInumber i = .ok inode)
    (offset : Nat) (contents : List Str) : Logged (s.fileWrites i inode offset contents).2 := by
  rw [fileWrites_eq s i inode offset contents rfl]
  obtain ⟨hlen, hlt⟩ := @potentialWrites_lt offset s.disk.length contents.length
  generalize potentialWrites offset s.disk.length contents.length = writes at hlen hlt
  have hdata : (writtenBlocks contents writes).length = writes.length := by
    unfold writtenBlocks
    rw [List.length_map, List.length_take]
    omega
  apply Logged.settle
  refine h.writeBlocks rfl rfl ?_ ?_
  · rw [List.forall_mem_append, List.forall_mem_singleton, List.length_append, hdata]
    constructor
    · intro block hblock
      obtain ⟨contents', _, rfl⟩ := List.mem_map.mp hblock
      exact inLog_data contents'
    · have hold : InLog (s.disk.length + (writes.length + 1)) (.inode { inode with
          size := offset + writes.length }) := (h.inLog hread).mono (by omega)
      refine hold.foldl_pointTo fun w hw => ?_
      have hw := hlt w hw
      omega
  · rw [List.length_append, List.length_append, hdata]
    refine update_lt (fun j a ha => (h.map_lt j a ha).trans_le (by omega)) ?_
    show _ < _ + (_ + 1)
    omega

theorem Logged.deleteWrites (h : Logged s) {k slot : Nat} {entries : List Slot}
    (hread : s.getInodeFromInumber p = .ok parentInode)
    (hread' : s.getInodeFromInumber i = .ok inode) :
    Logged ((unlinked s i inode).deleteWrites i p inode parentInode k slot entries) := by
  have hparent := h.inLog hread
  have hfile : InLog s.disk.length (.inode { inode with refs := inode.refs - 1 }) :=
    fun a ha => h.inLog hread' a ha
  -- The map may have lost the number of the file, and has gained nothing.
  have hmap : ∀ j a, (unlinked s i inode).inodeMap j = some a → a < s.disk.length := by
    intro j a ha
    by_cases hj : j = i
    · subst hj
      unfold unlinked at ha
      split at ha
      · have hnone : Function.update s.inodeMap j none j = some a := ha
        rw [Function.update_self] at hnone
        cases hnone
      · exact h.map_lt j a ha
    · rw [unlinked_inodeMap_of_ne s i inode hj] at ha
      exact h.map_lt j a ha
  have hunlinked : Logged (unlinked s i inode) := by
    unfold unlinked at hmap ⊢
    split
    · rw [if_pos ‹_›] at hmap
      exact ⟨h.closed, h.cr_lt, hmap, h.two_le⟩
    · exact h
  have hlen : (unlinked s i inode).disk.length = s.disk.length := by rw [unlinked_disk]
  -- The inode of the file is logged only if it keeps a link.
  by_cases hrefs : 1 < inode.refs
  · rw [deleteWrites_more _ i p hrefs]
    apply Logged.settle
    refine hunlinked.writeBlocks rfl rfl ?_ ?_
    · rw [List.forall_mem_cons, List.forall_mem_cons, List.forall_mem_singleton, hlen]
      refine ⟨inLog_directory _, (hparent.mono ?_).pointTo ?_, hfile.mono ?_⟩ <;> simp
    · rw [hlen]
      exact update_lt (update_lt (fun j a ha => (hmap j a ha).trans_le (by simp)) (by simp))
        (by simp)
  · rw [deleteWrites_last _ i p hrefs]
    apply Logged.settle
    refine hunlinked.writeBlocks rfl rfl ?_ ?_
    · rw [List.forall_mem_cons, List.forall_mem_singleton, hlen]
      refine ⟨inLog_directory _, (hparent.mono ?_).pointTo ?_⟩ <;> simp
    · rw [hlen]
      exact update_lt (fun j a ha => (hmap j a ha).trans_le (by simp)) (by simp)

theorem Logged.create (h : Logged s) {path : Str} {isFile : Bool} {pick : Nat} {rc : Int}
    (hrun : s.create path isFile pick = .ok (rc, t)) : Logged t := by
  rcases create_cases hrun with ⟨_, e, rfl⟩ | ⟨_, s', p, i, parentInode, name, k, size, entries,
    hplan, rfl⟩
  · exact h.errors e
  · obtain ⟨hread, _⟩ := walkPath_parent hplan.walk
    obtain ⟨e, rfl⟩ := hplan.frame
    exact (h.errors e).createWrites hread

/-- Every operation leaves a state whose addresses are in the log. -/
theorem Logged.run (h : Logged s) {op : Op} {rc : Int} (hrun : op.run s = .ok (rc, t)) :
    Logged t := by
  cases op with
  | fileCreate path pick => exact (h.errors []).create hrun
  | dirCreate path pick => exact (h.errors []).create hrun
  | fileLink srcpath dstpath =>
    rcases fileLink_cases hrun with ⟨_, e, rfl⟩ | ⟨_, s', i, p, inode, parentInode, name, k, size,
      entries, hplan, rfl⟩
    · exact h.errors e
    · obtain ⟨w, s₁, hsrc, _, hdst⟩ := hplan.src
      obtain ⟨hread, _⟩ := walkPath_parent hdst
      obtain ⟨e, rfl⟩ := walkPath_frame hsrc
      obtain ⟨e', rfl⟩ := walkPath_frame hdst
      exact (h.errors e').linkWrites hread hplan.read
  | fileWrite path offset numBlks draw =>
    rcases fileWrite_cases hrun with ⟨_, e, rfl⟩ | ⟨s', i, inode, hplan, _, written, _, hwrites⟩
    · exact h.errors e
    · obtain ⟨e, rfl⟩ := hplan.frame
      have hlogged := (h.errors e).fileWrites (i := i) hplan.read offset.toNat
        (makeRandomBlocks draw numBlks)
      rw [hwrites] at hlogged
      exact hlogged
  | fileDelete path =>
    rcases fileDelete_cases hrun with ⟨_, e, rfl⟩ | ⟨_, s', i, p, inode, parentInode, name, k, slot,
      entries, hplan, rfl⟩
    · exact h.errors e
    · obtain ⟨hread, _⟩ := walkPath_parent hplan.walk
      obtain ⟨e, rfl⟩ := hplan.frame
      exact (h.errors e).deleteWrites hread hplan.read
  | sync =>
    obtain ⟨_, rfl⟩ := Prod.mk.inj (Except.ok.inj hrun)
    exact (h.errors []).crSync

/-- So does `__init__`. -/
theorem logged_new (useDiskCr noForceCheckpoints : Bool) (inodePolicy : InodePolicy) :
    Logged (LFS.new useDiskCr noForceCheckpoints inodePolicy) where
  closed := by
    refine ⟨⟨_, rfl⟩, ?_⟩
    -- the first four blocks do not depend on the options
    show ∀ block ∈ (LFS.new false false .sequential).disk, ∀ a ∈ addresses block, a < 4
    decide +kernel
  cr_lt a ha := by
    obtain rfl : a = 3 := by simpa [LFS.new, LFS.log] using ha
    show 3 < 4
    decide
  map_lt := update_lt (fun i a ha => by cases ha) (show 2 < 4 by decide)
  two_le := show 2 ≤ 4 by decide

end Logging

/-! ## What a stop leaves

The recorded disks of an operation are its write prefixes: the first is the disk it starts from,
each of the others is the one before it with one more write, and the last is the disk it ends
with. `From` holds while the operation only logs and `Done` after the checkpoint. -/

/-- One write of the program: `log` puts a block behind the last one, and `cr_sync` puts a
checkpoint into block 0. -/
def OneWrite (d d' : List Block) : Prop :=
  (∃ block, d' = d ++ [block]) ∨
    ∃ entries, d' = d.set ADDR_CHECKPOINT_BLOCK (.checkpoint entries)

/-- The disks from that of `s` to the one of now, one for each write. -/
structure Recorder.Prefixes (s : LFS) (r : Recorder) : Prop where
  first : r.disks.head? = some s.disk
  now : r.disks.getLast? = some r.lfs.disk
  chain : r.disks.IsChain OneWrite

/-- No recorded disk has lost a block of `s.disk`. -/
structure Recorder.From (s : LFS) (r : Recorder) : Prop where
  flag : r.lfs.noForceCheckpoints = s.noForceCheckpoints
  last : ∃ blocks, r.lfs.disk = s.disk ++ blocks
  all : ∀ d ∈ r.disks, ∃ blocks, d = s.disk ++ blocks
  prefixes : r.Prefixes s

/-- After the operation: its last disk may have a new checkpoint. -/
structure Recorder.Done (s : LFS) (r : Recorder) : Prop where
  flag : r.lfs.noForceCheckpoints = s.noForceCheckpoints
  last : s.noForceCheckpoints = true → ∃ blocks, r.lfs.disk = s.disk ++ blocks
  all : ∀ d ∈ r.disks, (∃ blocks, d = s.disk ++ blocks) ∨
    s.noForceCheckpoints = false ∧ d = r.lfs.disk
  prefixes : r.Prefixes s

section Recording

variable {s s' : LFS} {r r' : Recorder} {rc : Int} {path : Str}

/-- A write adds the disk it leaves, which comes from the last one by that write. -/
theorem Recorder.Prefixes.snoc (h : r.Prefixes s) (hlfs : r'.lfs = s')
    (hdisks : r'.disks = r.disks ++ [s'.disk]) (hwrite : OneWrite r.lfs.disk s'.disk) :
    r'.Prefixes s := by
  have hlast := h.now
  refine ⟨?_, ?_, ?_⟩
  · rw [hdisks, List.head?_append, h.first]
    rfl
  · rw [hdisks, hlfs, List.getLast?_concat]
  · rw [hdisks]
    refine h.chain.append (.singleton _) fun d hd d' hd' => ?_
    obtain rfl : r.lfs.disk = d := Option.some.inj (hlast.symm.trans hd)
    obtain rfl : s'.disk = d' := Option.some.inj hd'
    exact hwrite

/-- Logging a block is one write. -/
theorem Recorder.Prefixes.log (h : r.Prefixes s) (block : Block) :
    (Device.log r block).2.Prefixes s :=
  h.snoc rfl rfl (Or.inl ⟨block, rfl⟩)

/-- So is writing the checkpoint. -/
theorem Recorder.Prefixes.crSync (h : r.Prefixes s) : (Device.crSync r).Prefixes s :=
  h.snoc rfl rfl (Or.inr ⟨r.lfs.cr, rfl⟩)

/-- A step in memory writes nothing. -/
theorem Recorder.Prefixes.memory (h : r.Prefixes s) {f : LFS → LFS}
    (hdisk : (f r.lfs).disk = r.lfs.disk) : (Device.memory r f).Prefixes s :=
  ⟨h.first, h.now.trans (congrArg some hdisk.symm), h.chain⟩

/-- A logged block takes nothing away. -/
theorem Recorder.From.log (h : r.From s) (block : Block) : (Device.log r block).2.From s := by
  obtain ⟨blocks, hblocks⟩ := h.last
  have hlog : (Device.log r block).2.lfs.disk = s.disk ++ (blocks ++ [block]) := by
    show r.lfs.disk ++ [block] = _
    rw [hblocks, List.append_assoc]
  refine ⟨h.flag, ⟨_, hlog⟩, fun d hd => ?_, h.prefixes.log block⟩
  rcases List.mem_append.mp hd with hold | hnew
  · exact h.all d hold
  · obtain rfl := List.mem_singleton.mp hnew
    exact ⟨_, hlog⟩

theorem Recorder.From.memory (h : r.From s) {f : LFS → LFS} (hdisk : (f r.lfs).disk = r.lfs.disk)
    (hflag : (f r.lfs).noForceCheckpoints = r.lfs.noForceCheckpoints) :
    (Device.memory r f).From s := by
  obtain ⟨blocks, hblocks⟩ := h.last
  exact ⟨hflag.trans h.flag, ⟨blocks, hdisk.trans hblocks⟩, h.all, h.prefixes.memory hdisk⟩

/-- The imap chunks of an operation are logged one by one behind what it has logged so far. -/
theorem Recorder.From.updateImapLoop (h : r.From s) (chunkList : List Cnum)
    (inums : List Inum) : (Device.updateImapLoop r chunkList inums).From s := by
  induction inums generalizing r chunkList with
  | nil => exact h
  | cons inum inums ih =>
    unfold Device.updateImapLoop
    dsimp only
    split
    · exact ih h chunkList
    · exact ih ((h.log _).memory rfl rfl) _

theorem Recorder.From.done (h : r.From s) : r.Done s :=
  ⟨h.flag, fun _ => h.last, fun d hd => Or.inl (h.all d hd), h.prefixes⟩

/-- The checkpoint is the last write of an operation, and the only one that is no append. -/
theorem Recorder.From.forceCheckpoint (h : r.From s) : (Device.forceCheckpoint r).Done s := by
  unfold Device.forceCheckpoint
  split
  · exact h.done
  · -- only here is block 0 written
    rename_i hforced
    have hforced' : s.noForceCheckpoints = false := by
      rw [← h.flag]
      exact Bool.eq_false_iff.mpr hforced
    refine ⟨h.flag, fun hno => ?_, fun d hd => ?_, h.prefixes.crSync⟩
    · rw [hforced'] at hno
      cases hno
    · rcases List.mem_append.mp hd with hold | hnew
      · exact Or.inl (h.all d hold)
      · obtain rfl := List.mem_singleton.mp hnew
        exact Or.inr ⟨hforced', rfl⟩

/-- The chunks and the checkpoint end an operation. -/
theorem Recorder.From.settle (h : r.From s) (inums : List Inum) :
    (Device.forceCheckpoint (Device.updateImap r inums)).Done s :=
  (h.updateImapLoop [] inums).forceCheckpoint

/-- A creation logs the directory block, for a directory its first block, both inodes and the
chunks of both inode numbers. -/
theorem Recorder.From.createWrites (h : r.From s) (isFile : Bool) (p i : Inum)
    (parentInode : Inode) (k size : Nat) (entries : List Slot) :
    (Device.createWrites r isFile p i parentInode k size entries).Done s := by
  cases isFile with
  | true => exact (((((h.log _).log _).log _).memory rfl rfl).memory rfl rfl).settle [p, i]
  | false =>
    exact ((((((h.log _).log _).log _).log _).memory rfl rfl).memory rfl rfl).settle [p, i]

/-- A link logs the directory block, both inodes and the chunk of the directory. -/
theorem Recorder.From.linkWrites (h : r.From s) (i p : Inum) (inode parentInode : Inode)
    (k size : Nat) (entries : List Slot) :
    (Device.linkWrites r i p inode parentInode k size entries).Done s :=
  (((((h.log _).log _).log _).memory rfl rfl).memory rfl rfl).settle [p]

/-- The data blocks of a write, one after the other. -/
theorem Recorder.From.foldl_log (h : r.From s) (contents : List Str) :
    (contents.foldl (fun r data => (Device.log r (.dataBlock data)).2) r).From s := by
  induction contents generalizing r with
  | nil => exact h
  | cons data contents ih => exact ih (h.log _)

/-- A write to a file logs its data blocks, the inode and the chunk of the inode. -/
theorem Recorder.From.fileWrites (h : r.From s) (i : Inum) (inode : Inode) (offset : Nat)
    (contents : List Str) : (Device.fileWrites r i inode offset contents).2.Done s :=
  (((((h.foldl_log _).log _).memory rfl rfl).log _).memory rfl rfl).forceCheckpoint

/-- A deletion logs the inode of the file only if the file keeps a link. -/
theorem Recorder.From.deleteWrites (h : r.From s) (i p : Inum) (inode parentInode : Inode)
    (k slot : Nat) (entries : List Slot) :
    (Device.deleteWrites r i p inode parentInode k slot entries).Done s := by
  unfold Device.deleteWrites
  dsimp only
  split
  · exact ((((h.log _).log _).memory rfl rfl).log _ |>.memory rfl rfl).settle [i, p]
  · exact (((h.log _).log _).memory rfl rfl).settle [i, p]

/-! ## Stopping an operation -/

/-- A step in memory from one state to another. -/
theorem Recorder.From.become (h : r.From s) (hdisk : s'.disk = r.lfs.disk)
    (hflag : s'.noForceCheckpoints = r.lfs.noForceCheckpoints) :
    (Device.memory r fun _ => s').From s :=
  h.memory hdisk hflag

/-- An operation that is refused has written nothing. -/
theorem Recorder.From.refused (h : r.From s) (hdisk : s'.disk = r.lfs.disk)
    (hflag : s'.noForceCheckpoints = r.lfs.noForceCheckpoints) :
    (Device.memory r fun _ => s').Done s :=
  (h.become hdisk hflag).done

/-- A creation, on every way through `__file_create`. -/
theorem Recorder.From.create (h : r.From s) {isFile : Bool} {pick : Nat}
    (hrun : Device.create r path isFile pick = .ok (rc, r')) : r'.Done s := by
  unfold Device.create at hrun
  obtain ⟨⟨⟨found, name, parent⟩, s'⟩, hwalk, hrun⟩ := bind_eq_ok.mp hrun
  obtain ⟨e, rfl⟩ := walkPath_frame hwalk
  dsimp only at hrun
  split at hrun
  · cases hrun
    exact h.refused rfl rfl
  · cases hrun
    exact h.refused rfl rfl
  · rcases LFS.allocateInode_cases { Device.lfs r with errorList := e } pick with hnone | ⟨i, _, halloc⟩
    · rw [hnone] at hrun
      cases hrun
      exact h.refused rfl rfl
    · rw [halloc] at hrun
      obtain ⟨added, _, hrun⟩ := bind_eq_ok.mp hrun
      cases added with
      | none =>
        obtain ⟨u, hback, hrun⟩ := bind_eq_ok.mp hrun
        obtain ⟨_, rfl⟩ := freeInode_eq_ok.mp hback
        cases hrun
        exact h.refused rfl rfl
      | some found =>
        obtain ⟨k, size, entries⟩ := found
        obtain ⟨_, rfl⟩ := Prod.mk.inj (Except.ok.inj hrun)
        apply Recorder.From.createWrites
        exact h.become rfl rfl

theorem Recorder.From.fileLink (h : r.From s) {srcpath dstpath : Str}
    (hrun : Device.fileLink r srcpath dstpath = .ok (rc, r')) : r'.Done s := by
  unfold Device.fileLink at hrun
  obtain ⟨⟨⟨found, srcName, srcParent⟩, s₁⟩, hsrc, hrun⟩ := bind_eq_ok.mp hrun
  obtain ⟨e, rfl⟩ := walkPath_frame hsrc
  cases found with
  | none =>
    cases hrun
    exact h.refused rfl rfl
  | some i =>
    obtain ⟨inode, _, hrun⟩ := bind_eq_ok.mp hrun
    dsimp only at hrun
    split at hrun
    · cases hrun
      exact h.refused rfl rfl
    · obtain ⟨⟨⟨found, name, parent⟩, s'⟩, hdst, hrun⟩ := bind_eq_ok.mp hrun
      obtain ⟨e', rfl⟩ := walkPath_frame hdst
      dsimp only at hrun
      split at hrun
      · cases hrun
        exact h.refused rfl rfl
      · cases hrun
      · obtain ⟨added, _, hrun⟩ := bind_eq_ok.mp hrun
        cases added with
        | none =>
          cases hrun
          exact h.refused rfl rfl
        | some found =>
          obtain ⟨k, size, entries⟩ := found
          obtain ⟨_, rfl⟩ := Prod.mk.inj (Except.ok.inj hrun)
          apply Recorder.From.linkWrites
          exact h.become rfl rfl

theorem Recorder.From.fileWrite (h : r.From s) {offset numBlks : Int} {draw : Nat → Char}
    (hrun : Device.fileWrite r path offset numBlks draw = .ok (rc, r')) : r'.Done s := by
  unfold Device.fileWrite at hrun
  obtain ⟨⟨⟨found, name, parent⟩, s'⟩, hwalk, hrun⟩ := bind_eq_ok.mp hrun
  obtain ⟨e, rfl⟩ := walkPath_frame hwalk
  cases found with
  | none =>
    cases hrun
    exact h.refused rfl rfl
  | some i =>
    obtain ⟨inode, _, hrun⟩ := bind_eq_ok.mp hrun
    dsimp only at hrun
    split at hrun
    · cases hrun
      exact h.refused rfl rfl
    · split at hrun
      · cases hrun
        exact h.refused rfl rfl
      · obtain ⟨_, rfl⟩ := Prod.mk.inj (Except.ok.inj hrun)
        apply Recorder.From.fileWrites
        exact h.become rfl rfl

theorem freeLast_frame {u : LFS} {i : Inum} {inode : Inode} (h : s.freeLast i inode = .ok u) :
    u.disk = s.disk ∧ u.noForceCheckpoints = s.noForceCheckpoints := by
  unfold freeLast at h
  split at h
  · rw [(freeInode_eq_ok.mp h).2]
    exact ⟨rfl, rfl⟩
  · cases h
    exact ⟨rfl, rfl⟩

theorem Recorder.From.fileDelete (h : r.From s) (hrun : Device.fileDelete r path = .ok (rc, r')) :
    r'.Done s := by
  unfold Device.fileDelete at hrun
  obtain ⟨⟨⟨found, name, parent⟩, s'⟩, hwalk, hrun⟩ := bind_eq_ok.mp hrun
  obtain ⟨e, rfl⟩ := walkPath_frame hwalk
  dsimp only at hrun
  split at hrun
  · obtain ⟨inode, _, hrun⟩ := bind_eq_ok.mp hrun
    split at hrun
    · cases hrun
      exact h.refused rfl rfl
    · obtain ⟨u, hfree, hrun⟩ := bind_eq_ok.mp hrun
      obtain ⟨slot, _, hrun⟩ := bind_eq_ok.mp hrun
      cases slot with
      | none => cases hrun
      | some slot =>
        obtain ⟨entries, _, hrun⟩ := bind_eq_ok.mp hrun
        obtain ⟨_, rfl⟩ := Prod.mk.inj (Except.ok.inj hrun)
        apply Recorder.From.deleteWrites
        obtain ⟨hdisk, hflag⟩ := freeLast_frame hfree
        exact h.become hdisk hflag
  · cases hrun
    exact h.refused rfl rfl

theorem Recorder.from_start (s : LFS) : Recorder.From s ⟨s, [s.disk]⟩ where
  flag := rfl
  last := ⟨[], (List.append_nil _).symm⟩
  all d hd := by
    obtain rfl := List.mem_singleton.mp hd
    exact ⟨[], (List.append_nil _).symm⟩
  prefixes := ⟨rfl, rfl, .singleton _⟩

/-- Every operation but `sync` records disks that hold the old log, and ends with a checkpoint at
most. -/
theorem Op.record_done {op : Op} (hsync : op ≠ .sync) (h : op.record s = .ok (rc, r)) :
    r.Done s := by
  have hstart := Recorder.from_start s
  cases op with
  | fileCreate path pick => exact (hstart.memory (f := (·.errorClear)) rfl rfl).create h
  | dirCreate path pick => exact (hstart.memory (f := (·.errorClear)) rfl rfl).create h
  | fileLink srcpath dstpath => exact hstart.fileLink h
  | fileWrite path offset numBlks draw => exact hstart.fileWrite h
  | fileDelete path => exact hstart.fileDelete h
  | sync => exact absurd rfl hsync

/-- What a recorded operation returns and leaves is what the operation does. -/
theorem Op.run_of_record {op : Op} (h : op.record s = .ok (rc, r)) :
    op.run s = .ok (rc, r.lfs) := by
  rw [← Op.record_run, h]
  rfl

/-- Every operation that ends can be recorded. -/
theorem Op.record_of_run {op : Op} {t : LFS} (h : op.run s = .ok (rc, t)) :
    ∃ r, op.record s = .ok (rc, r) ∧ r.lfs = t := by
  rw [← Op.record_run] at h
  cases hrecord : op.record s with
  | error e =>
    rw [hrecord] at h
    cases h
  | ok a =>
    rw [hrecord] at h
    cases h
    exact ⟨a.2, rfl, rfl⟩

end Recording

section Atomicity

variable {s t : LFS} {r : Recorder} {op : Op} {rc : Int} {useDiskCr noForceCheckpoints : Bool}
  {inodePolicy : InodePolicy} {as : List (Op × Int)}

/-- In every reachable state the addresses are in the log. -/
theorem logged_reachable (h : (fileSystem useDiskCr noForceCheckpoints inodePolicy).Reachable s) :
    Logged s := by
  refine h.invariant ?_ ?_
  · intro s hs
    subst hs
    exact logged_new ..
  · intro s a t hs hstep
    exact hs.run (next_eq_some.mp hstep)

/-- Without its checkpoint an operation leaves the tree on disk as it was. -/
theorem Logged.stop (h : Logged s) (hsync : op ≠ .sync) (hrecord : op.record s = .ok (rc, r)) :
    ∀ d ∈ r.disks, treeOn d = treeOn s.disk ∨ s.noForceCheckpoints = false ∧ d = r.lfs.disk := by
  intro d hd
  rcases (Op.record_done hsync hrecord).all d hd with ⟨blocks, rfl⟩ | hlast
  · exact Or.inl (h.closed.treeOn_append blocks)
  · exact Or.inr hlast

/-- Without forced checkpoints a run keeps the tree on disk until the next `sync`. -/
theorem Logged.unforced (h : Logged s) (hno : s.noForceCheckpoints = true)
    (hrun : (fileSystem useDiskCr noForceCheckpoints inodePolicy).Run s as t)
    (hsync : ∀ a ∈ as, a.1 ≠ .sync) :
    Logged t ∧ t.noForceCheckpoints = true ∧ treeOn t.disk = treeOn s.disk := by
  induction hrun with
  | nil => exact ⟨h, hno, rfl⟩
  | snoc run last ih =>
    rw [List.forall_mem_append, List.forall_mem_singleton] at hsync
    obtain ⟨hlogged, hflag, htree⟩ := ih hsync.1
    have hstep := next_eq_some.mp last
    obtain ⟨r, hrecord, rfl⟩ := Op.record_of_run hstep
    have hdone := Op.record_done hsync.2 hrecord
    obtain ⟨blocks, hblocks⟩ := hdone.last hflag
    refine ⟨hlogged.run hstep, hdone.flag.trans hflag, ?_⟩
    rw [hblocks, hlogged.closed.treeOn_append, htree]

/-- No operation changes the flag of `-N`. -/
theorem flag_reachable (h : (fileSystem useDiskCr noForceCheckpoints inodePolicy).Reachable s) :
    s.noForceCheckpoints = noForceCheckpoints := by
  refine h.invariant (I := (·.noForceCheckpoints = noForceCheckpoints)) ?_ ?_
  · intro s hs
    subst hs
    rfl
  · intro s a t hs hstep
    obtain ⟨op, rc⟩ := a
    cases op with
    | sync =>
      obtain ⟨_, rfl⟩ := Prod.mk.inj (Except.ok.inj (next_eq_some.mp hstep))
      exact hs
    | _ =>
      obtain ⟨r, hrecord, rfl⟩ := Op.record_of_run (next_eq_some.mp hstep)
      exact (Op.record_done (by simp) hrecord).flag.trans hs

/-- **A stop is atomic.** The recorded disks of an operation are its write prefixes, and from each
of them block 0 leads to the tree from before the operation or to the tree from after it. Without
forced checkpoints the tree on disk stays that of the last `sync`, over whole runs and wherever the
operation after the run is stopped. -/
theorem crash_atomic (h : (fileSystem useDiskCr noForceCheckpoints inodePolicy).Reachable s) :
    (noForceCheckpoints = false → ∀ (op : Op) rc r, op ≠ .sync → op.record s = .ok (rc, r) →
      op.run s = .ok (rc, r.lfs) ∧ r.Prefixes s ∧
        ∀ d ∈ r.disks, treeOn d = treeOn s.disk ∨ treeOn d = treeOn r.lfs.disk) ∧
    (noForceCheckpoints = true → ∀ as t,
      (fileSystem useDiskCr noForceCheckpoints inodePolicy).Run s as t →
      (∀ a ∈ as, a.1 ≠ .sync) → treeOn t.disk = treeOn s.disk ∧
        ∀ (op : Op) rc r, op ≠ .sync → op.record t = .ok (rc, r) →
          r.Prefixes t ∧ ∀ d ∈ r.disks, treeOn d = treeOn s.disk) := by
  have hlogged := logged_reachable h
  constructor
  · intro _ op rc r hsync hrecord
    refine ⟨Op.run_of_record hrecord, (Op.record_done hsync hrecord).prefixes, fun d hd => ?_⟩
    rcases hlogged.stop hsync hrecord d hd with hbefore | ⟨_, rfl⟩
    · exact Or.inl hbefore
    · exact Or.inr rfl
  · intro hno as t hrun hsync
    obtain ⟨hlogged', hflag, htree⟩ := hlogged.unforced ((flag_reachable h).trans hno) hrun hsync
    refine ⟨htree, fun op rc r hop hrecord =>
      ⟨(Op.record_done hop hrecord).prefixes, fun d hd => ?_⟩⟩
    rcases hlogged'.stop hop hrecord d hd with hbefore | ⟨hforced, _⟩
    · exact hbefore.trans htree
    · rw [hflag] at hforced
      cases hforced

/-- The creation of `/a` in a new file system, stopped after any of its writes. -/
theorem crash_atomic_create :
    ∃ r, (Op.fileCreate ['/', 'a'] 0).record (LFS.new false false .sequential) = .ok (0, r) ∧
      r.Prefixes (LFS.new false false .sequential) ∧
      ∀ d ∈ r.disks,
        treeOn d = treeOn (LFS.new false false .sequential).disk ∨ treeOn d = treeOn r.lfs.disk := by
  have hcreates : ((Op.fileCreate ['/', 'a'] 0).run (LFS.new false false .sequential)).map (·.1) =
      .ok 0 := by decide +kernel
  cases hrun : (Op.fileCreate ['/', 'a'] 0).run (LFS.new false false .sequential) with
  | error e =>
    rw [hrun] at hcreates
    cases hcreates
  | ok a =>
    obtain ⟨rc, t⟩ := a
    rw [hrun] at hcreates
    obtain rfl : rc = 0 := Except.ok.inj hcreates
    obtain ⟨r, hrecord, _⟩ := Op.record_of_run hrun
    have hreach : (fileSystem false false .sequential).Reachable
        (LFS.new false false .sequential) := Lts.Reachable.of_init rfl
    obtain ⟨hatomic, _⟩ := crash_atomic hreach
    exact ⟨r, hrecord, (hatomic rfl _ 0 r (by simp) hrecord).2⟩

end Atomicity

end OsLab.Lfs
