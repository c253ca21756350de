import OsLab.Lfs.Disk

/-!
# What an LFS operation does

An operation that does not abort is refused and changes nothing but `error_list`, or it found what
it needs (its plan) and writes. Everything later is proved from these case distinctions.

* **`walkPath_frame`**, **`walkPath_parent`** -- a walk changes the error list at most, and a parent
  that it returns has been read.
* **`CreatePlan`**, **`LinkPlan`**, **`WritePlan`**, **`DeletePlan`** -- what each operation has
  found when it starts to write.
* **`create_cases`**, **`fileLink_cases`**, **`fileWrite_cases`**, **`fileDelete_cases`** -- the two
  outcomes of each.
-/

namespace OsLab.Lfs

open LFS

variable {s t : LFS} {path : Str} {rc : Int}

/-! ## Walking -/

/-- The loop of the walk reports errors and changes nothing else. -/
theorem walkLoop_frame {p : Inum} {names : List Str} {r : Option Inum}
    (h : s.walkLoop p names = .ok (r, t)) : ∃ e, t = { s with errorList := e } := by
  induction names generalizing p with
  | nil =>
    obtain ⟨_, rfl⟩ := Prod.mk.inj (Except.ok.inj h)
    exact ⟨s.errorList, rfl⟩
  | cons name names ih =>
    unfold walkLoop at h
    obtain ⟨⟨found, inode⟩, _, h⟩ := bind_eq_ok.mp h
    cases found with
    | none =>
      obtain ⟨_, rfl⟩ := Prod.mk.inj (Except.ok.inj h)
      exact ⟨_, rfl⟩
    | some i =>
      dsimp only at h
      split at h
      · obtain ⟨_, rfl⟩ := Prod.mk.inj (Except.ok.inj h)
        exact ⟨_, rfl⟩
      · exact ih h

/-- So does the whole walk. -/
theorem walkPath_frame {w : Walk} (h : s.walkPath path = .ok (w, t)) :
    ∃ e, t = { s with errorList := e } := by
  unfold walkPath at h
  dsimp only at h
  split at h
  · obtain ⟨_, rfl⟩ := Prod.mk.inj (Except.ok.inj h)
    exact ⟨_, rfl⟩
  · obtain ⟨⟨parent, u⟩, hloop, h⟩ := bind_eq_ok.mp h
    obtain ⟨e, rfl⟩ := walkLoop_frame hloop
    cases parent with
    | none =>
      obtain ⟨_, rfl⟩ := Prod.mk.inj (Except.ok.inj h)
      exact ⟨e, rfl⟩
    | some p =>
      obtain ⟨name, _, h⟩ := bind_eq_ok.mp h
      obtain ⟨⟨found, inode⟩, _, h⟩ := bind_eq_ok.mp h
      obtain ⟨_, rfl⟩ := Prod.mk.inj (Except.ok.inj h)
      exact ⟨e, rfl⟩

/-- A walk that finds a parent has read the directory and looked the last component up in it. -/
theorem walkPath_parent {found : Option Inum} {name : Str} {p : Inum} {parentInode : Inode}
    (h : s.walkPath path = .ok (⟨found, name, some (p, parentInode)⟩, t)) :
    s.getInodeFromInumber p = .ok parentInode ∧ parentInode.type = .directory ∧
      lookupLoop s.disk name parentInode.pointers = .ok found ∧
        (split path '/').getLast? = some name := by
  unfold walkPath at h
  dsimp only at h
  split at h
  · cases h
  · obtain ⟨⟨parent, u⟩, hloop, h⟩ := bind_eq_ok.mp h
    obtain ⟨e, rfl⟩ := walkLoop_frame hloop
    cases parent with
    | none => cases h
    | some q =>
      obtain ⟨name', hname, h⟩ := bind_eq_ok.mp h
      obtain ⟨⟨found', inode⟩, hlookup, h⟩ := bind_eq_ok.mp h
      unfold lookup at hlookup
      obtain ⟨inode', hread, hlookup⟩ := bind_eq_ok.mp hlookup
      obtain ⟨_, htype, hlookup⟩ := bind_eq_ok.mp hlookup
      obtain ⟨found'', hloop', hlookup⟩ := bind_eq_ok.mp hlookup
      cases hlookup
      cases h
      exact ⟨hread, by simpa using htype, hloop',
        List.getLast?_eq_getElem?.trans (index_some_eq_ok.mp hname)⟩

theorem errorLog_frame {s' : LFS} (h : ∃ e, s' = { s with errorList := e }) (e : Str) :
    ∃ e', s'.errorLog e = { s with errorList := e' } := by
  obtain ⟨e', rfl⟩ := h
  exact ⟨e' ++ [e], rfl⟩

/-- `allocate_inode` finds a free number and marks it, or finds none. -/
theorem LFS.allocateInode_cases (s : LFS) (pick : Nat) :
    s.allocateInode pick = (none, s) ∨
      ∃ i, s.inodeMap i = none ∧
        s.allocateInode pick =
          (some i, { s with inodeMap := Function.update s.inodeMap i (some 1) }) := by
  have hfree : ∀ {k : Nat} {i : Inum},
      ((List.finRange NUM_INODES).filter fun i => s.inodeMap i = none)[k]? = some i →
        s.inodeMap i = none := by
    intro k i hget
    simpa using (List.mem_filter.mp (List.mem_of_getElem? hget)).2
  unfold allocateInode
  cases hfound : s.freeInumber pick with
  | none => exact Or.inl rfl
  | some i =>
    refine Or.inr ⟨i, ?_, rfl⟩
    unfold freeInumber at hfound
    cases hpolicy : s.inodePolicy <;> rw [hpolicy] at hfound <;> exact hfree hfound

/-- `free_inode` succeeds exactly on a number in use. -/
theorem freeInode_eq_ok {i : Inum} :
    s.freeInode i = .ok t ↔
      s.inodeMap i ≠ none ∧ t = { s with inodeMap := Function.update s.inodeMap i none } := by
  unfold freeInode
  by_cases hi : s.inodeMap i = none
  · simp [hi, bind, Except.bind]
  · simp [hi, bind, Except.bind, pure, Except.pure, eq_comm]

/-! ## Plans -/

/-- `create` has found the directory `p`, a free inode number `i` and a slot. -/
structure CreatePlan (s : LFS) (path : Str) (s' : LFS) (p i : Inum) (parentInode : Inode)
    (name : Str) (k size : Nat) (entries : List (Str × Option Inum)) : Prop where
  walk : s.walkPath path = .ok (⟨none, name, some (p, parentInode)⟩, s')
  free : s.inodeMap i = none
  slot : addDirEntry s.disk parentInode name i = .ok (some (k, size, entries))

/-- `file_link` has found the file `i`, the directory `p` and a slot. -/
structure LinkPlan (s : LFS) (srcpath dstpath : Str) (s' : LFS) (i p : Inum)
    (inode parentInode : Inode) (name : Str) (k size : Nat)
    (entries : List (Str × Option Inum)) : Prop where
  src : ∃ w s₁, s.errorClear.walkPath srcpath = .ok (w, s₁) ∧ w.inodeNumber = some i ∧
    s₁.walkPath dstpath = .ok (⟨none, name, some (p, parentInode)⟩, s')
  read : s.getInodeFromInumber i = .ok inode
  type : inode.type = .regular
  slot : addDirEntry s.disk parentInode name i = .ok (some (k, size, entries))

/-- `file_write` has found the file `i`. -/
structure WritePlan (s : LFS) (path : Str) (s' : LFS) (i : Inum) (inode : Inode) : Prop where
  walk : ∃ w, s.errorClear.walkPath path = .ok (w, s') ∧ w.inodeNumber = some i
  read : s.getInodeFromInumber i = .ok inode
  type : inode.type = .regular

/-- `file_delete` has found the file `i` and its entry in the directory `p`. -/
structure DeletePlan (s : LFS) (path : Str) (s' : LFS) (i p : Inum) (inode parentInode : Inode)
    (name : Str) (k slot : Nat) (entries : List (Str × Option Inum)) : Prop where
  walk : s.errorClear.walkPath path = .ok (⟨some i, name, some (p, parentInode)⟩, s')
  read : s.getInodeFromInumber i = .ok inode
  type : inode.type = .regular
  slot : findMatchingDirSlot s.disk name parentInode = .ok (some (k, slot))
  entries : readDirblock s.disk parentInode k = .ok entries

section Frames

variable {s' : LFS} {srcpath dstpath name : Str} {i p : Inum} {inode parentInode : Inode}
  {k slot size : Nat} {entries : List (Str × Option Inum)}

theorem CreatePlan.frame (h : CreatePlan s path s' p i parentInode name k size entries) :
    ∃ e, s' = { s with errorList := e } :=
  walkPath_frame h.walk

theorem LinkPlan.frame (h : LinkPlan s srcpath dstpath s' i p inode parentInode name k size entries) :
    ∃ e, s' = { s with errorList := e } := by
  obtain ⟨w, s₁, hsrc, _, hdst⟩ := h.src
  obtain ⟨e, rfl⟩ := walkPath_frame hsrc
  obtain ⟨e', rfl⟩ := walkPath_frame hdst
  exact ⟨e', rfl⟩

theorem WritePlan.frame (h : WritePlan s path s' i inode) : ∃ e, s' = { s with errorList := e } := by
  obtain ⟨w, hwalk, _⟩ := h.walk
  obtain ⟨e, rfl⟩ := walkPath_frame hwalk
  exact ⟨e, rfl⟩

theorem DeletePlan.frame (h : DeletePlan s path s' i p inode parentInode name k slot entries) :
    ∃ e, s' = { s with errorList := e } := by
  obtain ⟨e, rfl⟩ := walkPath_frame h.walk
  exact ⟨e, rfl⟩

end Frames

/-- The state when `file_delete` writes: the last link has been freed. -/
def unlinked (s : LFS) (i : Inum) (inode : Inode) : LFS :=
  if inode.refs = 1 then { s with inodeMap := Function.update s.inodeMap i none } else s

section Unlinked

variable (s : LFS) (i : Inum) (inode : Inode)

@[simp] theorem unlinked_disk : (unlinked s i inode).disk = s.disk := by
  unfold unlinked
  split <;> rfl

@[simp] theorem unlinked_cr : (unlinked s i inode).cr = s.cr := by
  unfold unlinked
  split <;> rfl

@[simp] theorem unlinked_forced :
    (unlinked s i inode).noForceCheckpoints = s.noForceCheckpoints := by
  unfold unlinked
  split <;> rfl

@[simp] theorem unlinked_useDiskCr : (unlinked s i inode).useDiskCr = s.useDiskCr := by
  unfold unlinked
  split <;> rfl

/-- Freeing the last link changes the map for that number only. -/
theorem unlinked_inodeMap_of_ne {j : Inum} (hj : j ≠ i) :
    (unlinked s i inode).inodeMap j = s.inodeMap j := by
  unfold unlinked
  split
  · exact Function.update_of_ne hj ..
  · rfl

end Unlinked

/-! ## Cases -/

/-- A creation that returns is refused, or carries out its plan. -/
theorem create_cases {isFile : Bool} {pick : Nat} (h : s.create path isFile pick = .ok (rc, t)) :
    (rc = -1 ∧ ∃ e, t = { s with errorList := e }) ∨
      rc = 0 ∧ ∃ s' p i parentInode name k size entries,
        CreatePlan s path s' p i parentInode name k size entries ∧
        t = LFS.createWrites { s' with inodeMap := Function.update s'.inodeMap i (some 1) } isFile
          p i parentInode k size entries := by
  unfold create Device.create at h
  obtain ⟨⟨⟨found, name, parent⟩, s'⟩, hwalk, h⟩ := bind_eq_ok.mp h
  have hframe := walkPath_frame hwalk
  dsimp only at h
  split at h
  · obtain ⟨rfl, rfl⟩ := Prod.mk.inj (Except.ok.inj h)
    exact Or.inl ⟨rfl, errorLog_frame hframe _⟩
  · obtain ⟨rfl, rfl⟩ := Prod.mk.inj (Except.ok.inj h)
    exact Or.inl ⟨rfl, errorLog_frame hframe _⟩
  · rename_i p parentInode
    rcases s'.allocateInode_cases pick with hnone | ⟨i, hfree, halloc⟩
    · rw [hnone] at h
      obtain ⟨rfl, rfl⟩ := Prod.mk.inj (Except.ok.inj h)
      exact Or.inl ⟨rfl, errorLog_frame hframe _⟩
    · rw [halloc] at h
      obtain ⟨added, hadd, h⟩ := bind_eq_ok.mp h
      cases added with
      | none =>
        -- the inode number is given back
        obtain ⟨u, hback, h⟩ := bind_eq_ok.mp h
        obtain ⟨_, hu⟩ := freeInode_eq_ok.mp hback
        obtain ⟨rfl, rfl⟩ := Prod.mk.inj (Except.ok.inj h)
        have hmap : Function.update (Function.update s'.inodeMap i (some 1)) i none =
            s'.inodeMap := by
          rw [Function.update_idem, ← hfree]
          exact Function.update_eq_self i s'.inodeMap
        have hu' : u = s'.errorLog ("error: directory is full (path ".toList ++ path ++
            ")".toList) := by
          rw [hu]
          simp only [errorLog, hmap]
        exact Or.inl ⟨rfl, hu' ▸ errorLog_frame hframe _⟩
      | some found =>
        obtain ⟨k, size, entries⟩ := found
        obtain ⟨rfl, rfl⟩ := Prod.mk.inj (Except.ok.inj h)
        obtain ⟨e, rfl⟩ := hframe
        exact Or.inr ⟨rfl, _, p, i, parentInode, name, k, size, entries, ⟨hwalk, hfree, hadd⟩, rfl⟩

/-- A link that returns is refused, or carries out its plan. -/
theorem fileLink_cases {srcpath dstpath : Str} (h : s.fileLink srcpath dstpath = .ok (rc, t)) :
    (rc = -1 ∧ ∃ e, t = { s with errorList := e }) ∨
      rc = 0 ∧ ∃ s' i p inode parentInode name k size entries,
        LinkPlan s srcpath dstpath s' i p inode parentInode name k size entries ∧
        t = s'.linkWrites i p inode parentInode k size entries := by
  unfold fileLink Device.fileLink at h
  obtain ⟨⟨⟨found, srcName, srcParent⟩, s₁⟩, hsrc, h⟩ := bind_eq_ok.mp h
  obtain ⟨e, rfl⟩ := walkPath_frame hsrc
  cases found with
  | none =>
    obtain ⟨rfl, rfl⟩ := Prod.mk.inj (Except.ok.inj h)
    exact Or.inl ⟨rfl, _, rfl⟩
  | some i =>
    obtain ⟨inode, hinode, h⟩ := bind_eq_ok.mp h
    dsimp only at h
    split at h
    · obtain ⟨rfl, rfl⟩ := Prod.mk.inj (Except.ok.inj h)
      exact Or.inl ⟨rfl, _, rfl⟩
    · rename_i htype
      obtain ⟨⟨⟨found, name, parent⟩, s'⟩, hdst, h⟩ := bind_eq_ok.mp h
      obtain ⟨e', rfl⟩ := walkPath_frame hdst
      dsimp only at h
      split at h
      · obtain ⟨rfl, rfl⟩ := Prod.mk.inj (Except.ok.inj h)
        exact Or.inl ⟨rfl, _, rfl⟩
      -- Without a parent of the destination the call aborts, which is no outcome.
      · cases h
      · rename_i p parentInode
        obtain ⟨added, hadd, h⟩ := bind_eq_ok.mp h
        cases added with
        | none =>
          obtain ⟨rfl, rfl⟩ := Prod.mk.inj (Except.ok.inj h)
          exact Or.inl ⟨rfl, _, rfl⟩
        | some found =>
          obtain ⟨k, size, entries⟩ := found
          obtain ⟨rfl, rfl⟩ := Prod.mk.inj (Except.ok.inj h)
          exact Or.inr ⟨rfl, _, i, p, inode, parentInode, name, k, size, entries,
            ⟨⟨_, _, hsrc, rfl, hdst⟩, hinode, not_not.mp htype, hadd⟩, rfl⟩

/-- A write that returns is refused, or carries out its plan. -/
theorem fileWrite_cases {offset numBlks : Int} {draw : Nat → Char}
    (h : s.fileWrite path offset numBlks draw = .ok (rc, t)) :
    (rc = -1 ∧ ∃ e, t = { s with errorList := e }) ∨
      ∃ s' i inode, WritePlan s path s' i inode ∧ (0 ≤ offset ∧ offset < NUM_INODE_PTRS) ∧
        ∃ written : Nat, rc = written ∧
          s'.fileWrites i inode offset.toNat (makeRandomBlocks draw numBlks) = (written, t) := by
  unfold fileWrite Device.fileWrite at h
  obtain ⟨⟨⟨found, name, parent⟩, s'⟩, hwalk, h⟩ := bind_eq_ok.mp h
  obtain ⟨e, rfl⟩ := walkPath_frame hwalk
  cases found with
  | none =>
    obtain ⟨rfl, rfl⟩ := Prod.mk.inj (Except.ok.inj h)
    exact Or.inl ⟨rfl, _, rfl⟩
  | some i =>
    obtain ⟨inode, hinode, h⟩ := bind_eq_ok.mp h
    dsimp only at h
    split at h
    · obtain ⟨rfl, rfl⟩ := Prod.mk.inj (Except.ok.inj h)
      exact Or.inl ⟨rfl, _, rfl⟩
    · rename_i htype
      split at h
      · obtain ⟨rfl, rfl⟩ := Prod.mk.inj (Except.ok.inj h)
        exact Or.inl ⟨rfl, _, rfl⟩
      · rename_i hoffset
        obtain ⟨rfl, rfl⟩ := Prod.mk.inj (Except.ok.inj h)
        exact Or.inr ⟨_, i, inode, ⟨⟨_, hwalk, rfl⟩, hinode, not_not.mp htype⟩, by omega, _, rfl,
          rfl⟩

/-- A deletion that returns is refused, or carries out its plan: the slot of the entry was there. -/
theorem fileDelete_cases (h : s.fileDelete path = .ok (rc, t)) :
    (rc = -1 ∧ ∃ e, t = { s with errorList := e }) ∨
      rc = 0 ∧ ∃ s' i p inode parentInode name k slot entries,
        DeletePlan s path s' i p inode parentInode name k slot entries ∧
        t = (unlinked s' i inode).deleteWrites i p inode parentInode k slot entries := by
  unfold fileDelete Device.fileDelete at h
  simp only [device_lfs, device_memory, device_deleteWrites] at h
  obtain ⟨⟨⟨found, name, parent⟩, s'⟩, hwalk, h⟩ := bind_eq_ok.mp h
  obtain ⟨e, rfl⟩ := walkPath_frame hwalk
  dsimp only at h
  split at h
  · rename_i i p parentInode
    obtain ⟨inode, hinode, h⟩ := bind_eq_ok.mp h
    split at h
    · obtain ⟨rfl, rfl⟩ := Prod.mk.inj (Except.ok.inj h)
      exact Or.inl ⟨rfl, _, rfl⟩
    · rename_i htype
      obtain ⟨u, hfree, h⟩ := bind_eq_ok.mp h
      -- The inode number is freed on the last link only.
      have hu : u = unlinked { s.errorClear with errorList := e } i inode := by
        unfold freeLast at hfree
        unfold unlinked
        split at hfree
        · rw [if_pos ‹_›]
          exact (freeInode_eq_ok.mp hfree).2
        · rw [if_neg ‹_›]
          exact (Except.ok.inj hfree).symm
      -- That changes `inode_map` and not yet the log.
      have hdisk : u.disk = s.disk := by
        rw [hu, unlinked]
        split <;> rfl
      rw [hdisk] at h
      obtain ⟨found, hslot, h⟩ := bind_eq_ok.mp h
      cases found with
      | none => cases h
      | some found =>
        obtain ⟨k, slot⟩ := found
        obtain ⟨entries, hentries, h⟩ := bind_eq_ok.mp h
        obtain ⟨rfl, rfl⟩ := Prod.mk.inj (Except.ok.inj h)
        exact Or.inr ⟨rfl, _, i, p, inode, parentInode, name, k, slot, entries,
          ⟨hwalk, hinode, not_not.mp htype, hslot, hentries⟩, by rw [hu]⟩
  · obtain ⟨rfl, rfl⟩ := Prod.mk.inj (Except.ok.inj h)
    exact Or.inl ⟨rfl, _, rfl⟩

/-- A step of a run is an operation that returns its code. -/
theorem next_eq_some {a : Op × Int} : next s a = some t ↔ a.1.run s = .ok (a.2, t) := by
  obtain ⟨op, rc⟩ := a
  unfold next
  dsimp only
  cases op.run s with
  | error e => simp
  | ok r =>
    obtain ⟨rc', u⟩ := r
    by_cases hrc : rc' = rc <;> simp [hrc]

end OsLab.Lfs
