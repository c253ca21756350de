import OsLab.Lfs.Checkpoint

/-!
# Runs over either read path

While the read paths agree, an operation that goes through with the inode map in memory goes through
in the same way with the one on disk. So does a run in which every link stays in one chunk of the
inode map.

* **`onDisk`** -- the same state, read through the checkpoint. What is written does not depend on
  it.
* **`Agreeing.lookup`**, **`Agreeing.walkPath`**, **`Agreeing.run`** -- what is read in memory is
  read on disk too, so an operation goes through.
* **`oneChunk`**, **`oneChunk_run`** -- the steps that link within one chunk, and that a run of
  agreement takes no others.
* **`onDisk_run`**, **`readPaths_agree_iff`** -- whole runs.
* **`link_across_chunks`** -- the run that ends the agreement.
-/

namespace OsLab.Lfs

open LFS

/-- The same state, read through the checkpoint. -/
def onDisk (s : LFS) : LFS := { s with useDiskCr := true }

/-! ## The writes do not read the inode map -/

section Writes

/-- The imap chunks that are logged do not depend on the read path, and neither does anything else
that is written. -/
theorem updateImapLoop_onDisk (s : LFS) (chunkList : List Cnum) (inums : List Inum) :
    (onDisk s).updateImapLoop chunkList inums = onDisk (s.updateImapLoop chunkList inums) := by
  induction inums generalizing s chunkList with
  | nil => rfl
  | cons inum inums ih =>
    rw [updateImapLoop_cons, updateImapLoop_cons]
    split
    · exact ih s chunkList
    · exact ih { s with
        disk := s.disk ++ [s.makeImapChunk (inumToChunk inum)]
        cr := s.cr.set (inumToChunk inum).val
          (some ((s.disk ++ [s.makeImapChunk (inumToChunk inum)]).length - 1)) } _

theorem settle_onDisk (s : LFS) (inums : List Inum) :
    ((onDisk s).updateImap inums).forceCheckpoint =
      onDisk (s.updateImap inums).forceCheckpoint := by
  have hcommute := updateImapLoop_onDisk s [] inums
  change (onDisk s).updateImap inums = onDisk (s.updateImap inums) at hcommute
  rw [hcommute, forceCheckpoint_def, forceCheckpoint_def]
  show (if (s.updateImap inums).noForceCheckpoints then _ else _) = _
  split <;> rfl

theorem createWrites_onDisk (s : LFS) (isFile : Bool) (p i : Inum) (parentInode : Inode)
    (k size : Nat) (entries : List (Str × Option Inum)) :
    (onDisk s).createWrites isFile p i parentInode k size entries =
      onDisk (s.createWrites isFile p i parentInode k size entries) := by
  cases isFile with
  | true =>
    rw [createWrites_file, createWrites_file, ← settle_onDisk]
    rfl
  | false =>
    rw [createWrites_dir, createWrites_dir, ← settle_onDisk]
    rfl

theorem linkWrites_onDisk (s : LFS) (i p : Inum) (inode parentInode : Inode) (k size : Nat)
    (entries : List (Str × Option Inum)) :
    (onDisk s).linkWrites i p inode parentInode k size entries =
      onDisk (s.linkWrites i p inode parentInode k size entries) := by
  rw [linkWrites_eq, linkWrites_eq, ← settle_onDisk]
  rfl

theorem deleteWrites_onDisk (s : LFS) (i p : Inum) (inode parentInode : Inode) (k slot : Nat)
    (entries : List (Str × Option Inum)) :
    (onDisk s).deleteWrites i p inode parentInode k slot entries =
      onDisk (s.deleteWrites i p inode parentInode k slot entries) := by
  by_cases hrefs : 1 < inode.refs
  · rw [deleteWrites_more _ _ _ hrefs, deleteWrites_more _ _ _ hrefs, ← settle_onDisk]
    rfl
  · rw [deleteWrites_last _ _ _ hrefs, deleteWrites_last _ _ _ hrefs, ← settle_onDisk]
    rfl

theorem fileWrites_onDisk (s : LFS) (i : Inum) (inode : Inode) (offset : Nat)
    (contents : List Str) :
    (onDisk s).fileWrites i inode offset contents =
      ((s.fileWrites i inode offset contents).1,
        onDisk (s.fileWrites i inode offset contents).2) := by
  rw [fileWrites_eq _ _ _ _ _ rfl, fileWrites_eq s _ _ _ _ rfl]
  dsimp only
  rw [← settle_onDisk]
  rfl

theorem allocateInode_onDisk (s : LFS) (pick : Nat) :
    (onDisk s).allocateInode pick =
      ((s.allocateInode pick).1, onDisk (s.allocateInode pick).2) := by
  have hsame : (onDisk s).freeInumber pick = s.freeInumber pick := rfl
  unfold allocateInode
  rw [hsame]
  cases s.freeInumber pick <;> rfl

/-- Inode numbers are taken and given back in the map in memory. -/
theorem freeInode_onDisk {s t : LFS} {i : Inum} (h : s.freeInode i = .ok t) :
    (onDisk s).freeInode i = .ok (onDisk t) := by
  obtain ⟨hi, rfl⟩ := freeInode_eq_ok.mp h
  exact freeInode_eq_ok.mpr ⟨hi, rfl⟩

theorem freeLast_onDisk {s t : LFS} {i : Inum} {inode : Inode} (h : s.freeLast i inode = .ok t) :
    (onDisk s).freeLast i inode = .ok (onDisk t) := by
  unfold freeLast at h ⊢
  split at h
  · rw [if_pos ‹_›]
    exact freeInode_onDisk h
  · rw [if_neg ‹_›]
    obtain rfl := Except.ok.inj h
    rfl

end Writes

/-! ## Reading -/

section Reading

variable {s t : LFS} {path : Str} {rc : Int}

/-- The address that is found from the checkpoint. -/
theorem inodeAddress_onDisk {i : Inum} {a : Nat} (h : s.diskAddress i = some (some a)) :
    (onDisk s).inodeAddress i = .ok (some a) := by
  unfold diskAddress at h
  split at h
  · rename_i entries hcheckpoint
    split at h
    · rename_i address hslot
      split at h
      · rename_i chunk hchunk
        have hread := index_some_eq_ok.mpr hcheckpoint
        have hread' := index_some_eq_ok.mpr hslot
        have hread'' := index_some_eq_ok.mpr hchunk
        have hentry := index_some_eq_ok.mpr h
        simp only [inodeAddress, onDisk, if_true, hread, hread', hread'', hentry, bind, Except.bind]
      · cases h
    · cases h
    · cases h
  · cases h

/-- The state reads its inode map in memory, where the checkpoint has the same. -/
structure Agreeing (s : LFS) : Prop where
  inMemory : s.useDiskCr = false
  agree : ReadPathsAgree s

theorem Agreeing.errors (h : Agreeing s) (e : List Str) : Agreeing { s with errorList := e } :=
  ⟨h.inMemory, h.agree⟩

/-- An inode that is read through the map in memory is read through the checkpoint. -/
theorem Agreeing.getInodeFromInumber (h : Agreeing s) {i : Inum} {inode : Inode}
    (hread : s.getInodeFromInumber i = .ok inode) :
    (onDisk s).getInodeFromInumber i = .ok inode := by
  unfold LFS.getInodeFromInumber at hread ⊢
  have haddr : s.inodeAddress i = .ok (s.inodeMap i) := by
    simp [inodeAddress, h.inMemory]
  rw [haddr] at hread
  cases hmap : s.inodeMap i with
  | none =>
    rw [hmap] at hread
    cases hread
  | some a =>
    rw [hmap] at hread
    have hdisk := inodeAddress_onDisk ((h.agree i).trans (congrArg some hmap))
    rw [hdisk]
    exact hread

/-- So a lookup finds the same. -/
theorem Agreeing.lookup (h : Agreeing s) {p : Inum} {name : Str} {r : Option Inum × Inode}
    (hread : s.lookup p name = .ok r) : (onDisk s).lookup p name = .ok r := by
  unfold LFS.lookup at hread ⊢
  obtain ⟨inode, hinode, hread⟩ := bind_eq_ok.mp hread
  exact bind_eq_ok.mpr ⟨inode, h.getInodeFromInumber hinode, hread⟩

theorem Agreeing.walkLoop (h : Agreeing s) {p : Inum} {names : List Str} {r : Option Inum}
    (hwalk : s.walkLoop p names = .ok (r, t)) :
    (onDisk s).walkLoop p names = .ok (r, onDisk t) := by
  induction names generalizing p with
  | nil =>
    obtain ⟨rfl, rfl⟩ := Prod.mk.inj (Except.ok.inj hwalk)
    rfl
  | cons name names ih =>
    unfold LFS.walkLoop at hwalk ⊢
    obtain ⟨⟨found, inode⟩, hlookup, hwalk⟩ := bind_eq_ok.mp hwalk
    refine bind_eq_ok.mpr ⟨_, h.lookup hlookup, ?_⟩
    cases found with
    | none =>
      obtain ⟨rfl, rfl⟩ := Prod.mk.inj (Except.ok.inj hwalk)
      rfl
    | some i =>
      dsimp only at hwalk ⊢
      split at hwalk
      · obtain ⟨rfl, rfl⟩ := Prod.mk.inj (Except.ok.inj hwalk)
        rw [if_pos ‹_›]
        rfl
      · rw [if_neg ‹_›]
        exact ih hwalk

/-- So a walk finds the same, and reports the same. -/
theorem Agreeing.walkPath (h : Agreeing s) {w : Walk} (hwalk : s.walkPath path = .ok (w, t)) :
    (onDisk s).walkPath path = .ok (w, onDisk t) := by
  unfold LFS.walkPath at hwalk ⊢
  dsimp only at hwalk ⊢
  split at hwalk
  · obtain ⟨rfl, rfl⟩ := Prod.mk.inj (Except.ok.inj hwalk)
    rw [if_pos ‹_›]
    rfl
  · rw [if_neg ‹_›]
    obtain ⟨⟨parent, u⟩, hloop, hwalk⟩ := bind_eq_ok.mp hwalk
    refine bind_eq_ok.mpr ⟨_, h.walkLoop hloop, ?_⟩
    obtain ⟨e, rfl⟩ := walkLoop_frame hloop
    cases parent with
    | none =>
      obtain ⟨rfl, rfl⟩ := Prod.mk.inj (Except.ok.inj hwalk)
      rfl
    | some p =>
      obtain ⟨name, hname, hwalk⟩ := bind_eq_ok.mp hwalk
      refine bind_eq_ok.mpr ⟨name, hname, ?_⟩
      obtain ⟨⟨found, inode⟩, hlookup, hwalk⟩ := bind_eq_ok.mp hwalk
      refine bind_eq_ok.mpr ⟨_, (h.errors e).lookup hlookup, ?_⟩
      obtain ⟨rfl, rfl⟩ := Prod.mk.inj (Except.ok.inj hwalk)
      rfl

/-! ## The operations -/

/-- So a creation goes through in the same way, as do the other operations. -/
theorem Agreeing.create (h : Agreeing s) {isFile : Bool} {pick : Nat}
    (hrun : s.create path isFile pick = .ok (rc, t)) :
    (onDisk s).create path isFile pick = .ok (rc, onDisk t) := by
  unfold LFS.create Device.create at hrun ⊢
  obtain ⟨⟨⟨found, name, parent⟩, s'⟩, hwalk, hrun⟩ := bind_eq_ok.mp hrun
  refine bind_eq_ok.mpr ⟨_, h.walkPath hwalk, ?_⟩
  cases found with
  | some i =>
    obtain ⟨rfl, rfl⟩ := Prod.mk.inj (Except.ok.inj hrun)
    rfl
  | none =>
    cases parent with
    | none =>
      obtain ⟨rfl, rfl⟩ := Prod.mk.inj (Except.ok.inj hrun)
      rfl
    | some parent =>
      obtain ⟨p, parentInode⟩ := parent
      dsimp only at hrun ⊢
      rw [allocateInode_onDisk]
      rcases s'.allocateInode_cases pick with hnone | ⟨i, _, halloc⟩
      · rw [hnone] at hrun ⊢
        obtain ⟨rfl, rfl⟩ := Prod.mk.inj (Except.ok.inj hrun)
        rfl
      · rw [halloc] at hrun ⊢
        obtain ⟨added, hadd, hrun⟩ := bind_eq_ok.mp hrun
        refine bind_eq_ok.mpr ⟨added, hadd, ?_⟩
        cases added with
        | none =>
          obtain ⟨u, hback, hrun⟩ := bind_eq_ok.mp hrun
          refine bind_eq_ok.mpr ⟨_, freeInode_onDisk hback, ?_⟩
          obtain ⟨rfl, rfl⟩ := Prod.mk.inj (Except.ok.inj hrun)
          rfl
        | some found =>
          obtain ⟨k, size, entries⟩ := found
          obtain ⟨rfl, rfl⟩ := Prod.mk.inj (Except.ok.inj hrun)
          exact congrArg (fun t => Except.ok ((0 : Int), t)) (createWrites_onDisk _ ..)

theorem Agreeing.fileLink (h : Agreeing s) {srcpath dstpath : Str}
    (hrun : s.fileLink srcpath dstpath = .ok (rc, t)) :
    (onDisk s).fileLink srcpath dstpath = .ok (rc, onDisk t) := by
  unfold LFS.fileLink Device.fileLink at hrun ⊢
  -- The walks read the same from the disk as from memory, so both runs take the same branch.
  obtain ⟨⟨⟨found, srcName, srcParent⟩, s₁⟩, hsrc, hrun⟩ := bind_eq_ok.mp hrun
  refine bind_eq_ok.mpr ⟨_, (h.errors []).walkPath hsrc, ?_⟩
  obtain ⟨e, rfl⟩ := walkPath_frame hsrc
  cases found with
  | none =>
    obtain ⟨rfl, rfl⟩ := Prod.mk.inj (Except.ok.inj hrun)
    rfl
  | some i =>
    obtain ⟨inode, hinode, hrun⟩ := bind_eq_ok.mp hrun
    refine bind_eq_ok.mpr ⟨inode, (h.errors e).getInodeFromInumber hinode, ?_⟩
    dsimp only at hrun ⊢
    split at hrun
    · obtain ⟨rfl, rfl⟩ := Prod.mk.inj (Except.ok.inj hrun)
      rw [if_pos ‹_›]
      rfl
    · rw [if_neg ‹_›]
      obtain ⟨⟨⟨found, name, parent⟩, s'⟩, hdst, hrun⟩ := bind_eq_ok.mp hrun
      refine bind_eq_ok.mpr ⟨_, (h.errors e).walkPath hdst, ?_⟩
      cases found with
      | some j =>
        obtain ⟨rfl, rfl⟩ := Prod.mk.inj (Except.ok.inj hrun)
        rfl
      | none =>
        cases parent with
        | none => cases hrun
        | some parent =>
          obtain ⟨p, parentInode⟩ := parent
          obtain ⟨added, hadd, hrun⟩ := bind_eq_ok.mp hrun
          refine bind_eq_ok.mpr ⟨added, hadd, ?_⟩
          cases added with
          | none =>
            obtain ⟨rfl, rfl⟩ := Prod.mk.inj (Except.ok.inj hrun)
            rfl
          | some found =>
            obtain ⟨k, size, entries⟩ := found
            obtain ⟨rfl, rfl⟩ := Prod.mk.inj (Except.ok.inj hrun)
            -- What is logged is the same, the imap chunk of the destination directory included.
            exact congrArg (fun t => Except.ok ((0 : Int), t)) (linkWrites_onDisk _ ..)

theorem Agreeing.fileWrite (h : Agreeing s) {offset numBlks : Int} {draw : Nat → Char}
    (hrun : s.fileWrite path offset numBlks draw = .ok (rc, t)) :
    (onDisk s).fileWrite path offset numBlks draw = .ok (rc, onDisk t) := by
  unfold LFS.fileWrite Device.fileWrite at hrun ⊢
  simp only [device_lfs, device_memory, device_fileWrites] at hrun ⊢
  obtain ⟨⟨⟨found, name, parent⟩, s'⟩, hwalk, hrun⟩ := bind_eq_ok.mp hrun
  refine bind_eq_ok.mpr ⟨_, (h.errors []).walkPath hwalk, ?_⟩
  obtain ⟨e, rfl⟩ := walkPath_frame hwalk
  cases found with
  | none =>
    obtain ⟨rfl, rfl⟩ := Prod.mk.inj (Except.ok.inj hrun)
    rfl
  | some i =>
    obtain ⟨inode, hinode, hrun⟩ := bind_eq_ok.mp hrun
    refine bind_eq_ok.mpr ⟨inode, (h.errors e).getInodeFromInumber hinode, ?_⟩
    dsimp only at hrun ⊢
    split at hrun
    · obtain ⟨rfl, rfl⟩ := Prod.mk.inj (Except.ok.inj hrun)
      rw [if_pos ‹_›]
      rfl
    · rw [if_neg ‹_›]
      split at hrun
      · obtain ⟨rfl, rfl⟩ := Prod.mk.inj (Except.ok.inj hrun)
        rw [if_pos ‹_›]
        rfl
      · rw [if_neg ‹_›, fileWrites_onDisk]
        obtain ⟨rfl, rfl⟩ := Prod.mk.inj (Except.ok.inj hrun)
        rfl

theorem Agreeing.fileDelete (h : Agreeing s) (hrun : s.fileDelete path = .ok (rc, t)) :
    (onDisk s).fileDelete path = .ok (rc, onDisk t) := by
  unfold LFS.fileDelete Device.fileDelete at hrun ⊢
  obtain ⟨⟨⟨found, name, parent⟩, s'⟩, hwalk, hrun⟩ := bind_eq_ok.mp hrun
  refine bind_eq_ok.mpr ⟨_, (h.errors []).walkPath hwalk, ?_⟩
  obtain ⟨e, rfl⟩ := walkPath_frame hwalk
  cases found with
  | none =>
    cases parent <;> obtain ⟨rfl, rfl⟩ := Prod.mk.inj (Except.ok.inj hrun) <;> rfl
  | some i =>
    cases parent with
    | none =>
      obtain ⟨rfl, rfl⟩ := Prod.mk.inj (Except.ok.inj hrun)
      rfl
    | some parent =>
      obtain ⟨p, parentInode⟩ := parent
      obtain ⟨inode, hinode, hrun⟩ := bind_eq_ok.mp hrun
      refine bind_eq_ok.mpr ⟨inode, (h.errors e).getInodeFromInumber hinode, ?_⟩
      dsimp only at hrun ⊢
      split at hrun
      · obtain ⟨rfl, rfl⟩ := Prod.mk.inj (Except.ok.inj hrun)
        rw [if_pos ‹_›]
        rfl
      · rw [if_neg ‹_›]
        obtain ⟨u, hfree, hrun⟩ := bind_eq_ok.mp hrun
        refine bind_eq_ok.mpr ⟨onDisk u, freeLast_onDisk hfree, ?_⟩
        obtain ⟨slot, hslot, hrun⟩ := bind_eq_ok.mp hrun
        refine bind_eq_ok.mpr ⟨slot, hslot, ?_⟩
        cases slot with
        | none => cases hrun
        | some slot =>
          obtain ⟨k, slot⟩ := slot
          obtain ⟨entries, hentries, hrun⟩ := bind_eq_ok.mp hrun
          refine bind_eq_ok.mpr ⟨entries, hentries, ?_⟩
          obtain ⟨rfl, rfl⟩ := Prod.mk.inj (Except.ok.inj hrun)
          exact congrArg (fun t => Except.ok ((0 : Int), t)) (deleteWrites_onDisk _ ..)

/-- Every operation goes through in the same way, if the read paths agreed in front of it. -/
theorem Agreeing.run (h : Agreeing s) {op : Op} (hrun : op.run s = .ok (rc, t)) :
    op.run (onDisk s) = .ok (rc, onDisk t) := by
  cases op with
  | fileCreate path pick => exact (h.errors []).create hrun
  | dirCreate path pick => exact (h.errors []).create hrun
  | fileLink srcpath dstpath => exact h.fileLink hrun
  | fileWrite path offset numBlks draw => exact h.fileWrite hrun
  | fileDelete path => exact h.fileDelete hrun
  | sync =>
    obtain ⟨rfl, rfl⟩ := Prod.mk.inj (Except.ok.inj hrun)
    rfl

end Reading

/-! ## Runs -/

section Runs

variable {s t : LFS} {op : Op} {rc : Int}

theorem settle_useDiskCr (s : LFS) (inums : List Inum) :
    (s.updateImap inums).forceCheckpoint.useDiskCr = s.useDiskCr := by
  obtain ⟨blocks, cr, heq⟩ := s.updateImap_eq inums
  rw [heq]
  rw [forceCheckpoint_def]
  split <;> rfl

theorem create_useDiskCr {path : Str} {isFile : Bool} {pick : Nat}
    (h : s.create path isFile pick = .ok (rc, t)) : t.useDiskCr = s.useDiskCr := by
  rcases create_cases h with ⟨_, e, rfl⟩ | ⟨_, s', p, i, _, _, k, size, entries, hplan, rfl⟩
  · rfl
  · obtain ⟨e, rfl⟩ := hplan.frame
    cases isFile with
    | true => rw [createWrites_file, settle_useDiskCr]
    | false => rw [createWrites_dir, settle_useDiskCr]

/-- No operation changes the read path. -/
theorem run_useDiskCr (h : op.run s = .ok (rc, t)) : t.useDiskCr = s.useDiskCr := by
  cases op with
  | fileCreate path pick => exact create_useDiskCr (s := s.errorClear) h
  | dirCreate path pick => exact create_useDiskCr (s := s.errorClear) h
  | fileLink srcpath dstpath =>
    rcases fileLink_cases h with ⟨_, e, rfl⟩ | ⟨_, _, _, _, _, _, _, _, _, _, hplan, rfl⟩
    · rfl
    · obtain ⟨e, rfl⟩ := hplan.frame
      rw [linkWrites_eq, settle_useDiskCr]
  | fileWrite path offset numBlks draw =>
    rcases fileWrite_cases h with ⟨_, e, rfl⟩ | ⟨_, _, _, hplan, _, n, _, hwrites⟩
    · rfl
    · obtain ⟨e, rfl⟩ := hplan.frame
      rw [fileWrites_eq _ _ _ _ _ rfl] at hwrites
      obtain ⟨_, rfl⟩ := Prod.mk.inj hwrites
      rw [settle_useDiskCr]
  | fileDelete path =>
    rcases fileDelete_cases h with ⟨_, e, rfl⟩ |
      ⟨_, _, i, p, inode, _, _, _, _, _, hplan, rfl⟩
    · rfl
    · obtain ⟨e, rfl⟩ := hplan.frame
      by_cases hrefs : 1 < inode.refs
      · rw [deleteWrites_more _ _ _ hrefs, settle_useDiskCr, unlinked_useDiskCr]
      · rw [deleteWrites_last _ _ _ hrefs, settle_useDiskCr, unlinked_useDiskCr]
  | sync =>
    obtain ⟨_, rfl⟩ := Prod.mk.inj (Except.ok.inj h)
    rfl

/-- The steps that link within one chunk. -/
def oneChunk (useDiskCr : Bool) (inodePolicy : InodePolicy) : Lts LFS (Op × Int) :=
  (fileSystem useDiskCr false inodePolicy).restrict fun s a => InOneChunk s a.1

variable {useDiskCr : Bool} {inodePolicy : InodePolicy} {as : List (Op × Int)}

/-- A run that links within chunks keeps the disk up to date. -/
theorem mirrors_run (h : (oneChunk useDiskCr inodePolicy).Run s as t) (hs : Mirrors s) :
    Mirrors t :=
  h.invariant (fun _ _ _ hu hstep => (hu.step (next_eq_some.mp hstep.2)).1 hstep.1) hs

/-- A run in which the read paths agree after every operation links within chunks only. -/
theorem oneChunk_run (hs : Mirrors s) (h : (fileSystem useDiskCr false inodePolicy).Run s as t)
    (hagree : ∀ bs cs u, as = bs ++ cs →
      (fileSystem useDiskCr false inodePolicy).Run s bs u → ReadPathsAgree u) :
    (oneChunk useDiskCr inodePolicy).Run s as t := by
  induction h with
  | nil => exact .nil
  | @snoc as t u a run last ih =>
    have hrun := ih fun bs cs v heq hv => by
      refine hagree bs (cs ++ [a]) v ?_ hv
      rw [heq, List.append_assoc]
    refine .snoc hrun ⟨?_, last⟩
    by_contra hcross
    have hstep := (mirrors_run hrun hs).step (next_eq_some.mp last)
    exact hstep.2 hcross (hagree (as ++ [a]) [] u (by simp) (.snoc run last))

/-- The run goes through in the same way on disk. -/
theorem onDisk_run (hs : Mirrors s) (hmem : s.useDiskCr = false)
    (h : (oneChunk false inodePolicy).Run s as t) :
    t.useDiskCr = false ∧ (fileSystem true false inodePolicy).Run (onDisk s) as (onDisk t) := by
  induction h with
  | nil => exact ⟨hmem, .nil⟩
  | snoc run last ih =>
    obtain ⟨ht, hrun⟩ := ih
    have hstep := next_eq_some.mp last.2
    have hagreeing : Agreeing _ := ⟨ht, (mirrors_run run hs).agree⟩
    exact ⟨(run_useDiskCr hstep).trans ht, .snoc hrun (next_eq_some.mpr (hagreeing.run hstep))⟩

/-- **When the read paths agree.** In a run with forced checkpoints they do after every operation
exactly if every link stays within one chunk of the inode map; such a run returns the same codes and
leaves the same disk when it reads its inodes through the checkpoint. -/
theorem readPaths_agree_iff (inodePolicy : InodePolicy) (as : List (Op × Int)) (t : LFS) :
    (∀ useDiskCr,
      (fileSystem useDiskCr false inodePolicy).Run (LFS.new useDiskCr false inodePolicy) as t →
      ((∀ bs cs u, as = bs ++ cs →
          (fileSystem useDiskCr false inodePolicy).Run (LFS.new useDiskCr false inodePolicy) bs u →
          ReadPathsAgree u) ↔
        (oneChunk useDiskCr inodePolicy).Run (LFS.new useDiskCr false inodePolicy) as t)) ∧
    ((oneChunk false inodePolicy).Run (LFS.new false false inodePolicy) as t →
      (fileSystem true false inodePolicy).Run (LFS.new true false inodePolicy) as (onDisk t)) := by
  constructor
  · intro useDiskCr hrun
    have hnew := mirrors_new useDiskCr inodePolicy
    refine ⟨oneChunk_run hnew hrun, fun hchunks bs cs u heq hu => ?_⟩
    subst heq
    obtain ⟨v, hv, _⟩ := hchunks.split
    have huv : u = v := hu.unique_ofFun hv.of_restrict
    exact huv ▸ (mirrors_run hv hnew).agree
  · intro hrun
    exact (onDisk_run (mirrors_new false inodePolicy) rfl hrun).2

theorem readPaths_agree_create :
    ∃ t, (∀ bs cs u, [(Op.fileCreate ['/', 'a'] 0, (0 : Int)), (.fileDelete ['/', 'a'], 0)] = bs ++ cs →
        (fileSystem false false .sequential).Run (LFS.new false false .sequential) bs u →
        ReadPathsAgree u) ∧
      (fileSystem true false .sequential).Run (LFS.new true false .sequential)
        [(.fileCreate ['/', 'a'] 0, 0), (.fileDelete ['/', 'a'], 0)] (onDisk t) := by
  have hsome : ([(Op.fileCreate ['/', 'a'] 0, (0 : Int)), (.fileDelete ['/', 'a'], 0)].foldlM next
      (LFS.new false false .sequential)).isSome = true := by decide +kernel
  obtain ⟨t, ht⟩ := Option.isSome_iff_exists.mp hsome
  have hrun : (fileSystem false false .sequential).Run (LFS.new false false .sequential) _ t :=
    Lts.run_ofFun.mpr ht
  have hchunks : (oneChunk false .sequential).Run (LFS.new false false .sequential) _ t :=
    hrun.restrict (by simp [InOneChunk])
  exact ⟨t, ((readPaths_agree_iff _ _ _).1 _ hrun).mpr hchunks,
    (readPaths_agree_iff _ _ _).2 hchunks⟩

/-- Inode number 16 is in chunk 1 and the root in chunk 0: after the link the checkpoint leads to
the inode of `/a` with one link. -/
theorem link_across_chunks :
    ∃ t, (fileSystem false false .random).Run (LFS.new false false .random)
        [(.fileCreate ['/', 'a'] 15, 0), (.fileLink ['/', 'a'] ['/', 'b'], 0)] t ∧
      ¬ ReadPathsAgree t := by
  have hdisagree : ([(Op.fileCreate ['/', 'a'] 15, (0 : Int)),
      (.fileLink ['/', 'a'] ['/', 'b'], 0)].foldlM next (LFS.new false false .random)).any
        (fun t => t.diskAddress ⟨16, by decide⟩ ≠ some (t.inodeMap ⟨16, by decide⟩)) = true := by
    decide +kernel
  rw [Option.any_eq_true] at hdisagree
  obtain ⟨t, ht, hne⟩ := hdisagree
  refine ⟨t, Lts.run_ofFun.mpr ht, fun hagree => ?_⟩
  exact absurd (hagree ⟨16, by decide⟩) (by simpa using hne)

end Runs

end OsLab.Lfs
