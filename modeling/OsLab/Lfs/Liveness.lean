import OsLab.Lib.Ownership
import OsLab.Lfs.Contents

/-!
# Which blocks are live

`determine_liveness` follows the references that an LFS has into its log: those of `cr`, of
`inode_map` and of the inodes that `inode_map` leads to. Each operation writes a block for one
reference, so in every reachable state a block has at most one, and a block without any stays so.

* **`determineLiveness`**, **`Ref`**, **`LFS.target`** -- the function, and the references that it
  follows.
* **`Valid.determineLiveness`** -- what is marked is what has a reference.
* **`WrittenFor`**, **`moves_settle`** -- each block that an operation logs is written for one
  reference.
* **`moves_run`**, **`run_moves`** -- the step and the run, over the ledger of references.
* **`liveness_settled`** -- one owner for each live block, and no way back for a dead one.
-/

namespace OsLab.Lfs

open LFS

namespace LFS

/-- `self.live[ptr] = True` for each of `ptrs`; the key -1 is `none`. -/
def markLive (live : Option Nat → Bool) (ptrs : List (Option Nat)) : Option Nat → Bool :=
  ptrs.foldl (fun live ptr => Function.update live ptr true) live

/-- The last loop of `determine_liveness`. -/
def livePointers (s : LFS) (live : Option Nat → Bool) :
    List Inum → Except Abort (Option Nat → Bool)
  | [] => .ok live
  | i :: inodes => do
    let block ← index s.disk (s.inodeMap i)
    match block with
    | .inode inode => s.livePointers (markLive live inode.pointers) inodes
    | _ => .error .keyError

/-- `determine_liveness`, with the dictionary that it stores. -/
def determineLiveness (s : LFS) : Except Abort (Option Nat → Bool) :=
  let live := Function.update (fun _ => false) (some ADDR_CHECKPOINT_BLOCK) true
  let live := markLive live (s.cr.filter fun ptr => ptr ≠ none)
  let inodes := (List.finRange NUM_INODES).filter fun i => s.inodeMap i ≠ none
  let live := markLive live (inodes.map s.inodeMap)
  s.livePointers live inodes

end LFS

/-! ## References -/

/-- What can refer to a block. -/
inductive Ref where
  | checkpoint
  | chunk (k : Nat)
  | inode (i : Inum)
  | pointer (i : Inum) (k : Nat)
  deriving DecidableEq

/-- The address that a reference has. -/
def LFS.target (s : LFS) : Ref → Option Nat
  | .checkpoint => some ADDR_CHECKPOINT_BLOCK
  | .chunk k => s.cr[k]?.join
  | .inode i => s.inodeMap i
  | .pointer i k => (s.inodeOf i).bind fun inode => inode.pointers[k]?.join

variable {s t u : LFS} {i j p : Inum} {inode : Inode} {a k : Nat}

@[simp] theorem target_checkpoint : s.target .checkpoint = some 0 := rfl

@[simp] theorem target_chunk : s.target (.chunk k) = some a ↔ s.cr[k]? = some (some a) :=
  Option.join_eq_some_iff

@[simp] theorem target_inode : s.target (.inode i) = s.inodeMap i := rfl

/-- A pointer refers to the block at its address, if the inode is in use. -/
theorem target_pointer : s.target (.pointer i k) = some a ↔
    ∃ inode, s.inodeOf i = some inode ∧ inode.pointers[k]? = some (some a) := by
  show (s.inodeOf i).bind (fun inode => inode.pointers[k]?.join) = some a ↔ _
  rw [Option.bind_eq_some_iff]
  exact exists_congr fun inode => and_congr_right fun _ => Option.join_eq_some_iff

/-! ## What `determine_liveness` finds -/

/-- What is marked was marked before, or is one of the pointers. -/
theorem markLive_eq_true {live : Option Nat → Bool} {ptrs : List (Option Nat)} {ptr : Option Nat} :
    markLive live ptrs ptr = true ↔ live ptr = true ∨ ptr ∈ ptrs := by
  unfold markLive
  induction ptrs generalizing live with
  | nil => simp
  | cons x ptrs ih =>
    rw [List.foldl_cons, ih, List.mem_cons]
    by_cases hx : ptr = x
    · subst hx
      simp
    · rw [Function.update_of_ne hx]
      tauto

/-- The last loop marks the pointers of the inodes in use, and fails on none of them. -/
theorem livePointers_spec {inodes : List Inum} (live : Option Nat → Bool)
    (h : ∀ i ∈ inodes, ∃ inode, s.inodeOf i = some inode) :
    ∃ found, s.livePointers live inodes = .ok found ∧ ∀ a, found (some a) = true ↔
      live (some a) = true ∨ ∃ i ∈ inodes, ∃ k, s.target (.pointer i k) = some a := by
  induction inodes generalizing live with
  | nil => exact ⟨live, rfl, fun a => by simp⟩
  | cons i inodes ih =>
    rw [List.forall_mem_cons] at h
    obtain ⟨⟨inode, hinode⟩, hrest⟩ := h
    obtain ⟨found, hfound, hspec⟩ := ih (markLive live inode.pointers) hrest
    obtain ⟨address, haddress, hblock⟩ := inodeOf_eq_some.mp hinode
    refine ⟨found, ?_, fun a => ?_⟩
    · unfold livePointers
      rw [haddress, index_some_eq_ok.mpr hblock]
      exact hfound
    · have hpointers : some a ∈ inode.pointers ↔ ∃ k, s.target (.pointer i k) = some a := by
        rw [List.mem_iff_getElem?]
        refine exists_congr fun k => ?_
        rw [target_pointer, hinode]
        simp
      rw [hspec, markLive_eq_true, hpointers, List.exists_mem_cons_iff, or_assoc]

/-- In a valid state every inode number in use can be read, and what is marked is what has a
reference. -/
theorem Valid.determineLiveness (h : Valid s) : ∃ live, s.determineLiveness = .ok live ∧
    ∀ a, live (some a) = true ↔ Live s.target a := by
  -- Every number in use leads to an inode, so the loop over them does not abort.
  have hread : ∀ i ∈ (List.finRange NUM_INODES).filter fun i => s.inodeMap i ≠ none,
      ∃ inode, s.inodeOf i = some inode := by
    intro i hi
    obtain ⟨inode, hlive⟩ := h.live i (by simpa using (List.mem_filter.mp hi).2)
    exact ⟨inode, hlive.inodeOf⟩
  obtain ⟨live, hlive, hspec⟩ := livePointers_spec (markLive (markLive
    (Function.update (fun _ => false) (some ADDR_CHECKPOINT_BLOCK) true)
    (s.cr.filter fun ptr => ptr ≠ none)) (((List.finRange NUM_INODES).filter fun i =>
      s.inodeMap i ≠ none).map s.inodeMap)) hread
  refine ⟨live, hlive, fun a => ?_⟩
  rw [hspec, markLive_eq_true, markLive_eq_true]
  constructor
  -- The four kinds of marks: block 0, the chunks in `cr`, the inodes and their pointers.
  · rintro (((hzero | hchunk) | hinode) | ⟨i, -, k, hpointer⟩)
    · refine ⟨.checkpoint, ?_⟩
      by_contra hne
      have hother : some a ≠ some ADDR_CHECKPOINT_BLOCK := fun heq => hne heq.symm
      rw [Function.update_of_ne hother] at hzero
      cases hzero
    · obtain ⟨k, hk⟩ := List.mem_iff_getElem?.mp (List.mem_filter.mp hchunk).1
      exact ⟨.chunk k, target_chunk.mpr hk⟩
    · obtain ⟨i, -, hi⟩ := List.mem_map.mp hinode
      exact ⟨.inode i, hi⟩
    · exact ⟨.pointer i k, hpointer⟩
  -- A number that leads somewhere is one that the loop visits.
  · have hused : ∀ {i a}, s.inodeMap i = some a →
        i ∈ (List.finRange NUM_INODES).filter fun i => s.inodeMap i ≠ none := by
      intro i a hi
      rw [List.mem_filter]
      exact ⟨List.mem_finRange i, by simp [hi]⟩
    rintro ⟨_ | k | i | ⟨i, k⟩, hr⟩
    · refine .inl (.inl (.inl ?_))
      rw [← show s.target .checkpoint = some a from hr]
      exact Function.update_self ..
    · refine .inl (.inl (.inr (List.mem_filter.mpr ⟨?_, by simp⟩)))
      exact List.mem_of_getElem? (target_chunk.mp hr)
    · exact .inl (.inr (List.mem_map.mpr ⟨i, hused hr, hr⟩))
    · obtain ⟨inode, hinode, -⟩ := target_pointer.mp hr
      obtain ⟨address, haddress, -⟩ := inodeOf_eq_some.mp hinode
      exact .inr ⟨i, hused haddress, k, hr⟩

/-! ## What `update_imap` writes -/

/-- Each chunk is written for its place in `cr`. -/
theorem updateImapLoop_owners (s : LFS) (chunkList : List Cnum) (inums : List Inum) :
    ∃ (blocks : List Block) (cr : List (Option Nat)) (owners : List Nat),
      s.updateImapLoop chunkList inums = { s with disk := s.disk ++ blocks, cr := cr } ∧
      blocks.length = owners.length ∧
      ∀ k a : Nat, cr[k]? = some (some a) →
        s.cr[k]? = some (some a) ∨ ∃ l, a = s.disk.length + l ∧ owners[l]? = some k := by
  induction inums generalizing s chunkList with
  | nil => exact ⟨[], s.cr, [], by simp [updateImapLoop_nil], rfl, fun k a h => .inl h⟩
  | cons inum inums ih =>
    rw [updateImapLoop_cons]
    by_cases hdone : inumToChunk inum ∈ chunkList
    -- A chunk is written once for all the numbers in it.
    · rw [if_pos hdone]
      exact ih s chunkList
    · rw [if_neg hdone]
      have hlast : (s.disk ++ [s.makeImapChunk (inumToChunk inum)]).length - 1 = s.disk.length := by
        simp
      obtain ⟨blocks, cr, owners, heq, hlength, howners⟩ := ih
        { s with
          disk := s.disk ++ [s.makeImapChunk (inumToChunk inum)]
          cr := s.cr.set (inumToChunk inum).val (some s.disk.length) }
        (chunkList ++ [inumToChunk inum])
      refine ⟨s.makeImapChunk (inumToChunk inum) :: blocks, cr, (inumToChunk inum).val :: owners,
        ?_, by rw [List.length_cons, List.length_cons, hlength], fun k a h => ?_⟩
      · rw [hlast, heq]
        simp
      · rcases howners k a h with hold | ⟨l, ha, hl⟩
        · -- the place in `cr` that this chunk has taken, or another one
          by_cases hk : (inumToChunk inum).val = k
          · subst hk
            rw [List.getElem?_set_self'] at hold
            obtain ⟨_, -, hsome⟩ := Option.map_eq_some_iff.mp hold
            exact .inr ⟨0, (Option.some.inj hsome).symm, rfl⟩
          · rw [List.getElem?_set_ne hk] at hold
            exact .inl hold
        · refine .inr ⟨l + 1, ?_, hl⟩
          rw [ha, List.length_append, List.length_singleton]
          omega

/-! ## What an operation writes -/

/-- Where `map` leads `j` once `blocks` are logged behind `s`, each for one of `owners`. -/
inductive WrittenFor (s : LFS) (blocks : List Block) (owners : List Ref)
    (map : Inum → Option Nat) (j : Inum) : Prop where
  | free (h : map j = none)
  | logged (k : Nat) (inode : Inode) (hget : blocks[k]? = some (.inode inode))
      (howner : owners[k]? = some (.inode j)) (hmap : map j = some (s.disk.length + k))
      (hpointers : ∀ q b : Nat, inode.pointers[q]? = some (some b) →
        s.target (.pointer j q) = some b ∨
          ∃ l, b = s.disk.length + l ∧ owners[l]? = some (.pointer j q))

/-- Two numbers are remapped, and the imap is written: every reference is where it was, or leads to
a block of its own behind the log. -/
theorem moves_settle (hs : Valid s) {blocks : List Block} (owners : List Ref) {inums : List Inum}
    (hcheckpoint : HasCheckpoint u.disk) (hu : u.disk = s.disk ++ blocks) (hcr : u.cr = s.cr)
    (hlength : blocks.length = owners.length)
    (hother : ∀ j, j ≠ p → j ≠ i → u.inodeMap j = s.inodeMap j)
    (hp : WrittenFor s blocks owners u.inodeMap p) (hi : WrittenFor s blocks owners u.inodeMap i) :
    Moves s.disk.length s.target (u.updateImap inums).forceCheckpoint.disk.length
      (u.updateImap inums).forceCheckpoint.target := by
  have ht := settled hcheckpoint inums
  obtain ⟨chunks, cr, chunkOwners, heq, hchunks, hmoved⟩ := updateImapLoop_owners u [] inums
  have hupdate : u.updateImap inums = { u with disk := u.disk ++ chunks, cr := cr } := heq
  have hdisk : Extends s.disk (u.updateImap inums).forceCheckpoint.disk :=
    Extends.trans (hu ▸ extends_append _ _) ht.extend
  -- The blocks logged by the call come first, so they keep their place in the list of owners.
  have hleft : ∀ {k : Nat} {r : Ref}, owners[k]? = some r →
      (owners ++ chunkOwners.map Ref.chunk)[k]? = some r := fun hk => by
    rwa [List.getElem?_append_left (List.getElem?_eq_some_iff.mp hk).1]
  refine ⟨owners ++ chunkOwners.map .chunk, ?_, ?_⟩
  -- The checkpoint is written in place and adds no block.
  · have hforced : (u.updateImap inums).forceCheckpoint.disk.length =
        (u.updateImap inums).disk.length := by
      rw [forceCheckpoint_def]
      split
      · rfl
      · exact List.length_set
    rw [hforced, hupdate, hu]
    simp [hlength, hchunks]
  · rintro (_ | k | j | ⟨j, q⟩) a ha
    · exact .inl ha
    · -- the place in `cr`
      rw [target_chunk, forceCheckpoint_cr, hupdate] at ha
      rcases hmoved k a ha with hold | ⟨l, rfl, hl⟩
      · exact .inl (target_chunk.mpr (hcr ▸ hold))
      · refine .inr ⟨owners.length + l, ?_, ?_⟩
        · rw [hu, List.length_append, hlength, Nat.add_assoc]
        · rw [List.getElem?_append_right (Nat.le_add_right ..), Nat.add_sub_cancel_left,
            List.getElem?_map, hl]
          rfl
    -- A number has a new inode only if it is one of the two of the call.
    · have hmap : u.inodeMap j = some a := ht.inodeMap ▸ ha
      have hwritten : WrittenFor s blocks owners u.inodeMap j → ∃ k, a = s.disk.length + k ∧
          (owners ++ chunkOwners.map .chunk)[k]? = some (Ref.inode j) := by
        rintro (hfree | ⟨k, inode, -, howner, hlogged, -⟩)
        · rw [hmap] at hfree
          cases hfree
        · exact ⟨k, Option.some.inj (hmap.symm.trans hlogged), hleft howner⟩
      by_cases hjp : j = p
      · exact .inr (hwritten (hjp ▸ hp))
      · by_cases hji : j = i
        · exact .inr (hwritten (hji ▸ hi))
        · exact .inl ((hother j hjp hji).symm.trans hmap)
    -- A pointer of such an inode is an old one or leads to a block logged before it.
    · obtain ⟨inode, hinode, hq⟩ := target_pointer.mp ha
      have hwritten : WrittenFor s blocks owners u.inodeMap j → s.target (.pointer j q) = some a ∨
          ∃ k, a = s.disk.length + k ∧
            (owners ++ chunkOwners.map .chunk)[k]? = some (Ref.pointer j q) := by
        rintro (hfree | ⟨k, inode', hget, -, hlogged, hpointers⟩)
        · rw [inodeOf_free (ht.inodeMap ▸ hfree)] at hinode
          cases hinode
        · have hsame := ht.inodeOf hu hget hlogged
          obtain rfl : inode' = inode := Option.some.inj (hsame.symm.trans hinode)
          exact (hpointers q a hq).imp_right fun ⟨l, hl, howner⟩ => ⟨l, hl, hleft howner⟩
      by_cases hjp : j = p
      · exact hwritten (hjp ▸ hp)
      · by_cases hji : j = i
        · exact hwritten (hji ▸ hi)
        · -- this number leads where it led
          rw [(hs.frame hdisk (ht.inodeMap ▸ hother j hjp hji)).1] at hinode
          exact .inl (target_pointer.mpr ⟨inode, hinode, hq⟩)

/-! ## Operations -/

section Operations

variable {path : Str} {rc : Int} {blocks : List Block} {owners : List Ref} {parentInode : Inode}
  {map : Inum → Option Nat}

/-- The inode of a directory, with one of its blocks written behind the log. -/
theorem WrittenFor.directory {q b : Nat} {logged : Inode} (hp : s.inodeOf p = some parentInode)
    (hlogged : logged.pointers = parentInode.pointers) (hget : blocks[k]? =
      some (.inode (pointTo logged q (s.disk.length + b))))
    (howner : owners[k]? = some (.inode p)) (hblock : owners[b]? = some (.pointer p q))
    (hmap : map p = some (s.disk.length + k)) : WrittenFor s blocks owners map p := by
  refine .logged k _ hget howner hmap fun q' b' hq' => ?_
  have hq : (parentInode.pointers.set q (some (s.disk.length + b)))[q']? = some (some b') :=
    hlogged ▸ hq'
  by_cases hsame : q = q'
  · subst hsame
    rw [List.getElem?_set_self'] at hq
    obtain ⟨_, -, hsome⟩ := Option.map_eq_some_iff.mp hq
    exact .inr ⟨b, (Option.some.inj hsome).symm, hblock⟩
  · rw [List.getElem?_set_ne hsame] at hq
    exact .inl (target_pointer.mpr ⟨parentInode, hp, hq⟩)

/-- The inode of a file that keeps its blocks. -/
theorem WrittenFor.file {logged : Inode} (hi : s.inodeOf i = some inode)
    (hget : blocks[k]? = some (.inode logged)) (hlogged : logged.pointers = inode.pointers)
    (howner : owners[k]? = some (.inode i)) (hmap : map i = some (s.disk.length + k)) :
    WrittenFor s blocks owners map i :=
  .logged k _ hget howner hmap fun _ _ hq =>
    .inl (target_pointer.mpr ⟨inode, hi, hlogged ▸ hq⟩)

/-- A creation writes each of its blocks for one reference. So do the other operations. -/
theorem moves_create (hs : Valid s) {isFile : Bool} {pick : Nat}
    (hrun : s.create path isFile pick = .ok (rc, t)) :
    Moves s.disk.length s.target t.disk.length t.target := by
  rcases create_cases hrun with ⟨_, e, rfl⟩ | ⟨_, s', p, i, parentInode, name, k, size, entries,
    hplan, rfl⟩
  · exact .refl ..
  · obtain ⟨addrs, blocks, hp⟩ := hs.parent hplan.walk
    obtain ⟨e, rfl⟩ := hplan.frame
    -- The number handed out was free, the parent is a directory.
    have hne : i ≠ p := ne_of_isDir (isDir_free hplan.free) hp.isDir
    cases isFile with
    | true =>
      rw [createWrites_file]
      refine moves_settle (p := p) (i := i) hs [.pointer p k, .inode p, .inode i]
        (hs.checkpoint.append _) rfl rfl rfl ?_ ?_ ?_
      · intro j hjp hji
        dsimp only
        rw [Function.update_of_ne hji, Function.update_of_ne hjp, Function.update_of_ne hji]
      · refine .directory (k := 1) (b := 0) hp.inodeOf ?_ rfl rfl rfl ?_
        · rfl
        · dsimp only
          rw [Function.update_of_ne hne.symm, Function.update_self]
      · -- a new file has no blocks
        refine .logged 2 _ rfl rfl (Function.update_self ..) fun q b hq => ?_
        cases List.eq_of_mem_replicate (List.mem_of_getElem? hq)
    | false =>
      rw [createWrites_dir]
      refine moves_settle (p := p) (i := i) hs [.pointer p k, .pointer i 0, .inode p, .inode i]
        (hs.checkpoint.append _) rfl rfl rfl ?_ ?_ ?_
      · intro j hjp hji
        dsimp only
        rw [Function.update_of_ne hji, Function.update_of_ne hjp, Function.update_of_ne hji]
      · refine .directory (k := 2) (b := 0) hp.inodeOf ?_ rfl rfl rfl ?_
        · rfl
        · dsimp only
          rw [Function.update_of_ne hne.symm, Function.update_self]
      · -- a new directory has one block
        refine .logged 3 _ rfl rfl (Function.update_self ..) fun q b hq => ?_
        cases q with
        | zero => exact .inr ⟨1, (Option.some.inj (Option.some.inj hq)).symm, rfl⟩
        | succ q => cases List.eq_of_mem_replicate (List.mem_of_getElem? hq)

theorem moves_link (hs : Valid s) {srcpath dstpath : Str}
    (hrun : s.fileLink srcpath dstpath = .ok (rc, t)) :
    Moves s.disk.length s.target t.disk.length t.target := by
  rcases fileLink_cases hrun with ⟨_, e, rfl⟩ | ⟨_, s', i, p, inode, parentInode, name, k, size,
    entries, hplan, rfl⟩
  · exact .refl ..
  · obtain ⟨w, s₁, hsrc, _, hdst⟩ := hplan.src
    obtain ⟨e, rfl⟩ := walkPath_frame hsrc
    obtain ⟨addrs, blocks, hp⟩ := (hs.errors e).parent hdst
    obtain ⟨e', rfl⟩ := walkPath_frame hdst
    have hi := hs.inodeOf hplan.read
    have hne : i ≠ p := ne_of_isDir (isDir_regular hi hplan.type) hp.isDir
    rw [linkWrites_eq]
    refine moves_settle (p := p) (i := i) hs [.pointer p k, .inode p, .inode i]
      (hs.checkpoint.append _) rfl rfl rfl ?_ ?_ ?_
    · intro j hjp hji
      dsimp only
      rw [Function.update_of_ne hji, Function.update_of_ne hjp]
      rfl
    · refine .directory (k := 1) (b := 0) hp.inodeOf ?_ rfl rfl rfl ?_
      · rfl
      · dsimp only
        rw [Function.update_of_ne hne.symm, Function.update_self]
        rfl
    · exact .file (k := 2) hi rfl rfl rfl (Function.update_self ..)

theorem moves_delete (hs : Valid s) (hrun : s.fileDelete path = .ok (rc, t)) :
    Moves s.disk.length s.target t.disk.length t.target := by
  rcases fileDelete_cases hrun with ⟨_, e, rfl⟩ | ⟨_, s', i, p, inode, parentInode, name, k, slot,
    entries, hplan, rfl⟩
  · exact .refl ..
  · obtain ⟨addrs, blocks, hp⟩ := (hs.errors []).parent hplan.walk
    obtain ⟨_, _, hlookup, _⟩ := walkPath_parent hplan.walk
    obtain ⟨e, rfl⟩ := hplan.frame
    have hi := hs.inodeOf hplan.read
    have hne : i ≠ p := ne_of_isDir (isDir_regular hi hplan.type) hp.isDir
    have hpos := hp.refs_pos (hs.errors []) hi hplan.type hlookup
    by_cases hlast : inode.refs = 1
    · rw [unlinked, if_pos hlast, deleteWrites_last _ i p (by omega)]
      refine moves_settle (p := p) (i := i) hs [.pointer p k, .inode p]
        (hs.checkpoint.append _) rfl rfl rfl ?_ ?_ ?_
      · intro j hjp hji
        dsimp only
        rw [Function.update_of_ne hjp, Function.update_of_ne hji]
      · exact .directory (k := 1) (b := 0) hp.inodeOf rfl rfl rfl rfl
          (Function.update_self ..)
      · -- nothing is logged for the file
        refine .free ?_
        dsimp only
        rw [Function.update_of_ne hne, Function.update_self]
    · rw [unlinked, if_neg hlast, deleteWrites_more _ i p (by omega)]
      refine moves_settle (p := p) (i := i) hs [.pointer p k, .inode p, .inode i]
        (hs.checkpoint.append _) rfl rfl rfl ?_ ?_ ?_
      · intro j hjp hji
        dsimp only
        rw [Function.update_of_ne hji, Function.update_of_ne hjp]
      · refine .directory (k := 1) (b := 0) hp.inodeOf rfl rfl rfl rfl
          ?_
        dsimp only
        rw [Function.update_of_ne hne.symm, Function.update_self]
      · exact .file (k := 2) hi rfl rfl rfl (Function.update_self ..)

theorem length_writtenBlocks {contents : List Str} {offset ptr : Nat} {writes : List (Nat × Nat)}
    (hwrites : writes = potentialWrites offset ptr contents.length) :
    (writtenBlocks contents writes).length = writes.length := by
  have hle : writes.length ≤ contents.length := by
    rw [hwrites, length_potentialWrites]
    exact Nat.min_le_left ..
  unfold writtenBlocks
  rw [List.length_map, List.length_take, Nat.min_eq_left hle]

/-- The inode of a file, behind the data blocks for its pointers from `offset` on. -/
theorem WrittenFor.written (hi : s.inodeOf i = some inode) (hfile : FileAt s.disk inode)
    (contents : List Str) (offset : Nat) {writes : List (Nat × Nat)}
    (hwrites : writes = potentialWrites offset s.disk.length contents.length)
    (hmap : map i = some (s.disk ++ writtenBlocks contents writes).length) :
    WrittenFor s (writtenBlocks contents writes ++ [.inode (writtenInode inode offset writes)])
      ((List.range writes.length).map (fun l => .pointer i (offset + l)) ++ [.inode i]) map i := by
  have hdata := length_writtenBlocks hwrites
  have howners : ((List.range writes.length).map fun l => Ref.pointer i (offset + l)).length =
      writes.length := by rw [List.length_map, List.length_range]
  refine .logged writes.length (writtenInode inode offset writes) ?_ ?_ ?_ fun q b hq => ?_
  · rw [← hdata]
    exact getElem?_append_length ..
  · rw [List.getElem?_append_right howners.le, howners, Nat.sub_self]
    rfl
  · rw [hmap, List.length_append, hdata]
  · rw [writtenInode_pointers hwrites hfile.length] at hq
    split at hq
    · next hin =>
      refine .inr ⟨q - offset, (Option.some.inj (Option.some.inj hq)).symm, ?_⟩
      rw [List.getElem?_append_left (by omega), List.getElem?_map, List.getElem?_range (by omega)]
      show some (Ref.pointer i (offset + (q - offset))) = some (.pointer i q)
      rw [Nat.add_sub_cancel' hin.1]
    · exact .inl (target_pointer.mpr ⟨inode, hi, hq⟩)

theorem moves_write (hs : Valid s) (hfiles : FilesAt s) {offset numBlks : Int}
    {draw : Nat → Char} (hrun : s.fileWrite path offset numBlks draw = .ok (rc, t)) :
    Moves s.disk.length s.target t.disk.length t.target := by
  rcases fileWrite_cases hrun with ⟨_, e, rfl⟩ | ⟨s', i, inode, hplan, _, written, _, hwrites⟩
  · exact .refl ..
  · obtain ⟨e, rfl⟩ := hplan.frame
    have hi := hs.inodeOf hplan.read
    rw [fileWrites_eq _ i inode _ _ rfl] at hwrites
    obtain ⟨_, rfl⟩ := Prod.mk.inj hwrites
    have hlogged : WrittenFor s _ _ (Function.update s.inodeMap i (some _)) i :=
      .written hi (hfiles i inode hi hplan.type) (makeRandomBlocks draw numBlks) offset.toNat rfl
        (Function.update_self ..)
    refine moves_settle (p := i) (i := i) hs _ (hs.checkpoint.append _) rfl rfl ?_ ?_ hlogged hlogged
    · rw [List.length_append, List.length_append, length_writtenBlocks rfl, List.length_map,
        List.length_range]
      rfl
    · exact fun j hj _ => Function.update_of_ne hj ..

/-- A checkpoint moves no reference. -/
theorem moves_sync (hs : Valid s) :
    Moves s.disk.length s.target s.sync.2.disk.length s.sync.2.target := by
  have hlength : s.sync.2.disk.length = s.disk.length := List.length_set
  have hdisk := extends_set_checkpoint hs.checkpoint s.cr
  rw [hlength]
  refine .of_kept fun r a ha => ?_
  cases r with
  | checkpoint => exact ha
  | chunk k => exact ha
  | inode i => exact ha
  | pointer i k =>
    obtain ⟨inode, hinode, hk⟩ := target_pointer.mp ha
    rw [(hs.frame (t := s.sync.2) hdisk rfl).1] at hinode
    exact target_pointer.mpr ⟨inode, hinode, hk⟩

/-- Each operation writes its blocks for one reference each. -/
theorem moves_run (hs : Valid s) (hfiles : FilesAt s) {op : Op} (hrun : op.run s = .ok (rc, t)) :
    Moves s.disk.length s.target t.disk.length t.target := by
  cases op with
  | fileCreate path pick => exact moves_create (s := s.errorClear) (hs.errors []) hrun
  | dirCreate path pick => exact moves_create (s := s.errorClear) (hs.errors []) hrun
  | fileLink srcpath dstpath => exact moves_link hs hrun
  | fileWrite path offset numBlks draw => exact moves_write hs hfiles hrun
  | fileDelete path => exact moves_delete hs hrun
  | sync =>
    obtain ⟨_, rfl⟩ := Prod.mk.inj (Except.ok.inj hrun)
    exact moves_sync hs

end Operations

/-! ## Over a run -/

section Runs

variable {noForceCheckpoints : Bool} {inodePolicy : InodePolicy} {as : List (Op × Int)}

/-- So does each run. -/
theorem run_moves (hs : Valid s) (hfiles : FilesAt s)
    (h : (fileSystem false noForceCheckpoints inodePolicy).Run s as t) :
    Valid t ∧ FilesAt t ∧ Moves s.disk.length s.target t.disk.length t.target := by
  induction h with
  | nil => exact ⟨hs, hfiles, .refl ..⟩
  | snoc _ last ih =>
    obtain ⟨hvalid, hat, hmoves⟩ := ih
    have hrun := next_eq_some.mp last
    exact ⟨hvalid.run hrun, hat.run hvalid hrun, hmoves.trans (moves_run hvalid hat hrun)⟩

/-- In a new file system each block has one owner. -/
theorem owned_new : Owned (LFS.new false noForceCheckpoints inodePolicy).disk.length
    (LFS.new false noForceCheckpoints inodePolicy).target := by
  -- four blocks: the checkpoint, the root directory, its inode and its chunk
  have howner : ∀ r a, (LFS.new false noForceCheckpoints inodePolicy).target r = some a →
      [Ref.checkpoint, .pointer ROOT_INODE 0, .inode ROOT_INODE, .chunk 0][a]? = some r := by
    rintro (_ | k | i | ⟨i, k⟩) a ha
    · cases ha
      rfl
    · have hk := target_chunk.mp ha
      cases k with
      | zero =>
        cases hk
        rfl
      | succ k => cases List.eq_of_mem_replicate (List.mem_of_getElem? hk)
    · by_cases hi : i = ROOT_INODE
      · subst hi
        cases ha
        rfl
      · rw [target_inode, new_inodeMap _ _ hi] at ha
        cases ha
    · obtain ⟨inode, hinode, hk⟩ := target_pointer.mp ha
      by_cases hi : i = ROOT_INODE
      · subst hi
        cases hinode
        cases k with
        | zero =>
          cases hk
          rfl
        | succ k =>
          have hmem : some a ∈ List.replicate 7 none := List.mem_of_getElem? hk
          cases List.eq_of_mem_replicate hmem
      · rw [inodeOf_free (new_inodeMap _ _ hi)] at hinode
        cases hinode
  constructor
  · intro r a ha
    exact (List.getElem?_eq_some_iff.mp (howner r a ha)).1
  · intro r r' a ha ha'
    exact Option.some.inj ((howner r a ha).symm.trans (howner r' a ha'))

/-- What `determine_liveness` and the references of a state have to do with each other. -/
structure Marked (s : LFS) : Prop where
  marks : ∃ live, s.determineLiveness = .ok live ∧ ∀ a, live (some a) = true ↔ Live s.target a
  owned : Owned s.disk.length s.target

/-- **Liveness is settled.** In every reachable state `determine_liveness` marks the blocks that
something refers to, which nothing else does; and a block that it does not mark is not marked later
either. -/
theorem liveness_settled (h : (fileSystem false noForceCheckpoints inodePolicy).Reachable s) :
    Marked s ∧ ∀ as t, (fileSystem false noForceCheckpoints inodePolicy).Run s as t →
      ∀ a < s.disk.length, Live t.target a → Live s.target a := by
  have hvalid := valid_reachable h
  have hfiles := filesAt_reachable h
  refine ⟨⟨hvalid.determineLiveness, ?_⟩, fun as t hrun a ha hlive => ?_⟩
  · obtain ⟨s₀, as, rfl, hrun⟩ := h
    exact owned_new.moves (run_moves valid_new (filesAt_new _ _) hrun).2.2
  · exact (run_moves hvalid hfiles hrun).2.2.live ha hlive

/-- A state that a run leads to, and a block that is dead there. -/
theorem exists_dead (ops : List (Op × Int)) {a : Nat} {block : Block}
    (h : (ops.foldlM next (LFS.new false noForceCheckpoints inodePolicy)).any (fun s =>
      decide (s.disk[a]? = some block) && match s.determineLiveness with
        | .ok live => !live (some a)
        | .error _ => false) = true) :
    ∃ s live, (fileSystem false noForceCheckpoints inodePolicy).Reachable s ∧
      s.disk[a]? = some block ∧ s.determineLiveness = .ok live ∧ live (some a) = false := by
  rw [Option.any_eq_true] at h
  obtain ⟨s, hs, hdead⟩ := h
  rw [Bool.and_eq_true, decide_eq_true_eq] at hdead
  obtain ⟨hblock, hdead⟩ := hdead
  split at hdead
  · next live hlive =>
    refine ⟨s, live, ⟨_, _, rfl, Lts.run_ofFun.mpr hs⟩, hblock, hlive, ?_⟩
    rwa [Bool.not_eq_true'] at hdead
  · cases hdead

/-- The first version of the root directory is dead once a file has been created. -/
theorem liveness_settled_create : ∃ s, (fileSystem false false .sequential).Reachable s ∧
    ¬ Live s.target 1 ∧ Marked s ∧ ∀ as t, (fileSystem false false .sequential).Run s as t →
      ∀ a < s.disk.length, Live t.target a → Live s.target a := by
  obtain ⟨s, live, hs, -, hlive, hdead⟩ := @exists_dead false .sequential
    [(.fileCreate ['/', 'a'] 0, 0)] 1 (makeNewDirblock ROOT_INODE ROOT_INODE) (by decide +kernel)
  obtain ⟨live', hlive', hspec⟩ := (valid_reachable hs).determineLiveness
  obtain rfl : live = live' := Except.ok.inj (hlive.symm.trans hlive')
  refine ⟨s, hs, fun hlive => ?_, liveness_settled hs⟩
  rw [← hspec, hdead] at hlive
  cases hlive

end Runs

end OsLab.Lfs
