import OsLab.Lfs.Outcomes

/-!
# The two read paths of LFS

With forced checkpoints the disk copy of the inode map is meant to be as good as the one in memory.
It is, until `file_link` remaps an inode number whose chunk it does not log.

* **`LFS.diskAddress`**, **`ReadPathsAgree`** -- the address that is found from block 0, and when
  both read paths of `get_inode_from_inumber` give the same.
* **`Mirrors`** -- the invariant: every chunk on disk is the one in memory, and every address is in
  the log.
* **`Mirrors.settle`** -- what an operation must write to keep it.
* **`LinkPlan.mirrors`**, **`LinkPlan.not_agree`** -- a link within one chunk does, any other does
  not.
* **`Mirrors.step`** -- so one operation keeps the read paths in agreement exactly if it links
  within one chunk.
-/

namespace OsLab.Lfs

open LFS

/-! ## Reading through the checkpoint -/

/-- The address of inode `i` found from block 0: checkpoint, imap chunk, entry. -/
def LFS.diskAddress (s : LFS) (i : Inum) : Option (Option Nat) :=
  match s.disk[ADDR_CHECKPOINT_BLOCK]? with
  | some (.checkpoint entries) =>
    match entries[i.val / NUM_INODES_PER_IMAP_CHUNK]? with
    | some (some address) =>
      match s.disk[address]? with
      | some (.imap entries) => entries[i.val % NUM_INODES_PER_IMAP_CHUNK]?
      | _ => none
    | some none => some none
    | none => none
  | _ => none

/-- Both read paths of `get_inode_from_inumber` give the same address for every inode number. -/
def ReadPathsAgree (s : LFS) : Prop := ∀ i, s.diskAddress i = some (s.inodeMap i)

instance (s : LFS) : Decidable (ReadPathsAgree s) := by
  unfold ReadPathsAgree
  infer_instance

/-- Chunk `k` on disk is the one in memory. -/
def Current (s : LFS) (k : Cnum) : Prop :=
  (∃ c, s.cr[k.val]? = some (some c) ∧ s.disk[c]? = some (s.makeImapChunk k)) ∨
    s.cr[k.val]? = some none ∧ ∀ i, inumToChunk i = k → s.inodeMap i = none

structure Mirrors (s : LFS) : Prop where
  forced : s.noForceCheckpoints = false
  cr_length : s.cr.length = NUM_IMAP_PTRS_IN_CR
  checkpoint : s.disk[0]? = some (.checkpoint s.cr)
  current : ∀ k, Current s k
  addr_lt : ∀ i a, s.inodeMap i = some a → a < s.disk.length

section Chunks

variable {s t : LFS} {k : Cnum}

/-- The chunk of an inode number that lies in it. -/
theorem inumToChunk_chunkInum (k : Cnum) (j : Fin NUM_INODES_PER_IMAP_CHUNK) :
    inumToChunk (chunkInum k j) = k := by
  have hj : j.val < NUM_INODES_PER_IMAP_CHUNK := j.isLt
  apply Fin.ext
  show (k.val * NUM_INODES_PER_IMAP_CHUNK + j.val) / NUM_INODES_PER_IMAP_CHUNK = k.val
  rw [Nat.mul_comm, Nat.mul_add_div (by decide), Nat.div_eq_of_lt hj, Nat.add_zero]

/-- Every inode number is one of its chunk. -/
theorem chunkInum_inumToChunk (i : Inum) :
    chunkInum (inumToChunk i) ⟨i.val % NUM_INODES_PER_IMAP_CHUNK, Nat.mod_lt _ (by decide)⟩ = i := by
  apply Fin.ext
  show i.val / NUM_INODES_PER_IMAP_CHUNK * NUM_INODES_PER_IMAP_CHUNK +
    i.val % NUM_INODES_PER_IMAP_CHUNK = i.val
  exact Nat.div_add_mod' _ _

/-- What a chunk holds depends on the inode numbers in it and on nothing else. -/
theorem makeImapChunk_congr (h : ∀ i, inumToChunk i = k → t.inodeMap i = s.inodeMap i) :
    t.makeImapChunk k = s.makeImapChunk k := by
  unfold makeImapChunk
  congr 2
  funext j
  exact h _ (inumToChunk_chunkInum k j)

/-- A chunk stays up to date as long as no number in it is remapped. -/
theorem Current.keep (h : Current s k) (hdisk : Extends s.disk t.disk)
    (hcr : t.cr[k.val]? = s.cr[k.val]?)
    (hmap : ∀ i, inumToChunk i = k → t.inodeMap i = s.inodeMap i) : Current t k := by
  rcases h with ⟨c, hc, hblock⟩ | ⟨hnone, hfree⟩
  · refine Or.inl ⟨c, hcr.trans hc, ?_⟩
    rw [makeImapChunk_congr hmap]
    refine hdisk c _ hblock fun entries heq => ?_
    cases heq
  · exact Or.inr ⟨hcr.trans hnone, fun i hi => (hmap i hi).trans (hfree i hi)⟩

/-- A chunk that was up to date in `s` and has not been written since still reads as in `s`. -/
theorem diskAddress_of_current (hcheckpoint : t.disk[0]? = some (.checkpoint t.cr)) {i : Inum}
    (h : Current s (inumToChunk i)) (hdisk : Extends s.disk t.disk)
    (hcr : t.cr[(inumToChunk i).val]? = s.cr[(inumToChunk i).val]?) :
    t.diskAddress i = some (s.inodeMap i) := by
  unfold diskAddress
  show (match t.disk[0]? with | some (.checkpoint entries) => _ | _ => none) = _
  rw [hcheckpoint]
  rcases h with ⟨c, hc, hblock⟩ | ⟨hnone, hfree⟩
  · have hc' : t.cr[i.val / NUM_INODES_PER_IMAP_CHUNK]? = some (some c) := hcr.trans hc
    have hlt : i.val % NUM_INODES_PER_IMAP_CHUNK < NUM_INODES_PER_IMAP_CHUNK :=
      Nat.mod_lt _ (by decide)
    have hblock' : t.disk[c]? = some (s.makeImapChunk (inumToChunk i)) := by
      refine hdisk c _ hblock fun entries heq => ?_
      cases heq
    simp only [hc', hblock', makeImapChunk]
    rw [List.getElem?_ofFn, dif_pos hlt, chunkInum_inumToChunk]
  · have hnone' : t.cr[i.val / NUM_INODES_PER_IMAP_CHUNK]? = some none := hcr.trans hnone
    simp only [hnone']
    rw [hfree i rfl]

/-- A disk that mirrors the inode map agrees with it. -/
theorem Mirrors.agree (h : Mirrors s) : ReadPathsAgree s :=
  fun i => diskAddress_of_current h.checkpoint (h.current (inumToChunk i)) (.refl _) rfl

/-- `update_imap` brings the chunks of its inode numbers up to date. -/
theorem updateImapLoop_current {chunkList : List Cnum} {inums : List Inum}
    (hlength : s.cr.length = NUM_IMAP_PTRS_IN_CR) (hdone : ∀ k ∈ chunkList, Current s k)
    (h : ∀ k, k ∈ inums.map inumToChunk ∨ Current s k) :
    (s.updateImapLoop chunkList inums).cr.length = NUM_IMAP_PTRS_IN_CR ∧
      ∀ k, Current (s.updateImapLoop chunkList inums) k := by
  induction inums generalizing s chunkList with
  | nil => exact ⟨hlength, fun k => (h k).resolve_left (by simp)⟩
  | cons inum inums ih =>
    rw [updateImapLoop_cons]
    split
    -- The chunk has been logged before in this loop.
    · rename_i hmem
      refine ih hlength hdone fun k => ?_
      rcases h k with hk | hk
      · rcases List.mem_cons.mp hk with rfl | hk
        · exact Or.inr (hdone _ hmem)
        · exact Or.inl hk
      · exact Or.inr hk
    · have hself : Current { s with
          disk := s.disk ++ [s.makeImapChunk (inumToChunk inum)]
          cr := s.cr.set (inumToChunk inum).val (some s.disk.length) } (inumToChunk inum) := by
        have hlt : (inumToChunk inum).val < s.cr.length := by
          rw [hlength]
          exact (inumToChunk inum).isLt
        refine Or.inl ⟨s.disk.length, by simp [hlt], ?_⟩
        exact getElem?_append_length s.disk _ []
      -- Logging one chunk leaves the others as they are on disk.
      have hother : ∀ k, k ≠ inumToChunk inum → Current s k → Current { s with
          disk := s.disk ++ [s.makeImapChunk (inumToChunk inum)]
          cr := s.cr.set (inumToChunk inum).val (some s.disk.length) } k := by
        intro k hne hk
        refine hk.keep (extends_append _ _) ?_ fun _ _ => rfl
        exact List.getElem?_set_ne fun heq => hne (Fin.ext heq).symm
      have hlog : (s.disk ++ [s.makeImapChunk (inumToChunk inum)]).length - 1 =
          s.disk.length := by simp
      rw [hlog]
      apply ih
      · simpa [log] using hlength
      · intro k hk
        by_cases hkc : k = inumToChunk inum
        · exact hkc ▸ hself
        · refine hother k hkc (hdone k ?_)
          simpa [hkc] using hk
      · intro k
        by_cases hkc : k = inumToChunk inum
        · exact Or.inr (hkc ▸ hself)
        · rcases h k with hk | hk
          · rcases List.mem_cons.mp hk with rfl | hk
            · exact absurd rfl hkc
            · exact Or.inl hk
          · exact Or.inr (hother k hkc hk)

/-- Logged blocks, inodes remapped, `update_imap` and a checkpoint: the disk is up to date
if every chunk that changed is written. -/
theorem Mirrors.settle (h : Mirrors s) {u : LFS} {blocks : List Block} {inums : List Inum}
    (hforced : u.noForceCheckpoints = false) (hdisk : u.disk = s.disk ++ blocks)
    (hcr : u.cr = s.cr)
    (hmap : ∀ i, inumToChunk i ∉ inums.map inumToChunk → u.inodeMap i = s.inodeMap i)
    (haddr : ∀ i a, u.inodeMap i = some a → a < u.disk.length) :
    Mirrors (u.updateImap inums).forceCheckpoint := by
  have hextend : Extends s.disk u.disk := hdisk ▸ extends_append s.disk blocks
  obtain ⟨hlength, hcurrent⟩ :=
    @updateImapLoop_current u [] inums (hcr ▸ h.cr_length)
      (fun k hk => by cases hk) fun k => by
        by_cases hk : k ∈ inums.map inumToChunk
        · exact Or.inl hk
        · refine Or.inr ((h.current k).keep hextend (by rw [hcr]) fun i hi => hmap i ?_)
          rwa [hi]
  have hcheckpoint : HasCheckpoint u.disk := hdisk ▸ HasCheckpoint.append ⟨_, h.checkpoint⟩ _
  have hsettled := settled hcheckpoint inums
  constructor
  case forced => exact hsettled.noForceCheckpoints.trans hforced
  case cr_length => exact (congrArg List.length (forceCheckpoint_cr _)).trans hlength
  case checkpoint => exact checkpoint_forced hforced hcheckpoint inums
  case current =>
    intro k
    refine (hcurrent k).keep (extends_forceCheckpoint (hasCheckpoint_updateImap hcheckpoint inums))
      (congrArg (·[k.val]?) (forceCheckpoint_cr _)) fun i _ => ?_
    rw [forceCheckpoint_def]
    split <;> rfl
  case addr_lt =>
    intro i a ha
    rw [hsettled.inodeMap] at ha
    exact Nat.lt_of_lt_of_le (haddr i a ha) hsettled.length_le

end Chunks

/-! ## The operations -/

section Operations

variable {s t : LFS} {path : Str} {rc : Int}

/-- The errors that a walk reports are nothing to the disk. -/
theorem Mirrors.errors (h : Mirrors s) (e : List Str) : Mirrors { s with errorList := e } :=
  ⟨h.forced, h.cr_length, h.checkpoint, h.current, h.addr_lt⟩

theorem not_mem_of_chunk {j : Inum} {inums : List Inum}
    (h : inumToChunk j ∉ inums.map inumToChunk) : j ∉ inums :=
  fun hj => h (List.mem_map_of_mem hj)

theorem addr_update {map : Inum → Option Nat} {n : Nat} (h : ∀ j a, map j = some a → a < n)
    (i : Inum) {x : Option Nat} (hx : ∀ a, x = some a → a < n) :
    ∀ j a, Function.update map i x j = some a → a < n := by
  intro j a ha
  by_cases hji : j = i
  · subst hji
    rw [Function.update_self] at ha
    exact hx a ha
  · rw [Function.update_of_ne hji] at ha
    exact h j a ha

theorem Mirrors.addr_append (h : Mirrors s) (blocks : List Block) :
    ∀ i a, s.inodeMap i = some a → a < (s.disk ++ blocks).length := by
  intro i a ha
  have hlt := h.addr_lt i a ha
  simp only [List.length_append]
  omega

/-- There are blocks on every disk that mirrors its inode map. -/
theorem Mirrors.disk_pos (h : Mirrors s) : 0 < s.disk.length :=
  (List.getElem?_eq_some_iff.mp h.checkpoint).1

/-- A creation logs the chunks of both inode numbers that it remaps. -/
theorem Mirrors.create (h : Mirrors s) {isFile : Bool} {pick : Nat}
    (hrun : s.create path isFile pick = .ok (rc, t)) : Mirrors t := by
  rcases create_cases hrun with ⟨_, e, rfl⟩ | ⟨_, s', p, i, _, _, k, size, entries, hplan, rfl⟩
  · exact h.errors e
  · obtain ⟨e, rfl⟩ := hplan.frame
    have hpos := h.disk_pos
    cases isFile with
    | true =>
      rw [createWrites_file]
      refine h.settle h.forced rfl rfl (fun j hj => ?_) ?_
      · have hne := not_mem_of_chunk hj
        simp only [List.mem_cons, List.not_mem_nil, or_false, not_or] at hne
        simp [hne.1, hne.2]
      · apply addr_update (addr_update (addr_update (h.addr_append _) i ?_) p ?_) i ?_ <;> simp
    | false =>
      rw [createWrites_dir]
      refine h.settle h.forced rfl rfl (fun j hj => ?_) ?_
      · have hne := not_mem_of_chunk hj
        simp only [List.mem_cons, List.not_mem_nil, or_false, not_or] at hne
        simp [hne.1, hne.2]
      · apply addr_update (addr_update (addr_update (h.addr_append _) i ?_) p ?_) i ?_ <;> simp

/-- A write logs the chunk of the one that it remaps. -/
theorem Mirrors.fileWrite (h : Mirrors s) {offset numBlks : Int} {draw : Nat → Char}
    (hrun : s.fileWrite path offset numBlks draw = .ok (rc, t)) : Mirrors t := by
  rcases fileWrite_cases hrun with ⟨_, e, rfl⟩ | ⟨s', i, inode, hplan, _, n, _, hwrites⟩
  · exact h.errors e
  · obtain ⟨e, rfl⟩ := hplan.frame
    rw [fileWrites_eq _ _ _ _ _ rfl] at hwrites
    obtain ⟨_, rfl⟩ := Prod.mk.inj hwrites
    refine h.settle h.forced rfl rfl (fun j hj => ?_) ?_
    · have hne := not_mem_of_chunk hj
      rw [List.mem_singleton] at hne
      exact Function.update_of_ne hne ..
    · exact addr_update (h.addr_append _) i (by simp)

theorem Mirrors.unlinked (h : Mirrors s) (i : Inum) (inode : Inode) :
    ∀ j a, (unlinked s i inode).inodeMap j = some a → a < s.disk.length := by
  unfold Lfs.unlinked
  split
  · exact addr_update h.addr_lt i (by simp)
  · exact h.addr_lt

/-- A deletion logs both chunks, also when the file keeps no link and its number is free. -/
theorem Mirrors.fileDelete (h : Mirrors s) (hrun : s.fileDelete path = .ok (rc, t)) :
    Mirrors t := by
  rcases fileDelete_cases hrun with ⟨_, e, rfl⟩ |
    ⟨_, s', i, p, inode, parentInode, name, k, slot, entries, hplan, rfl⟩
  · exact h.errors e
  · obtain ⟨e, rfl⟩ := hplan.frame
    have haddr : ∀ blocks j a, (Lfs.unlinked { s with errorList := e } i inode).inodeMap j = some a →
        a < (s.disk ++ blocks).length := by
      intro blocks j a ha
      have hlt := (h.errors e).unlinked i inode j a ha
      rw [List.length_append]
      exact Nat.lt_add_right _ hlt
    have hmap : ∀ j, inumToChunk j ∉ [i, p].map inumToChunk → j ≠ i ∧ j ≠ p ∧
        (Lfs.unlinked { s with errorList := e } i inode).inodeMap j = s.inodeMap j := by
      intro j hj
      have hne := not_mem_of_chunk hj
      simp only [List.mem_cons, List.not_mem_nil, or_false, not_or] at hne
      exact ⟨hne.1, hne.2, unlinked_inodeMap_of_ne _ _ _ hne.1⟩
    by_cases hrefs : 1 < inode.refs
    · rw [deleteWrites_more _ _ _ hrefs]
      refine h.settle ((unlinked_forced ..).trans h.forced) (congrArg (· ++ _) (unlinked_disk ..))
        (unlinked_cr ..) (fun j hj => ?_) ?_
      · obtain ⟨hji, hjp, hsame⟩ := hmap j hj
        simp only [Function.update_of_ne hji, Function.update_of_ne hjp, hsame]
      · rw [unlinked_disk]
        apply addr_update (addr_update (haddr _) p ?_) i ?_ <;> simp
    · rw [deleteWrites_last _ _ _ hrefs]
      refine h.settle ((unlinked_forced ..).trans h.forced) (congrArg (· ++ _) (unlinked_disk ..))
        (unlinked_cr ..) (fun j hj => ?_) ?_
      · obtain ⟨_, hjp, hsame⟩ := hmap j hj
        simp only [Function.update_of_ne hjp, hsame]
      · rw [unlinked_disk]
        apply addr_update (haddr _) p
        simp

/-- A checkpoint writes what is there already. -/
theorem Mirrors.sync (h : Mirrors s) : Mirrors s.sync.2 := by
  have hsame : s.disk.set 0 (.checkpoint s.cr) = s.disk := by
    obtain ⟨hlt, hget⟩ := List.getElem?_eq_some_iff.mp h.checkpoint
    rw [← hget, List.set_getElem_self]
  have hsync : s.sync.2 = { s with errorList := [] } := by
    show { s with errorList := [], disk := s.disk.set 0 (.checkpoint s.cr) } = _
    rw [hsame]
  rw [hsync]
  exact h.errors []

/-! ## Linking -/

/-- If `file_link` is about to link file `i` into directory `p`, their inode numbers are in one
chunk of the inode map. -/
def InOneChunk (s : LFS) : Op → Prop
  | .fileLink srcpath dstpath =>
    ∀ s' i p inode parentInode name k size entries,
      LinkPlan s srcpath dstpath s' i p inode parentInode name k size entries →
        inumToChunk i = inumToChunk p
  | _ => True

section Link

variable {srcpath dstpath : Str} {s' : LFS} {i p : Inum} {inode parentInode : Inode} {name : Str}
  {k size : Nat} {entries : List (Str × Option Inum)}

/-- A plan is carried out. -/
theorem LinkPlan.run (h : LinkPlan s srcpath dstpath s' i p inode parentInode name k size entries) :
    s.fileLink srcpath dstpath =
      .ok (0, s'.linkWrites i p inode parentInode k size entries) := by
  obtain ⟨w, s₁, hsrc, hi, hdst⟩ := h.src
  obtain ⟨e, hs'⟩ := h.frame
  obtain ⟨e₁, rfl⟩ := walkPath_frame hsrc
  have hslot := h.slot
  have hdisk : s'.disk = s.disk := by rw [hs']
  rw [← hdisk] at hslot
  have hread : LFS.getInodeFromInumber { s.errorClear with errorList := e₁ } i = .ok inode := h.read
  simp only [fileLink, Device.fileLink, device_lfs, hsrc, hi, hread, h.type, hdst, hslot, bind,
    Except.bind, ne_eq, not_true_eq_false, if_false]
  rfl

/-- A link within one chunk: the chunk of the directory is the file's too. -/
theorem LinkPlan.mirrors (h : Mirrors s)
    (hplan : LinkPlan s srcpath dstpath s' i p inode parentInode name k size entries)
    (hchunk : inumToChunk i = inumToChunk p) :
    Mirrors (s'.linkWrites i p inode parentInode k size entries) := by
  obtain ⟨e, rfl⟩ := hplan.frame
  rw [linkWrites_eq]
  refine h.settle h.forced rfl rfl (fun j hj => ?_) ?_
  · have hchunk' : inumToChunk j ≠ inumToChunk p := by simpa using hj
    have hji : j ≠ i := by
      rintro rfl
      exact hchunk' hchunk
    have hjp : j ≠ p := by
      rintro rfl
      exact hchunk' rfl
    simp [hji, hjp]
  · apply addr_update (addr_update (h.addr_append _) p ?_) i ?_ <;> simp

/-- The chunk of the file is not logged: on disk the file keeps its old inode, without the new
link. -/
theorem LinkPlan.not_agree (h : Mirrors s)
    (hplan : LinkPlan s srcpath dstpath s' i p inode parentInode name k size entries)
    (hchunk : inumToChunk i ≠ inumToChunk p) :
    ¬ ReadPathsAgree (s'.linkWrites i p inode parentInode k size entries) := by
  obtain ⟨e, rfl⟩ := hplan.frame
  rw [linkWrites_eq]
  generalize hu : LFS.mk .. = u
  have hdisk : u.disk = s.disk ++ [.dataDirectory entries,
      .inode (pointTo { parentInode with size := size } k s.disk.length),
      .inode { inode with refs := inode.refs + 1 }] := by rw [← hu]
  have hcheckpoint : HasCheckpoint u.disk := hdisk ▸ HasCheckpoint.append ⟨_, h.checkpoint⟩ _
  have hforced : u.noForceCheckpoints = false := by rw [← hu]; exact h.forced
  have hmap : u.inodeMap i = some (s.disk.length + 2) := by
    rw [← hu]
    exact Function.update_self ..
  have hsettled := settled hcheckpoint [p]
  have hcr : (u.updateImap [p]).forceCheckpoint.cr[(inumToChunk i).val]? =
      s.cr[(inumToChunk i).val]? := by
    rw [forceCheckpoint_cr, updateImap_singleton, ← hu]
    exact List.getElem?_set_ne fun heq => hchunk (Fin.ext heq).symm
  have hextend : Extends s.disk (u.updateImap [p]).forceCheckpoint.disk :=
    Extends.trans (hdisk ▸ extends_append _ _) hsettled.extend
  have hstale := diskAddress_of_current (checkpoint_forced hforced hcheckpoint [p])
    (h.current (inumToChunk i)) hextend hcr
  intro hagree
  have hnew := hagree i
  rw [hstale, hsettled.inodeMap, hmap] at hnew
  have hlt := h.addr_lt i _ (Option.some.inj hnew)
  omega

end Link

/-- One operation keeps the read paths in agreement exactly if it links within one chunk. -/
theorem Mirrors.step (h : Mirrors s) {op : Op} (hrun : op.run s = .ok (rc, t)) :
    (InOneChunk s op → Mirrors t) ∧ (¬ InOneChunk s op → ¬ ReadPathsAgree t) := by
  cases op with
  | fileCreate path pick => exact ⟨fun _ => (h.errors []).create hrun, fun hne => absurd trivial hne⟩
  | dirCreate path pick => exact ⟨fun _ => (h.errors []).create hrun, fun hne => absurd trivial hne⟩
  | fileWrite path offset numBlks draw =>
    exact ⟨fun _ => h.fileWrite hrun, fun hne => absurd trivial hne⟩
  | fileDelete path => exact ⟨fun _ => h.fileDelete hrun, fun hne => absurd trivial hne⟩
  | sync =>
    obtain ⟨_, rfl⟩ := Prod.mk.inj (Except.ok.inj hrun)
    exact ⟨fun _ => h.sync, fun hne => absurd trivial hne⟩
  | fileLink srcpath dstpath =>
    constructor
    · intro hchunk
      rcases fileLink_cases hrun with ⟨_, e, rfl⟩ | ⟨_, _, _, _, _, _, _, _, _, _, hplan, rfl⟩
      · exact h.errors e
      · exact hplan.mirrors h (hchunk _ _ _ _ _ _ _ _ _ hplan)
    · intro hcross
      simp only [InOneChunk, not_forall] at hcross
      obtain ⟨s', i, p, inode, parentInode, name, k, size, entries, hplan, hchunk⟩ := hcross
      obtain ⟨_, rfl⟩ := Prod.mk.inj (Except.ok.inj (hplan.run.symm.trans hrun))
      exact hplan.not_agree h hchunk

/-- `__init__` writes a checkpoint with the chunk of the root. -/
theorem mirrors_new (useDiskCr : Bool) (inodePolicy : InodePolicy) :
    Mirrors (LFS.new useDiskCr false inodePolicy) where
  forced := rfl
  cr_length := rfl
  checkpoint := rfl
  current k := by
    cases hk : k.val with
    | zero =>
      obtain rfl : k = ⟨0, by decide⟩ := Fin.ext hk
      exact Or.inl ⟨3, rfl, rfl⟩
    | succ j =>
      have hlt : j < 15 := by
        have := k.isLt
        simp only [NUM_IMAP_PTRS_IN_CR] at this
        omega
      refine Or.inr ⟨?_, fun i hi => ?_⟩
      · show (some 3 :: List.replicate 15 none)[k.val]? = some none
        rw [hk, List.getElem?_cons_succ, List.getElem?_replicate, if_pos hlt]
      · -- only the root has an inode, and it is in chunk 0
        have hne : i ≠ ROOT_INODE := by
          rintro rfl
          rw [← hi] at hk
          exact absurd hk (Nat.succ_ne_zero j).symm
        exact Function.update_of_ne hne ..
  addr_lt i a ha := by
    have ha' : Function.update (fun _ => none) ROOT_INODE (some 2) i = some a := ha
    by_cases hi : i = ROOT_INODE
    · subst hi
      rw [Function.update_self] at ha'
      obtain rfl := Option.some.inj ha'
      show 2 < 4
      decide
    · rw [Function.update_of_ne hi] at ha'
      cases ha'

end Operations

end OsLab.Lfs
