import OsLab.Lfs.Validity

/-!
# Which LFS operations abort

`__walk_path` looks every component up in the one before it and `__lookup` asserts that it is a
directory, so a path through a regular file aborts. `file_link` adds an entry to the parent of its
destination without a check that there is one.

* **`passes`**, **`parentOf`**, **`resolve`** -- what a path leads through and to, as predicates on
  the state.
* **`Valid.walkPath_spec`** -- a walk aborts exactly if a component before the last is a regular
  file.
* **`Op.Fine`**, **`Valid.returns_iff`** -- the condition for an operation to return.
* **`run_clean`**, **`clean_iff_fine`** -- an operation that returns succeeds, or is refused and
  changes nothing.
-/

namespace OsLab.Lfs

open LFS

/-! ## Where a path leads -/

def dirNames (path : Str) : List Str := ((split path '/').drop 1).dropLast

def baseName (path : Str) : Str := (split path '/').getLastD []

def startsAtRoot (path : Str) : Bool := (split path '/').head? = some []

namespace LFS

/-- The inode number under a name of directory `d`. -/
def entry (s : LFS) (d : Inum) (name : Str) : Option Inum :=
  ((s.slots d).find? (·.1 = name)).bind Prod.snd

/-- Where the names lead from `d`. -/
def follow (s : LFS) (d : Inum) : List Str → Option Inum
  | [] => some d
  | name :: names => (s.entry d name).bind fun i => s.follow i names

/-- Every component that is found is a directory. -/
def passable (s : LFS) (d : Inum) : List Str → Bool
  | [] => s.isDir d
  | name :: names => s.isDir d && (s.entry d name).all fun i => s.passable i names

/-- The directory that holds the last component of the path. -/
def parentOf (s : LFS) (path : Str) : Option Inum :=
  if startsAtRoot path then s.follow ROOT_INODE (dirNames path) else none

def resolve (s : LFS) (path : Str) : Option Inum :=
  (s.parentOf path).bind fun p => s.entry p (baseName path)

/-- No component of the path but the last is a regular file. -/
def passes (s : LFS) (path : Str) : Bool :=
  !startsAtRoot path || s.passable ROOT_INODE (dirNames path)

end LFS

def notDirectory : Abort := .assertionError "parent_inode['type'] == INODE_DIRECTORY"

section Walking

variable {s : LFS} {d i : Inum} {inode : Inode} {name path : Str}

/-- With the inode map in memory, a number in use is read. -/
theorem getInode_ok (hmem : s.useDiskCr = false) (hi : s.inodeOf i = some inode) :
    s.getInodeFromInumber i = .ok inode := by
  obtain ⟨a, hmap, hget⟩ := inodeOf_eq_some.mp hi
  have hindex : index s.disk (some a) = .ok (.inode inode) := index_some_eq_ok.mpr hget
  unfold getInodeFromInumber inodeAddress
  simp only [hmem, Bool.false_eq_true, if_false, hmap, bind, Except.bind, hindex]
  rfl

theorem isDir_inodeOf (hi : s.inodeOf i = some inode) :
    s.isDir i = true ↔ inode.type = .directory := by
  unfold isDir
  rw [hi]
  simp

/-- An entry names a number in use. -/
theorem Valid.entry_live (h : Valid s) (hi : s.entry d name = some i) : s.inodeMap i ≠ none := by
  intro hfree
  obtain ⟨e, hfound, he⟩ := Option.bind_eq_some_iff.mp hi
  have hzero := (h.counted i).free hfree
  have hnone := Finset.sum_eq_zero_iff.mp hzero d (Finset.mem_univ d)
  rw [List.countP_eq_zero] at hnone
  exact hnone e (List.mem_of_find?_eq_some hfound) (by simpa using he)

/-- A lookup in a directory finds the entry, or that there is none. -/
theorem Valid.lookup_dir (h : Valid s) (hd : s.isDir d = true) :
    ∃ inode, inode.type = .directory ∧ s.lookup d name = .ok (s.entry d name, inode) := by
  obtain ⟨inode, hinode, htype⟩ := isDir_eq_true.mp hd
  obtain ⟨addrs, blocks, hp⟩ := h.dirRead hinode htype
  refine ⟨inode, htype, ?_⟩
  unfold lookup LFS.entry
  rw [hp.slots, getInode_ok h.inMemory hinode]
  have hlookup : lookupLoop s.disk name inode.pointers =
      .ok ((blocks.flatten.find? (·.1 = name)).bind Prod.snd) := hp.read.lookup_eq
  simp only [bind, Except.bind, htype, decide_true, assert_true, hlookup]
  rfl

/-- A lookup in a regular file fails, by the assertion of `__lookup`. -/
theorem Valid.lookup_file (h : Valid s) (hi : s.inodeMap d ≠ none) (hd : s.isDir d = false) :
    s.lookup d name = .error notDirectory := by
  obtain ⟨inode, hlive⟩ := h.live d hi
  have htype : inode.type ≠ .directory := by
    intro htype
    rw [(isDir_inodeOf hlive.inodeOf).mpr htype] at hd
    cases hd
  unfold lookup
  rw [getInode_ok h.inMemory hlive.inodeOf]
  simp only [bind, Except.bind, htype, decide_false, assert_false]
  rfl

/-- The loop of the walk, up to the directory that holds the last component, or the regular file
that stops it. -/
theorem Valid.walkLoop_spec (h : Valid s) {names : List Str} (hd : s.inodeMap d ≠ none) :
    (∃ e, s.walkLoop d names = .ok (s.follow d names, { s with errorList := e }) ∧
        ((∀ p, s.follow d names = some p → s.inodeMap p ≠ none) ∧
          (s.passable d names = true ↔ ∀ p, s.follow d names = some p → s.isDir p = true))) ∨
      s.walkLoop d names = .error notDirectory ∧ s.passable d names = false := by
  induction names generalizing d with
  | nil =>
    refine Or.inl ⟨s.errorList, rfl, ?_, ?_⟩
    · rintro p ⟨⟩
      exact hd
    · exact ⟨fun hdir p heq => Option.some.inj heq ▸ hdir, fun hall => hall d rfl⟩
  | cons name names ih =>
    unfold walkLoop passable follow
    cases hdir : s.isDir d with
    | false =>
      rw [h.lookup_file hd hdir]
      exact Or.inr ⟨rfl, rfl⟩
    | true =>
      obtain ⟨inode, htype, hlookup⟩ :
          ∃ inode, inode.type = .directory ∧ s.lookup d name = .ok (s.entry d name, inode) :=
        h.lookup_dir hdir
      rw [hlookup]
      cases hentry : s.entry d name with
      | none =>
        refine Or.inl ⟨_, rfl, fun p heq => ?_, fun _ p heq => ?_, fun _ => rfl⟩
        · cases heq
        · cases heq
      | some i =>
        simp only [bind, Except.bind, htype, ne_eq, not_true_eq_false, if_false, Option.bind_some,
          Option.all_some, Bool.true_and]
        exact ih (h.entry_live hentry)

theorem split_baseName (h : startsAtRoot path = true) :
    index (split path '/') (some ((split path '/').length - 1)) = .ok (baseName path) := by
  have hne : split path '/' ≠ [] := by
    intro hnil
    unfold startsAtRoot at h
    rw [hnil] at h
    cases h
  rw [index_some_eq_ok, ← List.getLast?_eq_getElem?, List.getLast?_eq_getLast_of_ne_nil hne, baseName,
    List.getLastD_eq_getLast?, List.getLast?_eq_getLast_of_ne_nil hne]
  rfl

/-- A walk aborts exactly if a component before the last is a regular file; otherwise it returns
what the path resolves to. -/
theorem Valid.walkPath_spec (h : Valid s) (path : Str) :
    (s.passes path = true ∧ ∃ w e, s.walkPath path = .ok (w, { s with errorList := e }) ∧
        w.inodeNumber = s.resolve path ∧ w.parent.map Prod.fst = s.parentOf path) ∨
      s.passes path = false ∧ s.walkPath path = .error notDirectory := by
  unfold walkPath passes resolve parentOf
  cases hroot : startsAtRoot path with
  | false =>
    -- A path that does not start at the root is refused before anything is looked up.
    have hne : (split path '/').head? ≠ some [] := by simpa [startsAtRoot] using hroot
    rw [if_pos hne]
    exact Or.inl ⟨rfl, _, _, rfl, rfl, rfl⟩
  | true =>
    have heq : (split path '/').head? = some [] := by simpa [startsAtRoot] using hroot
    have hlive : s.inodeMap ROOT_INODE ≠ none := by
      obtain ⟨inode, hinode, _⟩ := isDir_eq_true.mp h.root
      exact inodeMap_of_inodeOf hinode
    have hbase := split_baseName hroot
    rw [if_neg (not_not.mpr heq)]
    rcases @Valid.walkLoop_spec s ROOT_INODE h (dirNames path) hlive with
      ⟨e, hloop, htarget, hpass⟩ | ⟨hloop, hpass⟩
    · unfold dirNames at hloop
      rw [hloop]
      change ∀ p, s.follow ROOT_INODE (dirNames path) = some p → _ at htarget
      cases hfollow : s.follow ROOT_INODE (dirNames path) with
      | none =>
        -- A directory on the way is missing: the walk reports it and ends without a parent.
        refine Or.inl ⟨?_, ⟨none, [], none⟩, e, ?_, rfl, rfl⟩
        · exact hpass.mpr fun p heq => by
            rw [hfollow] at heq
            cases heq
        · unfold dirNames at hfollow
          simp only [bind, Except.bind, hfollow]
          rfl
      | some p =>
        have hp := htarget p hfollow
        unfold dirNames at hfollow
        simp only [bind, Except.bind, hfollow, hbase]
        -- The last component is looked up in `p`, which may be a regular file.
        cases hdir : s.isDir p with
        | true =>
          obtain ⟨inode, _, hlookup⟩ : ∃ inode, inode.type = .directory ∧
              { s with errorList := e }.lookup p (baseName path) =
                .ok (s.entry p (baseName path), inode) := (h.errors e).lookup_dir hdir
          refine Or.inl
            ⟨?_, ⟨s.entry p (baseName path), baseName path, some (p, inode)⟩, e, ?_, rfl, rfl⟩
          · refine hpass.mpr fun q heq => ?_
            unfold dirNames at heq
            obtain rfl : p = q := Option.some.inj (hfollow.symm.trans heq)
            exact hdir
          · rw [hlookup]
            rfl
        | false =>
          have hlookup : { s with errorList := e }.lookup p (baseName path) =
              .error notDirectory := (h.errors e).lookup_file hp hdir
          refine Or.inr ⟨?_, ?_⟩
          · cases hpassed : s.passable ROOT_INODE (dirNames path) with
            | false => rfl
            | true =>
              have hyes := hpass.mp hpassed p hfollow
              rw [hdir] at hyes
              cases hyes
          · rw [hlookup]
    · unfold dirNames at hloop
      refine Or.inr ⟨by rw [hpass]; rfl, ?_⟩
      rw [hloop]
      rfl

section Errors

variable (s) (e : List Str)

theorem follow_errors (d : Inum) (names : List Str) :
    LFS.follow { s with errorList := e } d names = s.follow d names := by
  induction names generalizing d with
  | nil => rfl
  | cons name names ih =>
    unfold LFS.follow
    simp only [ih]
    rfl

theorem passable_errors (d : Inum) (names : List Str) :
    LFS.passable { s with errorList := e } d names = s.passable d names := by
  induction names generalizing d with
  | nil => rfl
  | cons name names ih =>
    unfold LFS.passable
    simp only [ih]
    rfl

/-- What a path leads to does not depend on the errors that have been reported. The same goes for
the other predicates. -/
theorem parentOf_errors (path : Str) :
    LFS.parentOf { s with errorList := e } path = s.parentOf path := by
  unfold LFS.parentOf
  rw [follow_errors]

theorem resolve_errors (path : Str) :
    LFS.resolve { s with errorList := e } path = s.resolve path := by
  unfold LFS.resolve
  rw [parentOf_errors]
  rfl

theorem passes_errors (path : Str) :
    LFS.passes { s with errorList := e } path = s.passes path := by
  unfold LFS.passes
  rw [passable_errors]

end Errors

/-- What the operations' walks return; `error_list` does not matter to them. -/
theorem Valid.walk (h : Valid s) (e : List Str) (path : Str) :
    (s.passes path = true ∧ ∃ w e', LFS.walkPath { s with errorList := e } path =
        .ok (w, { s with errorList := e' }) ∧
        w.inodeNumber = s.resolve path ∧ w.parent.map Prod.fst = s.parentOf path) ∨
      s.passes path = false ∧
        LFS.walkPath { s with errorList := e } path = .error notDirectory := by
  have hspec := (h.errors e).walkPath_spec path
  rw [passes_errors, resolve_errors, parentOf_errors] at hspec
  exact hspec

end Walking

/-! ## Which operations abort -/

/-- The condition for an operation to return. -/
def Op.Fine (s : LFS) : Op → Prop
  | .fileCreate path _ => s.passes path = true
  | .dirCreate path _ => s.passes path = true
  | .fileLink srcpath dstpath => s.passes srcpath = true ∧
      ∀ i, s.resolve srcpath = some i → s.isDir i = false →
        s.passes dstpath = true ∧ s.parentOf dstpath ≠ none
  | .fileWrite path _ _ _ => s.passes path = true
  | .fileDelete path => s.passes path = true
  | .sync => True

/-- The operation succeeds, or it is refused and leaves the file system as it was. -/
def Op.Clean (s : LFS) (op : Op) : Prop :=
  ∃ rc t, op.run s = .ok (rc, t) ∧
    (0 ≤ rc ∨ rc = -1 ∧ t.disk = s.disk ∧ t.cr = s.cr ∧ t.inodeMap = s.inodeMap)

section Returning

variable {s : LFS} {path : Str}

theorem freeInode_then {u : LFS} {i : Inum} (hu : u.inodeMap i ≠ none) :
    ∃ r : Int × LFS, (u.freeInode i >>= fun s => pure (-1, s)) = .ok r := by
  rw [freeInode_eq_ok.mpr ⟨hu, rfl⟩]
  exact ⟨_, rfl⟩

/-- A number that a path leads to is in use, and its inode can be read after a walk. -/
theorem Valid.read_live (h : Valid s) {i : Inum} (hi : s.resolve path = some i) (e : List Str) :
    ∃ inode, LiveAt s i inode ∧
      LFS.getInodeFromInumber { s with errorList := e } i = .ok inode := by
  obtain ⟨p, _, hentry⟩ := Option.bind_eq_some_iff.mp hi
  obtain ⟨inode, hlive⟩ := h.live i (h.entry_live hentry)
  exact ⟨inode, hlive, getInode_ok h.inMemory hlive.inodeOf⟩

/-- An operation that goes on after every walk aborts only in the walk. -/
theorem Valid.afterWalk_iff {β : Type} (h : Valid s) (e : List Str)
    {k : LFS.Walk × LFS → Except Abort β}
    (hk : ∀ w e', LFS.walkPath { s with errorList := e } path =
      .ok (w, { s with errorList := e' }) → w.inodeNumber = s.resolve path →
        ∃ r, k (w, { s with errorList := e' }) = .ok r) :
    (∃ r, (LFS.walkPath { s with errorList := e } path >>= k) = .ok r) ↔ s.passes path = true := by
  rcases h.walk e path with ⟨hpass, w, e', hwalk, hi, _⟩ | ⟨hpass, hwalk⟩
  · refine ⟨fun _ => hpass, fun _ => ?_⟩
    rw [hwalk]
    exact hk w e' hwalk hi
  · rw [hwalk, hpass]
    constructor
    · rintro ⟨_, hr⟩
      cases hr
    · intro hfalse
      cases hfalse

/-- A creation returns exactly if its path passes. -/
theorem Valid.create_ok (h : Valid s) {isFile : Bool} {pick : Nat} :
    (∃ r, s.create path isFile pick = .ok r) ↔ s.passes path = true := by
  unfold LFS.create Device.create
  refine h.afterWalk_iff s.errorList fun w e hwalk _ => ?_
  obtain ⟨inodeNumber, fileName, parent⟩ := w
  cases inodeNumber with
  | some i => exact ⟨_, rfl⟩
  | none =>
    cases parent with
    | none => exact ⟨_, rfl⟩
    | some parent =>
      obtain ⟨p, parentInode⟩ := parent
      obtain ⟨addrs, blocks, hp⟩ := h.parent hwalk
      simp only [bind, Except.bind]
      rcases LFS.allocateInode_cases { s with errorList := e } pick with hnone | ⟨i, _, halloc⟩
      · rw [hnone]
        exact ⟨_, rfl⟩
      · obtain ⟨added, hadded⟩ := hp.read.addDirEntry_ok fileName i
        rw [halloc]
        simp only [hadded]
        cases added with
        | none =>
          -- the directory is full, and the number just taken is given back
          exact freeInode_then (by simp [errorLog])
        | some added => exact ⟨_, rfl⟩

/-- So does a write. -/
theorem Valid.write_ok (h : Valid s) {offset numBlks : Int} {draw : Nat → Char} :
    (∃ r, s.fileWrite path offset numBlks draw = .ok r) ↔ s.passes path = true := by
  unfold fileWrite Device.fileWrite errorClear
  refine h.afterWalk_iff [] fun w e _ hi => ?_
  obtain ⟨inodeNumber, fileName, parent⟩ := w
  cases inodeNumber with
  | none => exact ⟨_, rfl⟩
  | some i =>
    obtain ⟨inode, _, hread⟩ := h.read_live hi.symm e
    simp only [bind, Except.bind]
    rw [hread]
    simp only []
    split
    · exact ⟨_, rfl⟩
    · split <;> exact ⟨_, rfl⟩

/-- So does a deletion. -/
theorem Valid.delete_ok (h : Valid s) :
    (∃ r, s.fileDelete path = .ok r) ↔ s.passes path = true := by
  unfold fileDelete Device.fileDelete errorClear
  refine h.afterWalk_iff [] fun w e hwalk hi => ?_
  obtain ⟨inodeNumber, fileName, parent⟩ := w
  cases inodeNumber with
  | none => exact ⟨_, rfl⟩
  | some i =>
    cases parent with
    | none => exact ⟨_, rfl⟩
    | some parent =>
      obtain ⟨p, parentInode⟩ := parent
      obtain ⟨inode, hlive, hread⟩ := h.read_live hi.symm e
      simp only [bind, Except.bind]
      rw [hread]
      simp only []
      split
      · exact ⟨_, rfl⟩
      · -- the entry that the walk found is there to be freed
        obtain ⟨addrs, blocks, hp⟩ := (h.errors []).parent hwalk
        obtain ⟨_, _, hlookup, _⟩ := walkPath_parent hwalk
        have hmap : s.inodeMap i ≠ none := inodeMap_of_inodeOf hlive.inodeOf
        obtain ⟨u, hu, hdisk⟩ : ∃ u, LFS.freeLast { s with errorList := e } i inode = .ok u ∧
            u.disk = s.disk := by
          unfold freeLast
          split
          · exact ⟨_, freeInode_eq_ok.mpr ⟨hmap, rfl⟩, rfl⟩
          · exact ⟨_, rfl, rfl⟩
        rw [hu]
        simp only [hdisk]
        rcases hp.read.findMatchingDirSlot_spec fileName with
          ⟨_, hnone⟩ | ⟨k, slot, old, e, hsome, hk, _, _⟩
        · rw [hp.read.lookup_eq, hnone] at hlookup
          cases hlookup
        · have hold := hp.read.readDirblock_ok hk
          change findMatchingDirSlot s.disk fileName parentInode = _ at hsome
          change readDirblock s.disk parentInode k = _ at hold
          rw [hsome]
          simp only [hold]
          exact ⟨_, rfl⟩

/-- The second half of `file_link`: it needs a parent of its destination, which it does not look
for. -/
theorem Valid.linkDst_ok (h : Valid s) (e : List Str) (dstpath : Str) (i : Inum) (inode : Inode) :
    (∃ r, (do
      let (dst, s) ← LFS.walkPath { s with errorList := e } dstpath
      match dst.inodeNumber, dst.parent with
      | some _, _ => return (-1, s.errorLog ("link failed, dst [".toList ++ dstpath ++
          "] exists".toList))
      | none, none => .error .typeError
      | none, some (p, parentInode) => do
        let added ← addDirEntry s.disk parentInode dst.fileName i
        match added with
        | none => return (-1, s.errorLog ("error: directory is full [path ".toList ++ dstpath ++
            "]".toList))
        | some (k, size, entries) =>
          return ((0 : Int), s.linkWrites i p inode parentInode k size entries)) = .ok r) ↔
      s.passes dstpath = true ∧ s.parentOf dstpath ≠ none := by
  -- The walk over the destination ends for the paths that `passes` and aborts for the others.
  rcases h.walk e dstpath with ⟨hdst, w, e', hwalk, hi, hparent⟩ | ⟨hdst, hwalk⟩
  · rw [hwalk, hdst, ← hparent]
    obtain ⟨inodeNumber, fileName, parent⟩ := w
    cases inodeNumber with
    | some j =>
      refine ⟨fun _ => ⟨rfl, ?_⟩, fun _ => ⟨_, rfl⟩⟩
      -- What exists was found in some parent.
      obtain ⟨p, hp, _⟩ := Option.bind_eq_some_iff.mp hi.symm
      rw [hparent, hp]
      exact Option.some_ne_none p
    | none =>
      cases parent with
      | none =>
        -- Without a parent the unchecked tuple raises a `TypeError`.
        constructor
        · rintro ⟨_, hr⟩
          cases hr
        · rintro ⟨_, hnone⟩
          exact absurd rfl hnone
      | some parent =>
        obtain ⟨p, parentInode⟩ := parent
        obtain ⟨addrs, blocks, hp⟩ := (h.errors e).parent hwalk
        -- The parent may be a regular file, in whose blocks the entry is looked for all the same.
        obtain ⟨added, hadded⟩ := hp.read.addDirEntry_ok fileName i
        refine ⟨fun _ => ⟨rfl, Option.some_ne_none p⟩, fun _ => ?_⟩
        simp only [bind, Except.bind]
        change addDirEntry s.disk parentInode fileName i = _ at hadded
        rw [hadded]
        cases added <;> exact ⟨_, rfl⟩
  · rw [hwalk, hdst]
    constructor
    · rintro ⟨_, hr⟩
      cases hr
    · rintro ⟨hfalse, _⟩
      cases hfalse

/-- A link returns if both paths pass and the destination has a parent, or if it is refused before
it gets there. -/
theorem Valid.link_ok (h : Valid s) {srcpath dstpath : Str} :
    (∃ r, s.fileLink srcpath dstpath = .ok r) ↔ (Op.fileLink srcpath dstpath).Fine s := by
  unfold fileLink Device.fileLink errorClear
  dsimp only [device_lfs]
  rcases h.walk [] srcpath with ⟨hsrc, w, e, hwalk, hi, _⟩ | ⟨hsrc, hwalk⟩
  · rw [hwalk]
    show _ ↔ s.passes srcpath = true ∧ _
    rw [hsrc, ← hi]
    obtain ⟨inodeNumber, fileName, parent⟩ := w
    cases inodeNumber with
    | none =>
      refine ⟨fun _ => ⟨rfl, fun i hnone => ?_⟩, fun _ => ⟨_, rfl⟩⟩
      cases hnone
    | some i =>
      obtain ⟨inode, hlive, hread⟩ := h.read_live hi.symm e
      simp only [bind, Except.bind]
      rw [hread]
      simp only []
      cases htype : inode.type with
      | directory =>
        refine ⟨fun _ => ⟨trivial, fun j hj hfile => ?_⟩, fun _ => ?_⟩
        · obtain rfl : i = j := Option.some.inj hj
          rw [(isDir_inodeOf hlive.inodeOf).mpr htype] at hfile
          cases hfile
        · exact ⟨_, rfl⟩
      | regular =>
        have hfile := isDir_regular hlive.inodeOf htype
        -- the destination is walked only now
        have hfine : (True ∧ ∀ j, some i = some j → s.isDir j = false →
            s.passes dstpath = true ∧ s.parentOf dstpath ≠ none) ↔
              s.passes dstpath = true ∧ s.parentOf dstpath ≠ none :=
          ⟨fun hall => hall.2 i rfl hfile, fun hdst => ⟨trivial, fun _ _ _ => hdst⟩⟩
        rw [hfine]
        exact h.linkDst_ok e dstpath i inode
  · rw [hwalk]
    constructor
    · rintro ⟨_, hr⟩
      cases hr
    · rintro ⟨hpass, _⟩
      rw [hsrc] at hpass
      cases hpass

/-- `file_delete` aborts in the walk only: the slot that it asserts is there. -/
theorem Valid.delete_error (h : Valid s) {a : Abort} (hrun : s.fileDelete path = .error a) :
    a = notDirectory := by
  cases hpass : s.passes path with
  | true =>
    obtain ⟨r, hr⟩ := h.delete_ok.mpr hpass
    rw [hrun] at hr
    cases hr
  | false =>
    rcases h.walk [] path with ⟨hpass', _⟩ | ⟨_, hwalk⟩
    · rw [hpass] at hpass'
      cases hpass'
    · unfold fileDelete Device.fileDelete errorClear at hrun
      dsimp only [device_lfs] at hrun
      rw [hwalk] at hrun
      exact (Except.error.inj hrun).symm

end Returning

/-! ## Every reachable state -/

section Runs

variable {s : LFS} {op : Op} {noForceCheckpoints : Bool} {inodePolicy : InodePolicy}

/-- Every operation returns exactly if it is fine. -/
theorem Valid.returns_iff (h : Valid s) : (∃ r, op.run s = .ok r) ↔ op.Fine s := by
  cases op with
  | fileCreate path pick =>
    exact (h.errors []).create_ok.trans (by rw [passes_errors]; rfl)
  | dirCreate path pick =>
    exact (h.errors []).create_ok.trans (by rw [passes_errors]; rfl)
  | fileLink srcpath dstpath => exact h.link_ok
  | fileWrite path offset numBlks draw => exact h.write_ok
  | fileDelete path => exact h.delete_ok
  | sync => exact ⟨fun _ => trivial, fun _ => ⟨_, rfl⟩⟩

/-- A refusal is -1 and leaves the file system as it was. -/
theorem run_clean {rc : Int} {t : LFS} (hrun : op.run s = .ok (rc, t)) :
    0 ≤ rc ∨ rc = -1 ∧ t.disk = s.disk ∧ t.cr = s.cr ∧ t.inodeMap = s.inodeMap := by
  cases op with
  | fileCreate path pick =>
    rcases create_cases hrun with ⟨hrc, e, rfl⟩ | ⟨hrc, _⟩
    · exact Or.inr ⟨hrc, rfl, rfl, rfl⟩
    · exact Or.inl (by omega)
  | dirCreate path pick =>
    rcases create_cases hrun with ⟨hrc, e, rfl⟩ | ⟨hrc, _⟩
    · exact Or.inr ⟨hrc, rfl, rfl, rfl⟩
    · exact Or.inl (by omega)
  | fileLink srcpath dstpath =>
    rcases fileLink_cases hrun with ⟨hrc, e, rfl⟩ | ⟨hrc, _⟩
    · exact Or.inr ⟨hrc, rfl, rfl, rfl⟩
    · exact Or.inl (by omega)
  | fileWrite path offset numBlks draw =>
    rcases fileWrite_cases hrun with ⟨hrc, e, rfl⟩ | ⟨_, _, _, _, _, written, hrc, _⟩
    · exact Or.inr ⟨hrc, rfl, rfl, rfl⟩
    · exact Or.inl (by omega)
  | fileDelete path =>
    rcases fileDelete_cases hrun with ⟨hrc, e, rfl⟩ | ⟨hrc, _⟩
    · exact Or.inr ⟨hrc, rfl, rfl, rfl⟩
    · exact Or.inl (by omega)
  | sync =>
    obtain ⟨rfl, _⟩ := Prod.mk.inj (Except.ok.inj hrun)
    exact Or.inl (Int.le_refl 0)

/-- **When operations fail cleanly.** In every reachable state an operation succeeds, or is refused
and changes nothing, exactly if its paths lead through directories only and, for a link that gets as
far as its destination, the destination has a parent directory. -/
theorem clean_iff_fine (h : (fileSystem false noForceCheckpoints inodePolicy).Reachable s)
    (op : Op) : op.Clean s ↔ op.Fine s := by
  rw [← (valid_reachable h).returns_iff]
  constructor
  · rintro ⟨rc, t, hrun, _⟩
    exact ⟨(rc, t), hrun⟩
  · rintro ⟨⟨rc, t⟩, hrun⟩
    exact ⟨rc, t, hrun, run_clean hrun⟩

theorem clean_iff_fine_new :
    (Op.fileCreate ['/', 'a'] 0).Clean (LFS.new false false .sequential) := by
  have hfine : (Op.fileCreate ['/', 'a'] 0).Fine (LFS.new false false .sequential) := by
    show LFS.passes _ _ = true
    decide +kernel
  exact (clean_iff_fine (Lts.Reachable.of_init rfl) _).mpr hfine

/-- `/a` is a regular file, so creating `/a/b` aborts. -/
theorem create_below_file :
    ∃ t, (fileSystem false false .sequential).Reachable t ∧
      ¬ (Op.fileCreate ['/', 'a', '/', 'b'] 0).Clean t := by
  have haborts : ([(Op.fileCreate ['/', 'a'] 0, (0 : Int))].foldlM next
      (LFS.new false false .sequential)).any
        (fun t => match (Op.fileCreate ['/', 'a', '/', 'b'] 0).run t with
          | .ok _ => false
          | .error _ => true) = true := by decide +kernel
  rw [Option.any_eq_true] at haborts
  obtain ⟨t, ht, habort⟩ := haborts
  refine ⟨t, ⟨_, _, rfl, Lts.run_ofFun.mpr ht⟩, ?_⟩
  rintro ⟨rc, u, hrun, _⟩
  rw [hrun] at habort
  cases habort

end Runs

end OsLab.Lfs
