import OsLab.Lib.Listing
import OsLab.Vsfs.Operations

/-!
# Consistency of VSFS

What a checker of the file system would look at, for every state a workload reaches: the bitmaps
against the inodes and blocks, the owners of blocks, the link counts against the directory entries,
the directory blocks, and the name cache against the tree.

* **`Checked`** -- the checks, in terms of the store and the cache alone.
* **`fileRefs_ok`**, **`dirRefs_ok`**, **`dirBlock_ok`**, **`names_ok`** -- each of them, from the
  link graph that the state represents.
* **`consistent_reachable`**, **`reachable_checked`** -- every reachable state represents a graph,
  so it passes the check, and no operation aborts.
* **`failed_calls_keep`** -- a call that returns -1 has put back what it took.
-/

namespace OsLab.Vsfs

/-! ## Reading the tree -/

/-- The entries of directory `i`, with `.` and `..`. -/
def Store.dirEntries (v : Store) (i : Nat) : List (Str × Nat) :=
  match v.inodes[i]? with
  | some ⟨.d, some b, _⟩ =>
    match v.data[b]? with
    | some block => block.dirList
    | none => []
  | _ => []

/-- The entries of directory `i` other than `.` and `..`. -/
def Store.childEntries (v : Store) (i : Nat) : List (Str × Nat) :=
  (v.dirEntries i).filter fun e => e.1 ≠ dotName ∧ e.1 ≠ dotDotName

def Store.isDir (v : Store) (i : Nat) : Bool := v.inodes[i]?.any fun inode => inode.ftype = .d

/-- How many directory entries name inode `i`. -/
def Store.entriesNaming (v : Store) (i : Nat) : Nat :=
  ∑ d ∈ Finset.range v.numInodes, (v.dirEntries d).countP fun e => e.2 = i

/-- How many directory entries other than `.` and `..` name inode `i`. -/
def Store.childEntriesNaming (v : Store) (i : Nat) : Nat :=
  ∑ d ∈ Finset.range v.numInodes, (v.childEntries d).countP fun e => e.2 = i

/-- Follow the names `cs` from directory `i`. -/
def Store.walk (v : Store) (i : Nat) : List Str → Option Nat
  | [] => some i
  | c :: cs => (v.dirEntries i).lookup c >>= fun j => v.walk j cs

structure Checked (s : Fs) : Prop where
  inodes_length : s.inodes.length = s.numInodes ∧ s.ibitmap.bmap.length = s.numInodes
  data_length : s.data.length = s.numData ∧ s.dbitmap.bmap.length = s.numData
  ibits : ∀ (i : Nat) bit inode, s.ibitmap.bmap[i]? = some bit → s.inodes[i]? = some inode →
    bit = if inode.ftype = .free then 0 else 1
  dbits : ∀ (b : Nat) bit block, s.dbitmap.bmap[b]? = some bit → s.data[b]? = some block →
    bit = if block.ftype = .free then 0 else 1
  icount : s.ibitmap.numAllocated = s.ibitmap.bmap.count 1
  dcount : s.dbitmap.numAllocated = s.dbitmap.bmap.count 1
  owner : ∀ (b : Nat) block, s.data[b]? = some block → block.ftype ≠ .free →
    ∃! i : Nat, ∃ inode : Inode,
      s.inodes[i]? = some inode ∧ inode.ftype ≠ .free ∧ inode.addr = some b
  fileRefs : ∀ (i : Nat) inode, s.inodes[i]? = some inode → inode.ftype = .f →
    inode.refCnt = s.entriesNaming i ∧ 1 ≤ s.entriesNaming i
  dirRefs : ∀ (i : Nat) inode, s.inodes[i]? = some inode → inode.ftype = .d →
    inode.refCnt = 2 + (s.childEntries i).countP fun e => s.isDir e.2
  dirNamed : ∀ (i : Nat) inode, s.inodes[i]? = some inode → inode.ftype = .d →
    s.childEntriesNaming i = if i = ROOT then 0 else 1
  dirBlock : ∀ (b : Nat) block, s.data[b]? = some block → block.ftype = .d →
    block.dirUsed = block.dirList.length ∧ block.dirList.length ≤ 32 ∧
      (block.dirList.map Prod.fst).Nodup ∧ ∀ e ∈ block.dirList, s.InodeUsed e.2
  names : ∀ p, p ∈ s.files ∨ p ∈ s.dirs →
    ∃ i, s.nameToInum p = some i ∧ s.walk ROOT (components p) = some i

/-! ## The tree is the graph -/

section Entries

variable {v : Store} {g : LinkGraph Nat Str} {i : Nat} {n : Str}

/-- The entries that the store lists for a directory are the graph's, with `.` and `..` in front. -/
theorem lists (hr : Represents v g) : g.Lists dotName dotDotName v.dirEntries where
  distinct := by decide
  dir i hi := by
    obtain ⟨⟨ftype, addr, refCnt⟩, b, block, hinode, rfl, rfl, hblock, hdir⟩ := hr.exists_dir hi
    obtain ⟨kids, hlist, hchildren, hkids⟩ := hdir.entries
    refine ⟨kids, ?_, hchildren, hkids⟩
    simp [Store.dirEntries, hinode, hblock, hlist]
  other i hi := by
    unfold Store.dirEntries
    split
    · rename_i b refCnt hinode
      exact absurd (hr.kind i _ hinode) hi
    · rfl

theorem isDir_iff (hr : Represents v g) : v.isDir i = true ↔ g.kind i = some .dir := by
  cases hget : v.inodes[i]? with
  | none => simp [Store.isDir, hget, hr.outside i hget]
  | some inode => simp [Store.isDir, hget, hr.kind i inode hget, kind_eq_dir]

end Entries

/-! ## Link counts -/

section Counts

variable {s : Fs} {g : LinkGraph Nat Str} {i : Nat} {inode : Inode}

/-- A file counts as many links as there are entries naming it, which is at least one. -/
theorem fileRefs_ok (h : Consistent s g) (hi : s.inodes[i]? = some inode)
    (hfile : inode.ftype = .f) :
    inode.refCnt = s.entriesNaming i ∧ 1 ≤ s.entriesNaming i := by
  have hkind : g.kind i = some .file := by
    rw [h.represents.kind i inode hi, hfile]
    rfl
  have hcount : s.entriesNaming i = _ := (lists h.represents).sum_file h.wellLinked hkind
  rw [hcount, ← h.represents.refs i inode hi (by simp [hfile])]
  exact ⟨h.wellLinked.file_refs i hkind, h.wellLinked.file_linked i hkind⟩

/-- A directory counts two links and one for each directory in it. The root is no exception: nothing
is counted for a file. -/
theorem dirRefs_ok (h : Consistent s g) (hi : s.inodes[i]? = some inode)
    (hdir : inode.ftype = .d) :
    inode.refCnt = 2 + (s.childEntries i).countP fun e => s.isDir e.2 := by
  have hkind : g.kind i = some .dir := by
    rw [h.represents.kind i inode hi, hdir]
    rfl
  have hsub : g.subdirs i = (s.childEntries i).countP fun e => s.isDir e.2 :=
    (lists h.represents).subdirs_eq h.wellLinked (fun _ => isDir_iff h.represents) i
  rw [← h.represents.refs i inode hi (by simp [hdir]), h.wellLinked.dir_refs i hkind, hsub]

/-- A directory's block counts its entries, has room for them, and names each used inode under one
name. -/
theorem dirBlock_ok (h : Consistent s g) {b : Nat} {block : Block}
    (hb : s.data[b]? = some block) (hdir : block.ftype = .d) :
    block.dirUsed = block.dirList.length ∧ block.dirList.length ≤ 32 ∧
      (block.dirList.map Prod.fst).Nodup ∧ ∀ e ∈ block.dirList, s.InodeUsed e.2 := by
  have hwf := h.storage.block b block hb
  -- the block is the block of a directory
  obtain ⟨i, inode, hinode, haddr⟩ := h.storage.owned b ⟨block, hb, by simp [hdir]⟩
  obtain ⟨block', hblock', htype⟩ := h.storage.addr_block i inode b hinode haddr
  obtain rfl : block = block' := Option.some.inj (hb.symm.trans hblock')
  have hkind : g.kind i = some .dir := by
    rw [h.represents.kind i inode hinode, ← htype, hdir]
    rfl
  have hlist : s.dirEntries i = block.dirList := by
    obtain ⟨ftype, addr, refCnt⟩ := inode
    obtain rfl : ftype = .d := htype.symm.trans hdir
    obtain rfl : addr = some b := haddr
    simp [Store.dirEntries, hinode, hb]
  have hused : ∀ j, g.kind j ≠ none → s.InodeUsed j := by
    intro j hj
    obtain ⟨x, hx, hxk⟩ := h.represents.exists_inode hj
    exact ⟨x, hx, fun hfree => hj (by rw [hxk, kind_eq_none, hfree])⟩
  refine ⟨hwf.used, hwf.used ▸ hwf.used_le, ?_, fun e he => ?_⟩
  · rw [← hlist]
    exact (lists h.represents).nodup h.wellLinked i
  · rw [← hlist] at he
    exact hused e.2 ((lists h.represents).target h.wellLinked he)

end Counts

/-! ## Walking -/

section Walking

variable {s : Fs} {g : LinkGraph Nat Str} {i j : Nat} {n : Str}

theorem lookup_of_mem {κ ν : Type*} [BEq κ] [LawfulBEq κ] {l : List (κ × ν)} {k : κ} {x : ν}
    (hnodup : (l.map Prod.fst).Nodup) (hmem : (k, x) ∈ l) : l.lookup k = some x := by
  induction l with
  | nil => cases hmem
  | cons e l ih =>
    obtain ⟨k', x'⟩ := e
    rw [List.map_cons, List.nodup_cons] at hnodup
    rcases List.mem_cons.mp hmem with heq | htail
    · obtain ⟨rfl, rfl⟩ := Prod.mk.inj heq
      exact List.lookup_cons_self
    · have hne : (k == k') = false := by
        rw [beq_eq_false_iff_ne]
        rintro rfl
        exact hnodup.1 (List.mem_map.mpr ⟨_, htail, rfl⟩)
      rw [List.lookup_cons, hne]
      exact ih hnodup.2 htail

/-- One more name is looked up where the others have led. -/
theorem walk_append (v : Store) (i : Nat) (cs : List Str) (n : Str) :
    v.walk i (cs ++ [n]) = v.walk i cs >>= fun j => (v.dirEntries j).lookup n := by
  induction cs generalizing i with
  | nil =>
    show ((v.dirEntries i).lookup n >>= fun j => some j) = _
    simp [Store.walk]
  | cons c cs ih => simp only [List.cons_append, Store.walk, ih, bind_assoc]

/-- A child is found under its name, for no two children have the same. -/
theorem lookup_child (h : Consistent s g) (hmem : (n, i) ∈ g.children j) :
    (s.dirEntries j).lookup n = some i := by
  have hkind := h.wellLinked.dir_of_mem hmem
  obtain ⟨inode, b, block, hinode, htype, haddr, hblock, hdir⟩ := h.represents.exists_dir hkind
  obtain ⟨kids, hlist, hchildren, hkids⟩ := hdir.entries
  have hentries : s.dirEntries j = block.dirList := by
    obtain ⟨ftype, addr, refCnt⟩ := inode
    obtain rfl : ftype = .d := htype
    obtain rfl : addr = some b := haddr
    simp [Store.dirEntries, hinode, hblock]
  rw [hentries]
  refine lookup_of_mem (dirBlock_ok h hblock hdir.ftype).2.2.1 ?_
  have hmem' : (n, i) ∈ kids := by
    rw [hchildren] at hmem
    exact hmem
  simp [hlist, hmem']

/-- The path of a listed directory leads to the inode that the cache has for it. -/
theorem walk_dirPath (h : Consistent s g) (cs : List Str) (hcs : ∀ c ∈ cs, ValidName c)
    (hp : dirPath cs ∈ s.dirs) : s.walk ROOT cs = s.nameToInum (dirPath cs) := by
  -- induction on the last name: the path is entered in the directory without it
  induction cs using List.reverseRecOn with
  | nil => exact h.paths.root_name.symm
  | append_singleton cs c ih =>
    obtain ⟨i, hi, _, hroot | ⟨q, n, j, hq, hn, heq, hj, hmem⟩⟩ := h.paths.dirs _ hp
    · rw [dirPath_append] at hroot
      exact absurd hroot (render_ne_slash hcs)
    · rw [List.forall_mem_append] at hcs
      obtain ⟨hcs, hc⟩ := hcs
      obtain ⟨ds, hds, rfl⟩ := h.paths.form q hq
      have hfull : Fs.fullName (dirPath cs) c = Fs.fullName (dirPath ds) n := by
        rw [← heq, fullName_dirPath hcs, dirPath_append]
      obtain ⟨rfl, rfl⟩ := fullName_inj hcs hds (by simpa using hc) hn hfull
      rw [walk_append, ih hcs hq, hj, hi]
      exact lookup_child h hmem

/-- The path of an entered name leads to the inode that is entered. -/
theorem walk_entered (h : Consistent s g) {p : Str} (hp : Entered s g p i) :
    s.walk ROOT (components p) = some i := by
  obtain ⟨q, n, j, hq, hn, rfl, hj, hmem⟩ := hp
  obtain ⟨cs, hcs, rfl⟩ := h.paths.form q hq
  rw [fullName_dirPath hcs, ← dirPath_append, components_dirPath (validName_snoc hcs hn),
    walk_append, walk_dirPath h cs hcs hq, hj]
  exact lookup_child h hmem

/-- What the cache has for a listed path is what following the path finds. -/
theorem names_ok (h : Consistent s g) {p : Str} (hp : p ∈ s.files ∨ p ∈ s.dirs) :
    ∃ i, s.nameToInum p = some i ∧ s.walk ROOT (components p) = some i := by
  rcases hp with hp | hp
  · obtain ⟨i, hi, _, hin⟩ := h.paths.files p hp
    exact ⟨i, hi, walk_entered h hin⟩
  · obtain ⟨i, hi, _⟩ := h.paths.dirs p hp
    obtain ⟨cs, hcs, rfl⟩ := h.paths.form p hp
    exact ⟨i, hi, by rw [components_dirPath hcs, walk_dirPath h cs hcs hp, hi]⟩

end Walking

/-! ## Every reachable state -/

theorem Bitmap.Agrees.bit {b : Bitmap} {n i bit : Nat} {used : Nat → Prop} (h : b.Agrees n used)
    (hbit : b.bmap[i]? = some bit) {free : Prop} [Decidable free] (hused : used i ↔ ¬ free) :
    bit = if free then 0 else 1 := by
  rcases h.bits i bit hbit with ⟨hone, hin⟩ | ⟨hzero, hnot⟩
  · rw [if_neg (hused.mp hin), hone]
  · rw [if_pos (by_contra fun hlive => hnot (hused.mpr hlive)), hzero]

/-- A consistent state passes the check. -/
theorem Consistent.checked {s : Fs} {g : LinkGraph Nat Str} (h : Consistent s g) : Checked s where
  inodes_length := ⟨h.storage.inodes_length, h.storage.ibits.length⟩
  data_length := ⟨h.storage.data_length, h.storage.dbits.length⟩
  ibits i bit inode hbit hinode := by
    exact h.storage.ibits.bit hbit (inodeUsed_iff hinode)
  dbits b bit block hbit hblock := by
    exact h.storage.dbits.bit hbit (blockUsed_iff hblock)
  icount := h.storage.ibits.count
  dcount := h.storage.dbits.count
  owner b block hblock hlive := by
    obtain ⟨i, inode, hinode, haddr⟩ := h.storage.owned b ⟨block, hblock, hlive⟩
    refine ⟨i, ⟨inode, hinode, (h.storage.addr_used hinode haddr).1, haddr⟩, ?_⟩
    rintro j ⟨x, hx, _, hxaddr⟩
    exact h.storage.addr_inj j i x inode b hx hinode hxaddr haddr
  fileRefs i inode hinode hfile := fileRefs_ok h hinode hfile
  dirRefs i inode hinode hdir := dirRefs_ok h hinode hdir
  dirNamed i inode hinode hdir := by
    have hkind : g.kind i = some .dir := by
      rw [h.represents.kind i inode hinode, hdir]
      rfl
    have hcount : s.childEntriesNaming i = _ := (lists h.represents).sum_named h.wellLinked i
    rw [hcount, h.wellLinked.dir_links i hkind]
  dirBlock b block hblock hdir := dirBlock_ok h hblock hdir
  names p hp := names_ok h hp

/-- Every state that a workload reaches from a fresh file system represents some graph. -/
theorem consistent_reachable {numInodes numData : Nat} (hi : 0 < numInodes) (hd : 0 < numData)
    {s : Fs} (h : (workload numInodes numData).Reachable s) : ∃ g, Consistent s g := by
  refine h.invariant (I := fun s => ∃ g, Consistent s g) ?_ ?_
  · intro s hinit
    obtain rfl : fresh numInodes numData = s := Except.ok.inj ((new_ok hi hd).symm.trans hinit)
    exact ⟨rootGraph, fresh_consistent hi hd⟩
  · rintro s op t ⟨g, hs⟩ ⟨hop, rc, hrun⟩
    obtain ⟨rc', t', g', hrun', ht⟩ := hs.run_ok hop
    obtain ⟨_, rfl⟩ : rc' = rc ∧ t' = t := by
      simpa using hrun'.symm.trans hrun
    exact ⟨g', ht⟩

/-- **Every reachable state passes the check.** A fresh file system can be built; every state a
workload reaches passes the check, and no operation aborts in it. -/
theorem reachable_checked {numInodes numData : Nat} (hi : 0 < numInodes) (hd : 0 < numData) :
    (∃ s, Fs.new numInodes numData = .ok s) ∧
      ∀ s, (workload numInodes numData).Reachable s →
        Checked s ∧ ∀ op : Op, op.Drawn s → ∃ rc t, op.run s = .ok (rc, t) := by
  refine ⟨⟨_, new_ok hi hd⟩, fun s hs => ?_⟩
  obtain ⟨g, h⟩ := consistent_reachable hi hd hs
  refine ⟨h.checked, fun op hop => ?_⟩
  obtain ⟨rc, t, _, hrun, _⟩ := h.run_ok hop
  exact ⟨rc, t, hrun⟩

/-- With five inodes and five blocks, after `mkdir("/d")`, `creat("/d/a")`, `link("/d/a", "/b")` and a
write to `/b`: two directories and two names of one file, which pass the check, and `/d/a` can be
unlinked. -/
theorem reachable_checked_linked :
    ∃ s, (workload 5 5).Reachable s ∧ s.dirs = [['/'], ['/', 'd']] ∧
      s.files = [['/', 'd', '/', 'a'], ['/', 'b']] ∧ Checked s ∧
      ∃ rc t, (Op.unlink ['/', 'd', '/', 'a']).run s = .ok (rc, t) := by
  obtain ⟨s₁, s₂, s₃, s, hmkdir, hcreat, hlink, hwrite, hdirs₁, hdirs₂, hfiles₂, hfiles₃, hdirs,
      hfiles⟩ :
      ∃ s₁ s₂ s₃ s, (Op.mkdir ['/'] ['d']).run (fresh 5 5) = .ok (0, s₁) ∧
        (Op.creat ['/', 'd'] ['a']).run s₁ = .ok (0, s₂) ∧
        (Op.link ['/'] ['b'] ['/', 'd', '/', 'a']).run s₂ = .ok (0, s₃) ∧
        (Op.append ['/', 'b'] ['x']).run s₃ = .ok (0, s) ∧
        s₁.dirs = [['/'], ['/', 'd']] ∧ s₂.dirs = [['/'], ['/', 'd']] ∧
        s₂.files = [['/', 'd', '/', 'a']] ∧
        s₃.files = [['/', 'd', '/', 'a'], ['/', 'b']] ∧ s.dirs = [['/'], ['/', 'd']] ∧
        s.files = [['/', 'd', '/', 'a'], ['/', 'b']] :=
    ⟨_, _, _, _, rfl, rfl, rfl, rfl, rfl, rfl, rfl, rfl, rfl, rfl⟩
  have hroot : ['/'] ∈ (fresh 5 5).dirs := List.mem_singleton_self _
  have hinit : (workload 5 5).Reachable (fresh 5 5) :=
    Lts.Reachable.of_init (new_ok (by decide) (by decide))
  have hreach₁ := hinit.step (a := Op.mkdir ['/'] ['d'])
    ⟨⟨hroot, by decide, by decide⟩, 0, hmkdir⟩
  have hreach₂ := hreach₁.step (a := Op.creat ['/', 'd'] ['a'])
    ⟨⟨by simp [hdirs₁], by decide, by decide⟩, 0, hcreat⟩
  have hreach₃ := hreach₂.step (a := Op.link ['/'] ['b'] ['/', 'd', '/', 'a'])
    ⟨⟨⟨by simp [hdirs₂], by decide, by decide⟩, fun _ => by simp [hfiles₂]⟩, 0, hlink⟩
  have hreach := hreach₃.step (a := Op.append ['/', 'b'] ['x'])
    ⟨fun _ => by simp [hfiles₃], 0, hwrite⟩
  obtain ⟨hchecked, hruns⟩ := (reachable_checked (by decide) (by decide)).2 s hreach
  exact ⟨s, hreach, hdirs, hfiles, hchecked, hruns _ fun _ => by simp [hfiles]⟩

/-! ## Calls that fail -/

theorem pos_of_new {numInodes numData : Nat} {s : Fs} (h : Fs.new numInodes numData = .ok s) :
    0 < numInodes ∧ 0 < numData := by
  unfold Fs.new at h
  obtain ⟨ibitmap, hibitmap, h⟩ := bind_eq_ok.mp h
  obtain ⟨s', hinode, h⟩ := bind_eq_ok.mp h
  obtain ⟨dbitmap, hdbitmap, _⟩ := bind_eq_ok.mp h
  have hlt : ∀ {n : Nat} {b : Bitmap}, (Bitmap.new n).markAllocated ROOT = .ok b → 0 < n := by
    intro n b hmark
    obtain ⟨bit, hbit, _⟩ := bind_eq_ok.mp hmark
    obtain ⟨hlt, _⟩ := List.getElem?_eq_some_iff.mp (index_some_eq_ok.mp hbit)
    simpa [Bitmap.new, ROOT] using hlt
  have hnumData : s'.dbitmap = Bitmap.new numData := by
    obtain ⟨inode, _, hset⟩ := bind_eq_ok.mp hinode
    cases hset
    rfl
  exact ⟨hlt hibitmap, hlt (hnumData ▸ hdbitmap)⟩

section Failures

variable {s t : Fs} {g : LinkGraph Nat Str} {q n p data : Str} {ftype : FType}

/-- A `createFile` that returns -1 has changed nothing, also when it had taken an inode and found no
block. -/
theorem Consistent.createFile_none (h : Consistent s g) (hq : q ∈ s.dirs)
    (hftype : ftype = .f ∨ ftype = .d) (hcall : s.createFile q n ftype = .ok (none, t)) : t = s := by
  obtain ⟨d, inode, b, block, hdir⟩ := h.exists_isDir hq
  rcases createFile_cases (n := n) h hdir hftype with hnone | ⟨i, _, _, _, hcreated⟩
  · rw [hnone] at hcall
    cases hcall
    rfl
  · rcases hcreated with ⟨_, hcreated⟩ | ⟨_, _, _, _, _, hcreated⟩
    · rw [hcreated] at hcall
      cases hcall
    · rw [hcreated] at hcall
      cases hcall

/-- A `createLink` that returns -1 has changed nothing. -/
theorem Consistent.createLink_none (h : Consistent s g) (hq : q ∈ s.dirs) (hn : ValidName n)
    (hp : p ∈ s.files) (hcall : s.createLink p n q = .ok (none, t)) : t = s := by
  obtain ⟨d, inode, b, block, hdir⟩ := h.exists_isDir hq
  obtain ⟨i, tinode, hfile, _⟩ := h.exists_isFile hp
  rcases createLink_cases h hdir hfile hn with hnone | ⟨_, hlinked⟩
  · rw [hnone] at hcall
    cases hcall
    rfl
  · rw [hlinked] at hcall
    cases hcall

/-- A `writeFile` that returns -1 has changed nothing. -/
theorem Consistent.writeFile_failed (h : Consistent s g) (hp : p ∈ s.files)
    (hcall : s.writeFile p data = .ok (-1, t)) : t = s := by
  obtain ⟨i, inode, hfile, _⟩ := h.exists_isFile hp
  rcases writeFile_cases h hfile data with hfull | ⟨_, _, _, _, _, hwritten⟩
  · rw [hfull] at hcall
    cases hcall
    rfl
  · rw [hwritten] at hcall
    cases hcall

/-- **Failed calls leave no trace.** A call that returns -1 leaves the state it started from. -/
theorem failed_calls_keep {numInodes numData : Nat} (h : (workload numInodes numData).Reachable s) :
    (∀ parent ∈ s.dirs, ∀ nfile, ValidName nfile → ∀ ftype : FType, ftype = .f ∨ ftype = .d →
      ∀ t, s.createFile parent nfile ftype = .ok (none, t) → t = s) ∧
    (∀ target ∈ s.files, ∀ parent ∈ s.dirs, ∀ nfile, ValidName nfile →
      ∀ t, s.createLink target nfile parent = .ok (none, t) → t = s) ∧
    ∀ afile ∈ s.files, ∀ data t, s.writeFile afile data = .ok (-1, t) → t = s := by
  obtain ⟨s₀, _, hnew, _⟩ := id h
  obtain ⟨hi, hd⟩ := pos_of_new hnew
  obtain ⟨g, hs⟩ := consistent_reachable hi hd h
  refine ⟨?_, ?_, ?_⟩
  · intro parent hparent nfile _ ftype hftype t hcall
    exact hs.createFile_none hparent hftype hcall
  · intro target htarget parent hparent nfile hnfile t hcall
    exact hs.createLink_none hparent hnfile htarget hcall
  · intro afile hafile data t hcall
    exact hs.writeFile_failed hafile hcall

/-- With two inodes and one block, `mkdir` gets an inode and no block. -/
theorem failed_calls_keep_mkdir :
    ∃ t, (fresh 2 1).createFile ['/'] ['a'] .d = .ok (none, t) ∧ t = fresh 2 1 := by
  have hreach : (workload 2 1).Reachable (fresh 2 1) :=
    Lts.Reachable.of_init (new_ok (by decide) (by decide))
  have hfails : ((fresh 2 1).createFile ['/'] ['a'] .d).map (·.1) = .ok none := by decide
  cases hcall : (fresh 2 1).createFile ['/'] ['a'] .d with
  | error e =>
    rw [hcall] at hfails
    cases hfails
  | ok a =>
    obtain ⟨rc, t⟩ := a
    rw [hcall] at hfails
    obtain rfl : rc = none := Except.ok.inj hfails
    refine ⟨t, rfl, ?_⟩
    exact (failed_calls_keep hreach).1 ['/'] (by decide) ['a'] ⟨by decide, by decide⟩ .d
      (Or.inr rfl) t hcall

end Failures

end OsLab.Vsfs
