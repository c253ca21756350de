import OsLab.Lfs.Names
import OsLab.Lib.TreePaths

/-!
# The paths of the LFS tree

A plain path names no `.`, no `..` and no marker. The walk follows it through the tree, and each
operation that succeeds adds or takes away the plain path it was given and no other.

* **`Plain`**, **`Plain.ext`** -- a plain path is its components joined again, so no two have the
  same.
* **`Consistent.walk_leads`**, **`Consistent.typeAt_iff`** -- the walk goes where the tree says, and
  finds what is there.
* **`Gained`**, **`Consistent.create_gains`**, **`Consistent.link_gains`** -- one path more.
* **`Lost`**, **`Consistent.delete_loses`** -- one path less.
-/

namespace OsLab.Lfs

open LFS

/-! ## Plain paths -/

/-- The components of a path behind its first slash. -/
def names (path : Str) : List Str := (split path '/').drop 1

def Plain (path : Str) : Prop :=
  startsAtRoot path = true ∧ names path ≠ [] ∧
    ∀ n ∈ names path, n ≠ dotName ∧ n ≠ dotDotName ∧ n ≠ marker

instance : DecidablePred Plain := fun path =>
  inferInstanceAs (Decidable (startsAtRoot path = true ∧ names path ≠ [] ∧
    ∀ n ∈ names path, n ≠ dotName ∧ n ≠ dotDotName ∧ n ≠ marker))

section Names

variable {path path' : Str}

/-- A path that starts at the root has an empty component in front. -/
theorem split_eq (h : startsAtRoot path = true) : split path '/' = [] :: names path := by
  have hhead : (split path '/').head? = some [] := by simpa [startsAtRoot] using h
  unfold names
  cases hsplit : split path '/' with
  | nil =>
    rw [hsplit] at hhead
    cases hhead
  | cons c cs =>
    rw [hsplit] at hhead
    obtain rfl := Option.some.inj hhead
    rfl

/-- The components are those of the directory and the last one. -/
theorem Plain.names_eq (h : Plain path) : names path = dirNames path ++ [baseName path] := by
  have hlast : baseName path = (names path).getLast h.2.1 := by
    unfold baseName
    rw [split_eq h.1, List.getLastD_eq_getLast?, List.getLast?_cons_of_ne_nil h.2.1,
      List.getLast?_eq_getLast_of_ne_nil h.2.1]
    rfl
  rw [hlast]
  exact (List.dropLast_append_getLast h.2.1).symm

/-- The path is its components joined again. -/
theorem Plain.ext (h : Plain path) (h' : Plain path') (hnames : names path = names path') :
    path = path' := by
  have hsplit : split path '/' = split path' '/' := by
    rw [split_eq h.1, split_eq h'.1, hnames]
  have hjoin := congrArg (List.intercalate ['/']) hsplit
  unfold split at hjoin
  rwa [List.intercalate_splitOn, List.intercalate_splitOn] at hjoin

theorem Plain.dirNames (h : Plain path) : ∀ n ∈ dirNames path, n ≠ dotName ∧ n ≠ dotDotName := by
  intro n hn
  have hmem : n ∈ names path := by
    rw [h.names_eq]
    exact List.mem_append_left _ hn
  exact ⟨(h.2.2 n hmem).1, (h.2.2 n hmem).2.1⟩

theorem Plain.baseName (h : Plain path) :
    baseName path ≠ dotName ∧ baseName path ≠ dotDotName ∧ baseName path ≠ marker := by
  apply h.2.2
  rw [h.names_eq]
  exact List.mem_append_right _ (List.mem_singleton_self _)

theorem Plain.unmarked (h : Plain path) : Unmarked path := by
  unfold Unmarked
  rw [split_eq h.1, List.getLast?_cons_of_ne_nil h.2.1, h.names_eq, List.getLast?_concat]
  exact fun heq => h.baseName.2.2 (Option.some.inj heq)

end Names

/-! ## Where a plain path leads -/

/-- The type of the inode that the walk finds. -/
def LFS.typeAt (s : LFS) (path : Str) : Option InodeType :=
  match s.walkPath path with
  | .ok (⟨some i, _, _⟩, _) =>
    match s.getInodeFromInumber i with
    | .ok inode => some inode.type
    | .error _ => none
  | _ => none

section Tree

variable {s t : LFS} {g : LinkGraph Inum Str} {path name : Str} {p i : Inum} {rc : Int}
  {type : InodeType} {s' : LFS} {parentInode : Inode} {found : Option Inum}

/-- The directory that holds the last component, by the tree. -/
theorem Consistent.parentOf_iff (hs : Consistent s g) (h : Plain path) :
    s.parentOf path = some p ↔ g.Leads ROOT_INODE (dirNames path) p := by
  unfold LFS.parentOf
  rw [if_pos h.1, hs.follow_iff]
  exact LinkGraph.walks_iff_leads (fun _ _ he => hs.wellLinked.dir_of_mem he) h.dirNames

/-- What a plain path resolves to is where the tree leads. -/
theorem Consistent.leads_of_resolve (hs : Consistent s g) (h : Plain path)
    (hi : s.resolve path = some i) : g.Leads ROOT_INODE (names path) i := by
  obtain ⟨p, hp, hentry⟩ := Option.bind_eq_some_iff.mp hi
  rw [h.names_eq]
  refine .entry ((hs.parentOf_iff h).mp hp) ?_
  rcases (hs.entry_iff.mp hentry).entry with ⟨hdot, _⟩ | ⟨hdotdot, _⟩ | hmem
  · exact absurd hdot h.baseName.1
  · exact absurd hdotdot h.baseName.2.1
  · exact hmem

/-- The walk goes where the tree says. -/
theorem Consistent.walk_leads (hs : Consistent s g) (hv : Valid s) (h : Plain path)
    (hwalk : s.walkPath path = .ok (⟨found, name, some (p, parentInode)⟩, s')) :
    name = baseName path ∧ g.Leads ROOT_INODE (dirNames path) p := by
  obtain ⟨_, _, _, hlast⟩ := walkPath_parent hwalk
  have hname : baseName path = name := by
    unfold baseName
    rw [List.getLastD_eq_getLast?, hlast]
    rfl
  refine ⟨hname.symm, (hs.parentOf_iff h).mp ?_⟩
  rcases hv.walkPath_spec path with ⟨_, w, e, hwalk', _, hp⟩ | ⟨_, herror⟩
  · rw [hwalk] at hwalk'
    cases hwalk'
    exact hp.symm
  · rw [hwalk] at herror
    cases herror

/-- A plain path of the tree leads to its inode through its directory. -/
theorem Consistent.leadsTo (hs : Consistent s g) (h : Plain path)
    (hi : g.Leads ROOT_INODE (names path) i) : ∃ p, LeadsTo g path p i := by
  rw [h.names_eq, LinkGraph.leads_snoc] at hi
  obtain ⟨p, hp, hmem⟩ := hi
  have hdir : ∀ d, ∀ e ∈ g.children d, g.kind d = some .dir := fun _ _ he =>
    hs.wellLinked.dir_of_mem he
  exact ⟨p, h.1, (LinkGraph.walks_iff_leads hdir h.dirNames).mpr hp, hdir p _ hmem, hmem⟩

/-- A plain path is found if it is a path of the tree, with the type of its node. -/
theorem Consistent.typeAt_iff (hs : Consistent s g) (hv : Valid s) (h : Plain path) :
    s.typeAt path = some type ↔ names path ∈ g.pathsTo ROOT_INODE type.kind := by
  have hread : ∀ {i inode}, s.getInodeFromInumber i = .ok inode →
      (some inode.type = some type ↔ g.kind i = some type.kind) := by
    intro i inode hinode
    rw [(hs.represents.inodeAt hs.inMemory hinode).kind]
    cases inode.type <;> cases type <;> simp [InodeType.kind]
  constructor
  · intro htype
    unfold LFS.typeAt at htype
    split at htype
    · rename_i i name parent s' hwalk
      refine ⟨h.2.1, i, hs.leads_of_resolve h ?_, ?_⟩
      · rcases hv.walkPath_spec path with ⟨_, w, e, hwalk', hi, _⟩ | ⟨_, herror⟩
        · rw [hwalk] at hwalk'
          cases hwalk'
          exact hi.symm
        · rw [hwalk] at herror
          cases herror
      · split at htype
        · rename_i inode hinode
          exact (hread hinode).mp htype
        · cases htype
    · cases htype
  · rintro ⟨_, i, hi, hkind⟩
    obtain ⟨p, hleads⟩ := hs.leadsTo h hi
    obtain ⟨parentInode, s', hwalk⟩ := hleads.walkPath hs hv
    obtain ⟨inode, hlive⟩ := hv.live i (hleads.live hs)
    have hinode := getInode_ok hs.inMemory hlive.inodeOf
    unfold LFS.typeAt
    rw [hwalk]
    simp only [hinode]
    exact (hread hinode).mpr hkind

/-! ## The operations -/

/-- A path that is about to be entered leads nowhere yet. -/
theorem Consistent.new_path (hs : Consistent s g) (h : Plain path)
    (hp : g.Leads ROOT_INODE (dirNames path) p) (hfresh : ∀ e ∈ g.children p, e.1 ≠ baseName path)
    (k : NodeKind) : names path ∉ g.pathsTo ROOT_INODE k := by
  rintro ⟨_, i, hi, _⟩
  rw [h.names_eq, LinkGraph.leads_snoc] at hi
  obtain ⟨q, hq, hmem⟩ := hi
  obtain rfl := hq.unique hs.wellLinked hp
  exact hfresh _ hmem rfl

/-- The tree has got the path `path` to a node of kind `k`, and is otherwise as it was. -/
structure Gained (g g' : LinkGraph Inum Str) (path : Str) (k : NodeKind) : Prop where
  fresh : ∀ k', names path ∉ g.pathsTo ROOT_INODE k'
  added : g'.pathsTo ROOT_INODE k = insert (names path) (g.pathsTo ROOT_INODE k)
  others : ∀ k', k' ≠ k → g'.pathsTo ROOT_INODE k' = g.pathsTo ROOT_INODE k'

/-- A successful creation adds its path and no other. -/
theorem Consistent.create_gains (hs : Consistent s g) (hv : Valid s) (h : Plain path)
    {isFile : Bool} {pick : Nat} (hrun : s.create path isFile pick = .ok (0, t)) :
    ∃ g', Consistent t g' ∧ Gained g g' path (if isFile then .file else .dir) := by
  rcases create_cases hrun with ⟨hrc, _⟩ | ⟨_, s', p, i, parentInode, name, k, size, entries,
    hplan, rfl⟩
  · cases hrc
  · obtain ⟨rfl, hp⟩ := hs.walk_leads hv h hplan.walk
    obtain ⟨e, rfl⟩ := hplan.frame
    obtain ⟨addrs, blocks, henter⟩ := hs.entering h.unmarked hplan.walk hplan.slot
    have hfree := hs.represents.kind_none_iff.mpr hplan.free
    have hcheckpoint := hs.represents.checkpoint
    have hnew := hs.new_path h hp henter.fresh
    cases isFile with
    | true =>
      rw [createWrites_file]
      refine ⟨g.addFile p (baseName path) i,
        henter.file hs hfree (settled (hcheckpoint.append _) _) rfl rfl hs.inMemory, hnew, ?_, ?_⟩
      · rw [h.names_eq]
        exact (LinkGraph.pathsTo_addFile hs.wellLinked henter.parent.kind hp hfree).1
      · intro k' hk'
        cases k' with
        | file => exact absurd rfl hk'
        | dir => exact (LinkGraph.pathsTo_addFile hs.wellLinked henter.parent.kind hp hfree).2
    | false =>
      rw [createWrites_dir]
      refine ⟨g.addDir p (baseName path) i,
        henter.dir hs hfree (settled (hcheckpoint.append _) _) rfl rfl hs.inMemory, hnew, ?_, ?_⟩
      · rw [h.names_eq]
        exact (LinkGraph.pathsTo_addDir hs.wellLinked henter.parent.kind hp hfree).2
      · intro k' hk'
        cases k' with
        | file => exact (LinkGraph.pathsTo_addDir hs.wellLinked henter.parent.kind hp hfree).1
        | dir => exact absurd rfl hk'

/-- So does a successful link. -/
theorem Consistent.link_gains (hs : Consistent s g) (hv : Valid s) {srcpath : Str} (h : Plain path)
    (hrun : s.fileLink srcpath path = .ok (0, t)) :
    ∃ g', Consistent t g' ∧ Gained g g' path .file := by
  rcases fileLink_cases hrun with ⟨hrc, _⟩ | ⟨_, s', i, p, inode, parentInode, name, k, size,
    entries, hplan, rfl⟩
  · cases hrc
  · obtain ⟨w, s₁, hsrc, hi, hdst⟩ := hplan.src
    obtain ⟨e, rfl⟩ := walkPath_frame hsrc
    obtain ⟨rfl, hp⟩ := (hs.errors e).walk_leads (hv.errors e) h hdst
    have hwalk := hdst
    obtain ⟨e', rfl⟩ := walkPath_frame hdst
    obtain ⟨addrs, blocks, henter⟩ := (hs.errors e).entering h.unmarked hwalk hplan.slot
    have hkind : g.kind i = some .file := by
      rw [(hs.represents.inodeAt hs.inMemory hplan.read).kind, kind_eq_file.mpr hplan.type]
    have hpaths := @LinkGraph.pathsTo_addLink _ _ g _ _ p i (baseName path) _ _ hs.wellLinked
      henter.parent.kind hp hkind
    rw [linkWrites_eq]
    refine ⟨g.addLink p (baseName path) i, henter.link (hs.errors e) hplan.read hplan.type
      (settled (hs.represents.checkpoint.append _) _) rfl rfl hs.inMemory,
      hs.new_path h hp henter.fresh, ?_, ?_⟩
    · rw [h.names_eq]
      exact hpaths.1
    · intro k' hk'
      cases k' with
      | file => exact absurd rfl hk'
      | dir => exact hpaths.2

/-- The tree has lost the path `path` to a file, and is otherwise as it was. -/
structure Lost (g g' : LinkGraph Inum Str) (path : Str) : Prop where
  removed : names path ∈ g.pathsTo ROOT_INODE .file
  files : g'.pathsTo ROOT_INODE .file = g.pathsTo ROOT_INODE .file \ {names path}
  dirs : g'.pathsTo ROOT_INODE .dir = g.pathsTo ROOT_INODE .dir

/-- A successful deletion takes its path away and no other. -/
theorem Consistent.delete_loses (hs : Consistent s g) (hv : Valid s) (h : Plain path)
    (hrun : s.fileDelete path = .ok (0, t)) : ∃ g', Consistent t g' ∧ Lost g g' path := by
  rcases hs.delete_unlinks hrun with ⟨hrc, _⟩ | ⟨_, i, p, parentInode, name, s', hwalk, hkind, rest,
    hrest, ht⟩
  · cases hrc
  · obtain ⟨rfl, hp⟩ := (hs.errors []).walk_leads (hv.errors []) h hwalk
    obtain ⟨hfiles, hdirs⟩ := LinkGraph.pathsTo_unlink hs.wellLinked hkind hp hrest
    rw [← h.names_eq] at hfiles
    refine ⟨_, ht, ⟨h.2.1, i, ?_, hkind⟩, hfiles, hdirs⟩
    rw [h.names_eq]
    exact .entry hp (by simp [hrest])

end Tree

end OsLab.Lfs
