import OsLab.Vsfs.Steps

/-!
# The summary of files and directories

`run` can print `files` and `dirs` at the end. The two lists are the tree: every path to a file is
in `files` once and every path to a directory is in `dirs` once, and there is nothing else in them.
Names `.` and `..` lead back and are not part of a path.

* **`Listed`** -- each entry of a listed directory is listed, the one half that `Paths` does not
  have.
* **`Listed.run`**, **`listed_reachable`** -- an operation keeps it, so it holds in every reachable
  state.
* **`Store.Leads`** -- a path of plain names that leads to an inode of a type.
* **`listed_of_walk`**, **`summary_exact`** -- what a path leads to is listed, and the other way
  round.
-/

namespace OsLab.Vsfs

variable {s t : Fs} {g g' : LinkGraph Nat Str} {p q n : Str} {i j d b : Nat} {inode : Inode}
  {block : Block} {cs : List Str}

/-! ## Every entry is listed -/

/-- Each entry of a listed directory is listed. -/
structure Listed (s : Fs) (g : LinkGraph Nat Str) : Prop where
  dirs_nodup : s.dirs.Nodup
  entry : ∀ q ∈ s.dirs, ∀ j, s.nameToInum q = some j → ∀ e ∈ g.children j,
    ValidName e.1 ∧ (Fs.fullName q e.1 ∈ s.files ∨ Fs.fullName q e.1 ∈ s.dirs)

theorem fresh_listed (numInodes numData : Nat) : Listed (fresh numInodes numData) rootGraph where
  dirs_nodup := List.nodup_singleton _
  entry _ _ _ _ _ he := absurd he (Multiset.notMem_zero _)

/-- A new entry, listed with what was listed before. -/
theorem Listed.enter (h : Listed s g) (hpaths : Paths s g) (hq : q ∈ s.dirs)
    (hname : s.nameToInum q = some d) (hn : ValidName n)
    (hdirs : t.dirs.Nodup) (hsubd : s.dirs ⊆ t.dirs) (hsubf : s.files ⊆ t.files)
    (hnew : Fs.fullName q n ∈ t.files ∨ Fs.fullName q n ∈ t.dirs)
    (hold : ∀ q' ∈ t.dirs, ∀ j, t.nameToInum q' = some j →
      q' ∈ s.dirs ∧ s.nameToInum q' = some j ∨ g'.children j = 0)
    (hchildren : g'.children = g.enter d n i) : Listed t g' where
  dirs_nodup := hdirs
  entry q' hq' j hj e he := by
    rcases hold q' hq' j hj with ⟨hq'', hj'⟩ | hnone
    · rw [hchildren, LinkGraph.mem_enter] at he
      rcases he with ⟨rfl, rfl⟩ | he
      · obtain rfl : q' = q := hpaths.inj q' hq'' q hq (hj'.trans hname.symm)
        exact ⟨hn, hnew⟩
      · obtain ⟨hvalid, hlisted⟩ := h.entry q' hq'' j hj' e he
        exact ⟨hvalid, hlisted.imp (@hsubf _) (@hsubd _)⟩
    · rw [hnone] at he
      exact absurd he (Multiset.notMem_zero _)

theorem learn_old {r : Str} (hr : r ∉ s.dirs) (hq : q ∈ s.dirs)
    (hj : (Paths.learn s r i).nameToInum q = some j) : s.nameToInum q = some j := by
  rwa [Paths.learn_of_ne (ne_of_mem_of_not_mem hq hr)] at hj

/-- A new file is listed under its name. -/
theorem Listed.createdFile (h : Listed s g) (hs : Consistent s g)
    (hdir : IsDir s g q d inode b block) (hq : q ∈ s.dirs) (hn : ValidName n)
    (hcan : CanEnter block n) :
    Listed (newFile (createdFile s i b block n) (Fs.fullName q n) i) (g.addFile d n i) := by
  have hnew := hs.paths.not_mem_dirs hq hn hdir.name (hcan.names_ne hdir)
  refine h.enter hs.paths hq hdir.name hn h.dirs_nodup (List.Subset.refl _) ?_ ?_ ?_ rfl
  · exact List.subset_append_left _ _
  · exact Or.inl mem_newFile
  · intro q' hq' j hj
    exact Or.inl ⟨hq', learn_old hnew hq' hj⟩

/-- So is a new name of a file. -/
theorem Listed.linked (h : Listed s g) (hs : Consistent s g)
    (hdir : IsDir s g q d inode b block) (hq : q ∈ s.dirs) (hn : ValidName n)
    (hcan : CanEnter block n) (tinode : Inode) :
    Listed (newFile (linked s i tinode b block n) (Fs.fullName q n) i) (g.addLink d n i) := by
  have hnew := hs.paths.not_mem_dirs hq hn hdir.name (hcan.names_ne hdir)
  refine h.enter hs.paths hq hdir.name hn h.dirs_nodup (List.Subset.refl _) ?_ ?_ ?_ rfl
  · exact List.subset_append_left _ _
  · exact Or.inl mem_newFile
  · intro q' hq' j hj
    exact Or.inl ⟨hq', learn_old hnew hq' hj⟩

/-- So is a new directory, which is empty. -/
theorem Listed.createdDir (h : Listed s g) (hs : Consistent s g)
    (hdir : IsDir s g q d inode b block) (hq : q ∈ s.dirs) (hn : ValidName n)
    (hcan : CanEnter block n) (hunused : ¬ s.InodeUsed i) (fb : Nat) (fblock : Block) :
    Listed (newDir (createdDir s i fb fblock d inode b block n) (Fs.fullName q n) i)
      (g.addDir d n i) := by
  have hnew := hs.paths.not_mem_dirs hq hn hdir.name (hcan.names_ne hdir)
  have hself : Fs.fullName q n ∈ s.dirs ++ [Fs.fullName q n] :=
    List.mem_append_right _ (List.mem_singleton_self _)
  have hkind := hs.represents.kind_none hunused
  refine h.enter hs.paths hq hdir.name hn ?_ ?_ (List.Subset.refl _) ?_ ?_ rfl
  · exact List.nodup_append.mpr ⟨h.dirs_nodup, List.nodup_singleton _, fun a ha c hc =>
      List.mem_singleton.mp hc ▸ ne_of_mem_of_not_mem ha hnew⟩
  · exact List.subset_append_left _ _
  · exact Or.inr hself
  · intro q' hq' j hj
    rcases List.mem_append.mp hq' with hold | hlast
    · exact Or.inl ⟨hold, learn_old hnew hold hj⟩
    · -- the new directory is empty
      obtain rfl := List.mem_singleton.mp hlast
      have hji : i = j := by
        have hself' : (Paths.learn s (Fs.fullName q n) i).nameToInum (Fs.fullName q n) = some i :=
          Function.update_self ..
        exact Option.some.inj (hself'.symm.trans hj)
      subst hji
      right
      show g.enter d n i i = 0
      rw [LinkGraph.enter, Function.update_of_ne (hdir.ne_of_unused hs.represents hunused)]
      exact hs.wellLinked.source i (by simp [hkind])

/-- The entry that goes was the only one of its name. -/
theorem Listed.deleted (h : Listed s g) (hs : Consistent s g) {v : Store} (hq : q ∈ s.dirs)
    (hn : ValidName n) (hj : s.nameToInum q = some j) {rest : Multiset (Str × Nat)}
    (hrest : g.children j = (n, i) ::ₘ rest) :
    Listed (deleted s v b block (Fs.fullName q n) n) (g.unlink j i rest) where
  dirs_nodup := h.dirs_nodup
  entry q' hq' k hk e he := by
    have hin : e ∈ g.children k ∧ (k = j → e.1 ≠ n) := by
      by_cases hkj : k = j
      · subst hkj
        have hmem : e ∈ rest := by simpa [LinkGraph.unlink] using he
        have hnames := hs.wellLinked.names k
        rw [hrest, Multiset.map_cons, Multiset.nodup_cons] at hnames
        refine ⟨hrest ▸ Multiset.mem_cons_of_mem hmem, fun _ heq => hnames.1 ?_⟩
        exact Multiset.mem_map.mpr ⟨e, hmem, heq⟩
      · refine ⟨?_, fun heq => absurd heq hkj⟩
        simpa [LinkGraph.unlink, hkj] using he
    obtain ⟨hvalid, hlisted⟩ := h.entry q' hq' k hk e hin.1
    refine ⟨hvalid, hlisted.imp_left fun hfile => ?_⟩
    refine hs.paths.files_nodup.mem_erase_iff.mpr ⟨fun heq => ?_, hfile⟩
    obtain ⟨rfl, hen⟩ := hs.paths.fullName_inj hq' hq hvalid hn heq
    exact hin.2 (Option.some.inj (hk.symm.trans hj)) hen

/-- An operation keeps the lists complete. -/
theorem Listed.run {op : Op} {rc : Int} (h : Listed s g) (hs : Consistent s g)
    (hran : Ran s g op rc t g') : Listed t g' := by
  cases hran with
  | failed => exact h
  | creat hq hn hdir hcan _ _ => exact h.createdFile hs hdir hq hn hcan
  | mkdir hq hn hdir hcan _ hunused _ _ => exact h.createdDir hs hdir hq hn hcan hunused _ _
  | link hq hn hdir hcan _ _ => exact h.linked hs hdir hq hn hcan _
  | unlink hq hn hname _ _ _ _ hrest _ => exact h.deleted hs hq hn hname hrest
  | append _ _ _ _ _ _ => exact ⟨h.dirs_nodup, h.entry⟩

theorem listed_reachable {numInodes numData : Nat} (h : (workload numInodes numData).Reachable s) :
    ∃ g, Consistent s g ∧ Listed s g :=
  ran_invariant (fresh_listed numInodes numData) (fun _ _ _ _ _ _ hs hl hran => hl.run hs hran) h

/-! ## The paths of the tree -/

/-- A name of a file or directory: neither `.` nor `..`. -/
def PlainName (n : Str) : Prop := ValidName n ∧ n ≠ dotName ∧ n ≠ dotDotName

/-- The path `p`, with no `.` or `..` in it, leads to an inode of the given type. -/
def Store.Leads (v : Store) (ftype : FType) (p : Str) : Prop :=
  ∃ cs i inode, (∀ c ∈ cs, PlainName c) ∧ p = dirPath cs ∧ v.walk ROOT cs = some i ∧
    v.inodes[i]? = some inode ∧ inode.ftype = ftype

section Tree

theorem child_plain (h : Consistent s g) {e : Str × Nat} (he : e ∈ g.children j) :
    e.1 ≠ dotName ∧ e.1 ≠ dotDotName := by
  obtain ⟨kids, _, hchildren, hkids⟩ := (lists h.represents).dir j (h.wellLinked.dir_of_mem he)
  rw [hchildren] at he
  exact hkids e he

/-- An entry that a name other than `.` and `..` finds is a child. -/
theorem mem_children (h : Consistent s g) {c : Str} (hc : PlainName c)
    (hfind : (s.dirEntries j).lookup c = some i) : (c, i) ∈ g.children j := by
  have hmem : (c, i) ∈ s.dirEntries j := by
    obtain ⟨l, r, heq, _⟩ := List.lookup_eq_some_iff.mp hfind
    simp [heq]
  have hkind := (lists h.represents).mem_dir hmem
  obtain ⟨kids, hlist, hchildren, _⟩ := (lists h.represents).dir j hkind
  rw [hlist] at hmem
  have hkid : (c, i) ∈ kids := by simpa [hc.2] using hmem
  rw [hchildren]
  exact hkid

theorem forall_snoc {P : Str → Prop} {c : Str} (hcs : ∀ c ∈ cs, P c) (hc : P c) :
    ∀ x ∈ cs ++ [c], P x := by
  intro x hx
  rcases List.mem_append.mp hx with hx | hx
  · exact hcs x hx
  · exact List.mem_singleton.mp hx ▸ hc

/-- The names along a listed directory's path are plain. -/
theorem dirs_plain (h : Consistent s g) (hcs : ∀ c ∈ cs, ValidName c) (hp : dirPath cs ∈ s.dirs) :
    ∀ c ∈ cs, PlainName c := by
  -- induction on the last name, which is entered in the directory without it
  induction cs using List.reverseRecOn with
  | nil => simp
  | append_singleton cs c ih =>
    rw [List.forall_mem_append] at hcs
    obtain ⟨hcs, hc⟩ := hcs
    have hc' : ValidName c := by simpa using hc
    obtain ⟨i, _, _, hroot | ⟨q, n, j, hq, hn, heq, _, hmem⟩⟩ := h.paths.dirs _ hp
    · rw [dirPath_append] at hroot
      exact absurd hroot (render_ne_slash (validName_snoc hcs hc'))
    · obtain ⟨ds, hds, rfl⟩ := h.paths.form q hq
      have hfull : Fs.fullName (dirPath cs) c = Fs.fullName (dirPath ds) n := by
        rw [← heq, fullName_dirPath hcs, dirPath_append]
      obtain ⟨rfl, rfl⟩ := fullName_inj hcs hds hc' hn hfull
      exact forall_snoc (ih hcs hq) ⟨hc', child_plain h hmem⟩

/-- A path that leads somewhere is listed, and cached as what it leads to; by induction on the path
from its end. -/
theorem listed_of_walk (h : Consistent s g) (hl : Listed s g) (hcs : ∀ c ∈ cs, PlainName c)
    (hwalk : s.walk ROOT cs = some i) :
    s.nameToInum (dirPath cs) = some i ∧ (dirPath cs ∈ s.files ∨ dirPath cs ∈ s.dirs) := by
  induction cs using List.reverseRecOn generalizing i with
  | nil =>
    obtain rfl : ROOT = i := Option.some.inj hwalk
    exact ⟨h.paths.root_name, Or.inr h.paths.root_mem⟩
  | append_singleton cs c ih =>
    rw [List.forall_mem_append] at hcs
    obtain ⟨hcs, hc⟩ := hcs
    have hc' : PlainName c := by simpa using hc
    rw [walk_append, Option.bind_eq_bind, Option.bind_eq_some_iff] at hwalk
    obtain ⟨j, hj, hfind⟩ := hwalk
    obtain ⟨hname, hlisted⟩ := ih hcs hj
    have hmem := mem_children h hc' hfind
    have hvalid : ∀ c ∈ cs, ValidName c := fun c hc => (hcs c hc).1
    -- what has entries is no file
    have hdir : dirPath cs ∈ s.dirs := by
      refine hlisted.resolve_left fun hfile => ?_
      obtain ⟨k, hk, hkind, _⟩ := h.paths.files _ hfile
      obtain rfl : j = k := Option.some.inj (hname.symm.trans hk)
      have hdirkind := h.wellLinked.dir_of_mem hmem
      rw [hkind] at hdirkind
      cases hdirkind
    have hlast := (hl.entry _ hdir j hname (c, i) hmem).2
    simp only [fullName_dirPath hvalid, ← dirPath_append] at hlast
    refine ⟨?_, hlast⟩
    obtain ⟨k, hk, hkwalk⟩ := names_ok h hlast
    rw [components_dirPath (validName_snoc hvalid hc'.1), walk_append, hj] at hkwalk
    rw [hk, ← hkwalk, ← hfind]
    rfl

/-- A listed file is led to by its path. -/
theorem files_leads (h : Consistent s g) (hp : p ∈ s.files) : s.Leads .f p := by
  obtain ⟨i, inode, hfile, q, n, j, hq, hn, rfl, _, hmem⟩ := h.exists_isFile hp
  obtain ⟨k, hk, hwalk⟩ := names_ok h (Or.inl hp)
  obtain rfl : i = k := Option.some.inj (hfile.name.symm.trans hk)
  obtain ⟨cs, hcs, rfl⟩ := h.paths.form q hq
  rw [fullName_dirPath hcs, ← dirPath_append] at hwalk ⊢
  rw [components_dirPath (validName_snoc hcs hn)] at hwalk
  exact ⟨cs ++ [n], i, inode, forall_snoc (dirs_plain h hcs hq) ⟨hn, child_plain h hmem⟩, rfl,
    hwalk, hfile.inodes_eq, hfile.ftype⟩

theorem dirs_leads (h : Consistent s g) (hp : p ∈ s.dirs) : s.Leads .d p := by
  obtain ⟨d, inode, b, block, hdir⟩ := h.exists_isDir hp
  obtain ⟨k, hk, hwalk⟩ := names_ok h (Or.inr hp)
  obtain rfl : d = k := Option.some.inj (hdir.name.symm.trans hk)
  obtain ⟨cs, hcs, rfl⟩ := h.paths.form p hp
  rw [components_dirPath hcs] at hwalk
  have hkind := h.represents.kind d inode hdir.inodes_eq
  exact ⟨cs, d, inode, dirs_plain h hcs hp, rfl, hwalk, hdir.inodes_eq,
    kind_eq_dir.mp (hkind.symm.trans hdir.kind)⟩

end Tree

/-- **The summary is exact.** In every state that a workload reaches, it lists each path to a file
once under the files, each path to a directory once under the directories, and nothing else. -/
theorem summary_exact {numInodes numData : Nat} (h : (workload numInodes numData).Reachable s) :
    (s.files.Nodup ∧ s.dirs.Nodup) ∧
      ∀ p, (p ∈ s.files ↔ s.Leads .f p) ∧ (p ∈ s.dirs ↔ s.Leads .d p) := by
  obtain ⟨g, hs, hl⟩ := listed_reachable h
  refine ⟨⟨hs.paths.files_nodup, hl.dirs_nodup⟩, fun p => ⟨⟨files_leads hs, ?_⟩,
    ⟨dirs_leads hs, ?_⟩⟩⟩
  · rintro ⟨cs, i, inode, hcs, rfl, hwalk, hinode, htype⟩
    obtain ⟨hname, hfile | hdir⟩ := listed_of_walk hs hl hcs hwalk
    · exact hfile
    · obtain ⟨d, x, b, block, hisdir⟩ := hs.exists_isDir hdir
      obtain rfl := Option.some.inj (hname.symm.trans hisdir.name)
      have hkind := hs.represents.kind i inode hinode
      rw [hisdir.kind, htype] at hkind
      cases hkind
  · rintro ⟨cs, i, inode, hcs, rfl, hwalk, hinode, htype⟩
    obtain ⟨hname, hfile | hdir⟩ := listed_of_walk hs hl hcs hwalk
    · obtain ⟨k, x, hisfile, _⟩ := hs.exists_isFile hfile
      obtain rfl := Option.some.inj (hname.symm.trans hisfile.name)
      have hkind := hs.represents.kind i inode hinode
      rw [hisfile.kind, htype] at hkind
      cases hkind
    · exact hdir

theorem summary_exact_created :
    ∃ s, (workload 3 3).Reachable s ∧ ['/', 'd', '/', 'a'] ∈ s.files ∧
      s.Leads .f ['/', 'd', '/', 'a'] ∧ ¬ s.Leads .d ['/', 'd', '/', 'a'] := by
  obtain ⟨s₁, s, hmkdir, hcreat, hdirs₁, hdirs, hfiles⟩ :
      ∃ s₁ s, (Op.mkdir ['/'] ['d']).run (fresh 3 3) = .ok (0, s₁) ∧
        (Op.creat ['/', 'd'] ['a']).run s₁ = .ok (0, s) ∧ s₁.dirs = [['/'], ['/', 'd']] ∧
        s.dirs = [['/'], ['/', 'd']] ∧ s.files = [['/', 'd', '/', 'a']] :=
    ⟨_, _, rfl, rfl, rfl, rfl, rfl⟩
  have hroot : ['/'] ∈ (fresh 3 3).dirs := List.mem_singleton_self _
  have hinit : (workload 3 3).Reachable (fresh 3 3) :=
    Lts.Reachable.of_init (new_ok (by decide) (by decide))
  have hreach₁ := hinit.step (a := Op.mkdir ['/'] ['d'])
    ⟨⟨hroot, by decide, by decide⟩, 0, hmkdir⟩
  have hreach := hreach₁.step (a := Op.creat ['/', 'd'] ['a'])
    ⟨⟨by simp [hdirs₁], by decide, by decide⟩, 0, hcreat⟩
  have hsummary := (summary_exact hreach).2 ['/', 'd', '/', 'a']
  have hmem : ['/', 'd', '/', 'a'] ∈ s.files := by simp [hfiles]
  exact ⟨s, hreach, hmem, hsummary.1.mp hmem, fun hleads => by
    simpa [hdirs] using hsummary.2.mpr hleads⟩

end OsLab.Vsfs
