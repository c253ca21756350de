import OsLab.Lfs.Consistency

/-!
# Names are kept

A path that was entered leads to its inode number until the entry is removed, in runs that enter no
marker as a name: the walk goes through directories, which no operation removes.

* **`LeadsTo`**, **`LeadsTo.walkPath`** -- what a path leads to in the graph is what the walk finds.
* **`LeadsTo.keep`** -- a change of the graph that does not lose the entry keeps the way to it.
* **`Op.Enters`**, **`Op.Gives`** -- the path that an operation enters, and the number that it gives
  to it.
* **`unmarkedRuns`**, **`keepingRuns`** -- the runs that enter no marker, and those that do not
  remove the entry.
* **`entered_kept`**, **`marker_overwritten`** -- the path is found in all of these, and how a file
  called `-` is lost.
-/

namespace OsLab.Lfs

open LFS

section Walking

variable {s t : LFS} {g : LinkGraph Inum Str} {d i j p : Inum} {name path : Str}

/-- The entry that a lookup finds is the one of the graph, its dots included. -/
theorem Consistent.entry_iff (h : Consistent s g) :
    s.entry d name = some j ↔ g.Resolves dotName dotDotName d name j := by
  constructor
  · intro hentry
    obtain ⟨e, hfound, he⟩ := Option.bind_eq_some_iff.mp hentry
    have hmem := List.mem_of_find?_eq_some hfound
    have hname : e.1 = name := by simpa using List.find?_some hfound
    obtain rfl : e = (name, some j) := Prod.ext hname he
    have hd : g.kind d = some .dir := by
      by_contra hd
      rw [h.represents.slots_other hd] at hmem
      cases hmem
    exact ⟨hd, (h.represents.slots_dir hd).cases_of_mem hmem⟩
  · intro hres
    have hslots := h.represents.slots_dir hres.dir
    have hmem : (name, some j) ∈ s.slots d := by
      rcases hres.entry with ⟨rfl, rfl⟩ | ⟨rfl, rfl⟩ | hchild
      · obtain ⟨slots, hshape, _⟩ := hslots.shape
        simp [hshape]
      · obtain ⟨slots, hshape, _⟩ := hslots.shape
        simp [hshape]
      · exact (hslots.mem_of_children hchild).1
    unfold LFS.entry
    cases hfound : (s.slots d).find? (·.1 = name) with
    | none =>
      rw [List.find?_eq_none] at hfound
      exact absurd (decide_eq_true rfl) (hfound _ hmem)
    | some e =>
      have hname : e.1 = name := by simpa using List.find?_some hfound
      have hmem' := List.mem_of_find?_eq_some hfound
      -- the first slot of that name is occupied, and names are distinct
      have hmarker : name ≠ marker := fun hmarker => by
        have hnone := (h.free_iff hmem).mpr hmarker
        cases hnone
      obtain ⟨k, hk⟩ := hslots.exists_inum hmem' (hname ▸ hmarker)
      obtain rfl : e = (name, some k) := Prod.ext hname hk
      have hin : ∀ {x : Inum}, (name, some x) ∈ s.slots d → (name, x) ∈ s.dirEntries d :=
        fun hx => List.mem_filterMap.mpr ⟨_, hx, rfl⟩
      have hnodup := h.represents.lists.nodup h.wellLinked d
      have heq := List.inj_on_of_nodup_map hnodup (hin hmem') (hin hmem) rfl
      exact congrArg (fun e : Str × Inum => some e.2) heq

/-- Names lead where the graph says. -/
theorem Consistent.follow_iff (h : Consistent s g) {names : List Str} :
    s.follow d names = some p ↔ g.Walks dotName dotDotName d names p := by
  induction names generalizing d with
  | nil => exact Option.some_inj
  | cons name names ih =>
    unfold LFS.follow LinkGraph.Walks
    rw [Option.bind_eq_some_iff]
    simp only [h.entry_iff, ih]

/-- A walk that ends in a directory meets directories only. -/
theorem Consistent.passable (h : Consistent s g) {names : List Str}
    (hwalk : g.Walks dotName dotDotName d names p) (hp : g.kind p = some .dir) :
    s.passable d names = true := by
  induction names generalizing d with
  | nil =>
    obtain rfl : d = p := hwalk
    exact h.represents.isDir_iff.mpr hp
  | cons name names ih =>
    obtain ⟨j, hstep, hrest⟩ := hwalk
    unfold LFS.passable
    rw [h.represents.isDir_iff.mpr hstep.dir, h.entry_iff.mpr hstep]
    exact ih hrest

/-- The path leads to number `i` through the directory `p`. -/
structure LeadsTo (g : LinkGraph Inum Str) (path : Str) (p i : Inum) : Prop where
  root : startsAtRoot path = true
  walk : g.Walks dotName dotDotName ROOT_INODE (dirNames path) p
  dir : g.kind p = some .dir
  entry : (baseName path, i) ∈ g.children p

/-- The way to an entry is kept as long as the entry is: no directory on it is removed. -/
theorem LeadsTo.keep {g' : LinkGraph Inum Str} {lost : Inum → Str × Inum → Prop}
    (h : LeadsTo g path p i) (hkeeps : g.Keeps g' lost) (hlost : ¬ lost p (baseName path, i)) :
    LeadsTo g' path p i where
  root := h.root
  walk := h.walk.keep h.dir hkeeps
  dir := (hkeeps.dir p h.dir).1
  entry := (hkeeps.entry p _ h.entry).resolve_right hlost

/-- The walk finds what the graph says. -/
theorem LeadsTo.walkPath (h : LeadsTo g path p i) (hs : Consistent s g) (hv : Valid s) :
    ∃ parentInode s', s.walkPath path =
      .ok (⟨some i, baseName path, some (p, parentInode)⟩, s') := by
  have hfollow := hs.follow_iff.mpr h.walk
  have hparent : s.parentOf path = some p := by
    unfold LFS.parentOf
    rw [if_pos h.root, hfollow]
  have hresolve : s.resolve path = some i := by
    unfold LFS.resolve
    rw [hparent]
    exact hs.entry_iff.mpr ⟨h.dir, Or.inr (Or.inr h.entry)⟩
  have hpasses : s.passes path = true := by
    unfold LFS.passes
    rw [h.root, hs.passable h.walk h.dir]
    rfl
  rcases hv.walkPath_spec path with ⟨_, ⟨found, name, parent⟩, e, hwalk, hi, hp⟩ | ⟨hfalse, _⟩
  · obtain rfl : found = some i := hi.trans hresolve
    cases parent with
    | none =>
      rw [hparent] at hp
      cases hp
    | some parent =>
      obtain ⟨q, parentInode⟩ := parent
      obtain rfl : q = p := Option.some.inj (hp.trans hparent)
      obtain ⟨_, _, _, hlast⟩ := walkPath_parent hwalk
      have hname : baseName path = name := by
        unfold baseName
        rw [List.getLastD_eq_getLast?, hlast]
        rfl
      exact ⟨parentInode, _, hname ▸ hwalk⟩
  · rw [hpasses] at hfalse
    cases hfalse

/-- What has been entered is found. -/
theorem Entered.leadsTo (h : Entered s t g path i) (hs : Consistent s g) (hv : Valid s) :
    ∃ g' p, Consistent t g' ∧ LeadsTo g' path p i := by
  obtain ⟨g', p, parentInode, name, s', hwalk, ht, hkeeps, hmem⟩ := h.graph
  obtain ⟨hread, htype, _, hlast⟩ := walkPath_parent hwalk
  obtain ⟨addrs, blocks, hdir⟩ := hs.dirAt hread htype
  have hname : baseName path = name := by
    unfold baseName
    rw [List.getLastD_eq_getLast?, hlast]
    rfl
  have hparent : s.parentOf path = some p := by
    rcases hv.walkPath_spec path with ⟨_, w, e, hwalk', _, hp⟩ | ⟨_, herror⟩
    · rw [hwalk] at hwalk'
      cases hwalk'
      exact hp.symm
    · rw [hwalk] at herror
      cases herror
  unfold LFS.parentOf at hparent
  split at hparent
  · rename_i hroot
    have hbefore := hs.follow_iff.mp hparent
    exact ⟨g', p, ht, hroot, hbefore.keep hdir.kind hkeeps, (hkeeps.dir p hdir.kind).1,
      hname ▸ hmem⟩
  · cases hparent

end Walking

/-! ## Runs -/

/-- The operation enters `path`. -/
def Op.Enters (path : Str) : Op → Prop
  | .fileCreate newPath _ => newPath = path
  | .dirCreate newPath _ => newPath = path
  | .fileLink _ dstpath => dstpath = path
  | _ => False

/-- The number that an operation from `s` to `t` enters: one it takes into use, or the source's. -/
def Op.Gives (s t : LFS) (i : Inum) : Op → Prop
  | .fileCreate _ _ => s.inodeMap i = none ∧ t.inodeMap i ≠ none
  | .dirCreate _ _ => s.inodeMap i = none ∧ t.inodeMap i ≠ none
  | .fileLink srcpath _ => ∃ w s', s.errorClear.walkPath srcpath = .ok (w, s') ∧
      w.inodeNumber = some i
  | _ => False

/-- The directory and the inode number that `__walk_path` finds. -/
def LFS.finds (s : LFS) (path : Str) : Option (Inum × Inum) :=
  match s.walkPath path with
  | .ok (⟨some i, _, some (p, _)⟩, _) => some (p, i)
  | _ => none

/-- The runs that enter no marker. -/
def unmarkedRuns (noForceCheckpoints : Bool) (inodePolicy : InodePolicy) : Lts LFS (Op × Int) :=
  (fileSystem false noForceCheckpoints inodePolicy).restrict fun _ a => a.1.Unmarked a.2

/-- The runs that do not remove the entry `name` of `p`. -/
def keepingRuns (noForceCheckpoints : Bool) (inodePolicy : InodePolicy) (p : Inum)
    (e : Str × Inum) : Lts LFS (Op × Int) :=
  (unmarkedRuns noForceCheckpoints inodePolicy).restrict fun s a => ¬ a.1.Removes s a.2 p e

section Runs

variable {s t u : LFS} {g : LinkGraph Inum Str} {op : Op} {path : Str} {p i : Inum}
  {noForceCheckpoints : Bool} {inodePolicy : InodePolicy} {as : List (Op × Int)}

/-- The tree of a state, in which the path leads to `i`. -/
structure Tracks (s : LFS) (path : Str) (p i : Inum) : Prop where
  valid : Valid s
  graph : ∃ g, Consistent s g ∧ LeadsTo g path p i

theorem Tracks.finds (h : Tracks s path p i) : s.finds path = some (p, i) := by
  obtain ⟨g, hs, hleads⟩ := h.graph
  obtain ⟨parentInode, s', hwalk⟩ := hleads.walkPath hs h.valid
  unfold LFS.finds
  rw [hwalk]

/-- A step of a run that does not remove the entry keeps the way to it. -/
theorem Tracks.step {a : Op × Int} (h : Tracks s path p i)
    (hstep : (keepingRuns noForceCheckpoints inodePolicy p (baseName path, i)).step s a t) :
    Tracks t path p i := by
  obtain ⟨g, hs, hleads⟩ := h.graph
  obtain ⟨hkept, hop, hnext⟩ := hstep
  have hrun := next_eq_some.mp hnext
  obtain ⟨g', ht, hkeeps⟩ := hs.run hop hrun
  exact ⟨h.valid.run hrun, g', ht, hleads.keep hkeeps hkept⟩

/-- States of runs that enter no marker are consistent. -/
theorem unmarked_reachable (h : (unmarkedRuns noForceCheckpoints inodePolicy).Reachable s) :
    Valid s ∧ ∃ g, Consistent s g := by
  refine ⟨valid_reachable h.of_restrict, ?_⟩
  refine h.invariant (I := fun s => ∃ g, Consistent s g) ?_ ?_
  · rintro _ rfl
    exact ⟨_, consistent_new noForceCheckpoints inodePolicy⟩
  · rintro s a t ⟨g, hs⟩ ⟨hop, hstep⟩
    obtain ⟨g', ht, _⟩ := hs.run hop (next_eq_some.mp hstep)
    exact ⟨g', ht⟩

/-- The number a path leads to is in use. -/
theorem LeadsTo.live (h : LeadsTo g path p i) (hs : Consistent s g) : s.inodeMap i ≠ none :=
  fun hfree => hs.wellLinked.target p _ h.entry (hs.represents.kind_none_iff.mpr hfree)

/-- A successful operation that enters a path gives it a number, and the path leads to it. -/
theorem Consistent.tracks (hs : Consistent s g) (hv : Valid s) (hop : op.Enters path)
    (hname : op.Unmarked 0) (hrun : op.run s = .ok (0, t)) :
    ∃ i p, op.Gives s t i ∧ Tracks t path p i := by
  have ht := hv.run hrun
  cases op with
  | fileCreate newPath pick =>
    obtain rfl : newPath = path := hop
    rcases (hs.errors []).create hrun with ⟨hrc, _⟩ | ⟨_, hent⟩
    · cases hrc
    · obtain ⟨i, hfree, hent⟩ := hent (hname rfl)
      obtain ⟨g', p, ht', hleads⟩ := hent.leadsTo (hs.errors []) (hv.errors [])
      exact ⟨i, p, ⟨hfree, hleads.live ht'⟩, ht, g', ht', hleads⟩
  | dirCreate newPath pick =>
    obtain rfl : newPath = path := hop
    rcases (hs.errors []).create hrun with ⟨hrc, _⟩ | ⟨_, hent⟩
    · cases hrc
    · obtain ⟨i, hfree, hent⟩ := hent (hname rfl)
      obtain ⟨g', p, ht', hleads⟩ := hent.leadsTo (hs.errors []) (hv.errors [])
      exact ⟨i, p, ⟨hfree, hleads.live ht'⟩, ht, g', ht', hleads⟩
  | fileLink srcpath dstpath =>
    obtain rfl : dstpath = path := hop
    rcases hs.link hrun with ⟨hrc, _⟩ | ⟨_, hent⟩
    · cases hrc
    · obtain ⟨i, w, s₁, hsrc, hi, hent⟩ := hent (hname rfl)
      obtain ⟨e, rfl⟩ := walkPath_frame hsrc
      obtain ⟨g', p, ht', hleads⟩ := hent.leadsTo (hs.errors e) (hv.errors e)
      exact ⟨i, p, ⟨w, _, hsrc, hi⟩, ht, g', ht', hleads⟩
  | fileWrite newPath offset numBlks draw => exact hop.elim
  | fileDelete newPath => exact hop.elim
  | sync => exact hop.elim

/-- **Names are kept.** A path that a successful operation enters leads to the number it was given
until its entry is removed, in every run that enters no marker. -/
theorem entered_kept (hs : (unmarkedRuns noForceCheckpoints inodePolicy).Reachable s)
    (hop : op.Enters path) (hstep : (unmarkedRuns noForceCheckpoints inodePolicy).step s (op, 0) t) :
    ∃ i p, op.Gives s t i ∧ t.finds path = some (p, i) ∧ ∀ as u,
      (keepingRuns noForceCheckpoints inodePolicy p (baseName path, i)).Run t as u →
        u.finds path = some (p, i) := by
  obtain ⟨hv, g, hg⟩ := unmarked_reachable hs
  obtain ⟨i, p, hgives, htracks⟩ := hg.tracks hv hop hstep.1 (next_eq_some.mp hstep.2)
  refine ⟨i, p, hgives, htracks.finds, fun as u hrun => ?_⟩
  have hend : Tracks u path p i :=
    hrun.invariant (fun _ _ _ h hstep => Tracks.step h hstep) htracks
  exact hend.finds

theorem entered_kept_create :
    ∃ t i p, (Op.fileCreate ['/', 'a'] 0).Gives (LFS.new false false .sequential) t i ∧
      t.finds ['/', 'a'] = some (p, i) ∧ ∀ as u,
        (keepingRuns false .sequential p (baseName ['/', 'a'], i)).Run t as u →
          u.finds ['/', 'a'] = some (p, i) := by
  have hsome : (next (LFS.new false false .sequential) (.fileCreate ['/', 'a'] 0, 0)).isSome =
      true := by decide +kernel
  obtain ⟨t, ht⟩ := Option.isSome_iff_exists.mp hsome
  have hstep : (unmarkedRuns false .sequential).step (LFS.new false false .sequential)
      (.fileCreate ['/', 'a'] 0, 0) t := by
    refine ⟨fun _ => ?_, ht⟩
    show Lfs.Unmarked ['/', 'a']
    decide
  exact ⟨t, entered_kept (Lts.Reachable.of_init rfl) rfl hstep⟩

/-- The slot of the name `-` counts as free, so the next entry takes it. -/
theorem marker_overwritten :
    ∃ t u, (fileSystem false false .sequential).Run (LFS.new false false .sequential)
        [(.fileCreate ['/', '-'] 0, 0)] t ∧
      t.finds ['/', '-'] = some (ROOT_INODE, ⟨1, by decide⟩) ∧
      (fileSystem false false .sequential).Run t [(.fileCreate ['/', 'x'] 0, 0)] u ∧
      u.finds ['/', '-'] = none := by
  have hrun : ([(Op.fileCreate ['/', '-'] 0, (0 : Int))].foldlM next
      (LFS.new false false .sequential)).any (fun t =>
        t.finds ['/', '-'] = some (ROOT_INODE, ⟨1, by decide⟩) ∧
          ([(Op.fileCreate ['/', 'x'] 0, (0 : Int))].foldlM next t).any fun u =>
            u.finds ['/', '-'] = none) = true := by decide +kernel
  rw [Option.any_eq_true] at hrun
  obtain ⟨t, ht, hfound⟩ := hrun
  obtain ⟨hfirst, hnext⟩ := of_decide_eq_true hfound
  rw [Option.any_eq_true] at hnext
  obtain ⟨u, hu, hlost⟩ := hnext
  exact ⟨t, u, Lts.run_ofFun.mpr ht, hfirst, Lts.run_ofFun.mpr hu, of_decide_eq_true hlost⟩

end Runs

end OsLab.Lfs
