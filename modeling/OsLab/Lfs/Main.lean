import OsLab.Lfs.Paths
import OsLab.Lfs.Percentages

/-!
# The main program of the LFS simulator

The loop over the commands, with the files and directories it takes to exist. Without `.`, `..` and
the marker in the paths of the commands, the two lists are the tree.

* **`readCommand`**, **`commandsOf`** -- how the text of the commands is taken apart.
* **`Session`**, **`Session.run`**, **`sessions`** -- the loop with its two lists, as a transition
  system.
* **`Lists`**, **`Session.Listed`** -- the invariant: a list holds the plain paths of a set, each
  once, and the sets are the tree's.
* **`Session.Listed.run`**, **`reported_exact`** -- a command keeps the lists in step with the tree,
  and so does every run.
-/

namespace OsLab.Lfs

open LFS
open OsLab.Disks (intOfStr)

/-! ## Commands -/

/-- A command as the loop reads it. -/
inductive Command where
  | createFile (path : Str)
  | createDir (path : Str)
  | delete (path : Str)
  | link (srcpath dstpath : Str)
  | write (path : Str) (offset numBlks : Int)
  | sync
  | notUnderstood (command : Str)
  deriving DecidableEq

/-- How a round of the loop takes a command apart. -/
def readCommand (command : Str) : Except Abort Command := do
  let commandAndArgs := split command ','
  let cmd ← item commandAndArgs 0
  if cmd = ['c'] then
    assert (commandAndArgs.length = 2) "len(command_and_args) == 2"
    return .createFile (← item commandAndArgs 1)
  else if cmd = ['d'] then
    assert (commandAndArgs.length = 2) "len(command_and_args) == 2"
    return .createDir (← item commandAndArgs 1)
  else if cmd = ['r'] then
    assert (commandAndArgs.length = 2) "len(command_and_args) == 2"
    return .delete (← item commandAndArgs 1)
  else if cmd = ['l'] then
    assert (commandAndArgs.length = 3) "len(command_and_args) == 3"
    return .link (← item commandAndArgs 1) (← item commandAndArgs 2)
  else if cmd = ['w'] then
    assert (commandAndArgs.length = 4) "len(command_and_args) == 4"
    let path ← item commandAndArgs 1
    let offset ← intOfStr (← item commandAndArgs 2)
    let numBlks ← intOfStr (← item commandAndArgs 3)
    return .write path offset numBlks
  else if cmd = ['s'] then
    return .sync
  else
    return .notUnderstood cmd

/-- `command_list.split(':')`; an empty list has no commands. -/
def commandsOf (commandList : Str) : List Str :=
  if commandList = [] then [] else split commandList ':'

/-! ## The loop -/

/-- What the loop works on, with what it has warned of. -/
structure Session where
  lfs : LFS
  filesThatExist : List Str
  dirsThatExist : List Str
  cannotFind : List Str
  skipped : List Str

/-- One command. -/
def Session.run (m : Session) (pick : Nat) (draw : Nat → Char) : Command → Except Abort Session
  | .createFile path => do
    let (rc, lfs) ← m.lfs.fileCreate path pick
    return { m with
      lfs := lfs
      filesThatExist := if rc = 0 then m.filesThatExist ++ [path] else m.filesThatExist }
  | .createDir path => do
    let (rc, lfs) ← m.lfs.dirCreate path pick
    return { m with
      lfs := lfs
      dirsThatExist := if rc = 0 then m.dirsThatExist ++ [path] else m.dirsThatExist }
  | .delete path => do
    let (rc, lfs) ← m.lfs.fileDelete path
    if rc = 0 then
      if path ∈ m.filesThatExist then
        return { m with lfs := lfs, filesThatExist := m.filesThatExist.erase path }
      else
        return { m with lfs := lfs, cannotFind := m.cannotFind ++ [path] }
    else
      return { m with lfs := lfs }
  | .link srcpath dstpath => do
    let (rc, lfs) ← m.lfs.fileLink srcpath dstpath
    return { m with
      lfs := lfs
      filesThatExist := if rc = 0 then m.filesThatExist ++ [dstpath] else m.filesThatExist }
  | .write path offset numBlks => do
    let (_, lfs) ← m.lfs.fileWrite path offset numBlks draw
    return { m with lfs := lfs }
  | .sync => return { m with lfs := m.lfs.sync.2 }
  | .notUnderstood command => return { m with skipped := m.skipped ++ [command] }

/-- A command of the list, and what its round draws. -/
structure Input where
  command : Str
  pick : Nat
  draw : Nat → Char

def Session.next (m : Session) (a : Input) : Option Session :=
  match readCommand a.command >>= m.run a.pick a.draw with
  | .ok m' => some m'
  | .error _ => none

/-- The program in front of its loop. The flags are those of `-D` and `-N`. -/
def Session.start (useDiskCr noForceCheckpoints : Bool) (inodePolicy : InodePolicy) : Session :=
  ⟨LFS.new useDiskCr noForceCheckpoints inodePolicy, [], [], [], []⟩

/-- The loop, whatever its list of commands. -/
def sessions (useDiskCr noForceCheckpoints : Bool) (inodePolicy : InodePolicy) :
    Lts Session Input :=
  .ofFun (· = Session.start useDiskCr noForceCheckpoints inodePolicy) Session.next

/-- The paths that the command enters or removes are plain. -/
def Command.Plain : Command → Prop
  | .createFile path => Lfs.Plain path
  | .createDir path => Lfs.Plain path
  | .delete path => Lfs.Plain path
  | .link _ dstpath => Lfs.Plain dstpath
  | _ => True

instance : DecidablePred Command.Plain
  | .createFile path => inferInstanceAs (Decidable (Lfs.Plain path))
  | .createDir path => inferInstanceAs (Decidable (Lfs.Plain path))
  | .delete path => inferInstanceAs (Decidable (Lfs.Plain path))
  | .link _ dstpath => inferInstanceAs (Decidable (Lfs.Plain dstpath))
  | .write _ _ _ => inferInstanceAs (Decidable True)
  | .sync => inferInstanceAs (Decidable True)
  | .notUnderstood _ => inferInstanceAs (Decidable True)

/-- The runs of the loop over commands with plain paths. -/
def plainSessions (useDiskCr noForceCheckpoints : Bool) (inodePolicy : InodePolicy) :
    Lts Session Input :=
  (sessions useDiskCr noForceCheckpoints inodePolicy).restrict fun _ a =>
    ∀ c, readCommand a.command = .ok c → c.Plain

/-! ## The lists of what exists -/

/-- The list holds the plain paths of a set, each once. -/
structure Lists (paths : List Str) (set : Set (List Str)) : Prop where
  nodup : paths.Nodup
  mem_iff : ∀ path, path ∈ paths ↔ Plain path ∧ names path ∈ set

section Lists

variable {paths : List Str} {set : Set (List Str)} {path : Str}

theorem Lists.empty : Lists [] ∅ where
  nodup := List.nodup_nil
  mem_iff path := by simp

/-- A new path is appended to the list. -/
theorem Lists.insert (h : Lists paths set) (hpath : Plain path) (hnew : names path ∉ set) :
    Lists (paths ++ [path]) (Insert.insert (names path) set) where
  nodup := by
    refine List.nodup_append.mpr ⟨h.nodup, List.nodup_singleton _, fun a ha c hc => ?_⟩
    obtain rfl := List.mem_singleton.mp hc
    rintro rfl
    exact hnew ((h.mem_iff a).mp ha).2
  mem_iff path' := by
    rw [List.mem_append, List.mem_singleton, h.mem_iff]
    constructor
    · rintro (⟨hplain, hmem⟩ | rfl)
      · exact ⟨hplain, .inr hmem⟩
      · exact ⟨hpath, .inl rfl⟩
    · rintro ⟨hplain, heq | hmem⟩
      · exact .inr (hplain.ext hpath heq)
      · exact .inl ⟨hplain, hmem⟩

/-- A path that is removed is gone, for it was there once. -/
theorem Lists.erase (h : Lists paths set) (hpath : Plain path) :
    Lists (paths.erase path) (set \ {names path}) where
  nodup := h.nodup.erase _
  mem_iff path' := by
    rw [h.nodup.mem_erase_iff, h.mem_iff]
    constructor
    · rintro ⟨hne, hplain, hmem⟩
      exact ⟨hplain, hmem, fun heq => hne (hplain.ext hpath heq)⟩
    · rintro ⟨hplain, hmem, hne⟩
      exact ⟨fun heq => hne (congrArg names heq), hplain, hmem⟩

end Lists

/-- The two lists are the tree, and nothing was looked for in vain. -/
structure Session.Listed (m : Session) (g : LinkGraph Inum Str) : Prop where
  consistent : Consistent m.lfs g
  valid : Valid m.lfs
  found : m.cannotFind = []
  files : Lists m.filesThatExist (g.pathsTo ROOT_INODE .file)
  dirs : Lists m.dirsThatExist (g.pathsTo ROOT_INODE .dir)

section Rounds

variable {m m' : Session} {g g' : LinkGraph Inum Str} {lfs : LFS} {path : Str} {pick : Nat}
  {draw : Nat → Char}

/-- A round after which the tree is the same. -/
theorem Session.Listed.same (h : m.Listed g) (hs : Consistent lfs g) (hv : Valid lfs) :
    Session.Listed { m with lfs := lfs } g :=
  ⟨hs, hv, h.found, h.files, h.dirs⟩

/-- A round that has made a file, or a new name of one. -/
theorem Session.Listed.gainFile (h : m.Listed g) (hs : Consistent lfs g') (hv : Valid lfs)
    (hpath : Plain path) (hgain : Gained g g' path .file) :
    Session.Listed { m with lfs := lfs, filesThatExist := m.filesThatExist ++ [path] } g' where
  consistent := hs
  valid := hv
  found := h.found
  files := hgain.added ▸ h.files.insert hpath (hgain.fresh .file)
  dirs := hgain.others .dir (by simp) ▸ h.dirs

/-- A round that has made a directory. -/
theorem Session.Listed.gainDir (h : m.Listed g) (hs : Consistent lfs g') (hv : Valid lfs)
    (hpath : Plain path) (hgain : Gained g g' path .dir) :
    Session.Listed { m with lfs := lfs, dirsThatExist := m.dirsThatExist ++ [path] } g' where
  consistent := hs
  valid := hv
  found := h.found
  files := hgain.others .file (by simp) ▸ h.files
  dirs := hgain.added ▸ h.dirs.insert hpath (hgain.fresh .dir)

/-- A round that has removed the name of a file. -/
theorem Session.Listed.loseFile (h : m.Listed g) (hs : Consistent lfs g') (hv : Valid lfs)
    (hpath : Plain path) (hlost : Lost g g' path) :
    Session.Listed { m with lfs := lfs, filesThatExist := m.filesThatExist.erase path } g' where
  consistent := hs
  valid := hv
  found := h.found
  files := hlost.files ▸ h.files.erase hpath
  dirs := hlost.dirs ▸ h.dirs

/-- A command keeps the lists in step with the tree. -/
theorem Session.Listed.run {c : Command} (h : m.Listed g) (hc : c.Plain)
    (hrun : m.run pick draw c = .ok m') : ∃ g', m'.Listed g' := by
  have hvalid : ∀ {op : Op} {rc : Int} {lfs : LFS}, op.run m.lfs = .ok (rc, lfs) → Valid lfs :=
    fun hop => h.valid.run hop
  cases c with
  | createFile path =>
    obtain ⟨⟨rc, lfs⟩, hcreate, hm⟩ := bind_eq_ok.mp hrun
    obtain rfl := Except.ok.inj hm
    have hv := @hvalid (.fileCreate path pick) _ _ hcreate
    rcases (h.consistent.errors []).create hcreate with ⟨rfl, hs⟩ | ⟨rfl, _⟩
    · exact ⟨g, h.same hs hv⟩
    · obtain ⟨g', hs, hgain⟩ :=
        (h.consistent.errors []).create_gains (h.valid.errors []) hc hcreate
      exact ⟨g', h.gainFile hs hv hc hgain⟩
  | createDir path =>
    obtain ⟨⟨rc, lfs⟩, hcreate, hm⟩ := bind_eq_ok.mp hrun
    obtain rfl := Except.ok.inj hm
    have hv := @hvalid (.dirCreate path pick) _ _ hcreate
    rcases (h.consistent.errors []).create hcreate with ⟨rfl, hs⟩ | ⟨rfl, _⟩
    · exact ⟨g, h.same hs hv⟩
    · obtain ⟨g', hs, hgain⟩ :=
        (h.consistent.errors []).create_gains (h.valid.errors []) hc hcreate
      exact ⟨g', h.gainDir hs hv hc hgain⟩
  | delete path =>
    obtain ⟨⟨rc, lfs⟩, hdelete, hm⟩ := bind_eq_ok.mp hrun
    have hv := @hvalid (.fileDelete path) _ _ hdelete
    rcases h.consistent.delete hdelete with ⟨rfl, hs⟩ | ⟨rfl, _⟩
    · obtain rfl := Except.ok.inj hm
      exact ⟨g, h.same hs hv⟩
    · obtain ⟨g', hs, hlost⟩ := h.consistent.delete_loses h.valid hc hdelete
      -- what was deleted is in the list
      have hmem : path ∈ m.filesThatExist := (h.files.mem_iff path).mpr ⟨hc, hlost.removed⟩
      simp only [hmem, if_true] at hm
      obtain rfl := Except.ok.inj hm
      exact ⟨g', h.loseFile hs hv hc hlost⟩
  | link srcpath dstpath =>
    obtain ⟨⟨rc, lfs⟩, hlink, hm⟩ := bind_eq_ok.mp hrun
    obtain rfl := Except.ok.inj hm
    have hv := @hvalid (.fileLink srcpath dstpath) _ _ hlink
    rcases h.consistent.link hlink with ⟨rfl, hs⟩ | ⟨rfl, _⟩
    · exact ⟨g, h.same hs hv⟩
    · obtain ⟨g', hs, hgain⟩ := h.consistent.link_gains h.valid hc hlink
      exact ⟨g', h.gainFile hs hv hc hgain⟩
  | write path offset numBlks =>
    obtain ⟨⟨rc, lfs⟩, hwrite, hm⟩ := bind_eq_ok.mp hrun
    obtain rfl := Except.ok.inj hm
    exact ⟨g, h.same (h.consistent.write hwrite)
      (@hvalid (.fileWrite path offset numBlks draw) _ _ hwrite)⟩
  | sync =>
    obtain rfl := Except.ok.inj hrun
    exact ⟨g, h.same h.consistent.sync (@hvalid .sync 0 _ rfl)⟩
  | notUnderstood command =>
    obtain rfl := Except.ok.inj hrun
    exact ⟨g, h.consistent, h.valid, h.found, h.files, h.dirs⟩

end Rounds

/-! ## Every run of the loop -/

section Runs

variable {m : Session} {noForceCheckpoints : Bool} {inodePolicy : InodePolicy}

/-- The root is named by no plain path, so both lists are empty to begin with. -/
theorem listed_start :
    (Session.start false noForceCheckpoints inodePolicy).Listed (.single ROOT_INODE) := by
  have hnone : ∀ k, (LinkGraph.single ROOT_INODE : LinkGraph Inum Str).pathsTo ROOT_INODE k = ∅ := by
    intro k
    ext ns
    refine ⟨?_, fun h => h.elim⟩
    rintro ⟨hne, i, hi, _⟩
    cases hi with
    | root => exact hne rfl
    | entry _ last => exact absurd last (Multiset.notMem_zero _)
  refine ⟨consistent_new noForceCheckpoints inodePolicy, ?_, rfl, ?_, ?_⟩
  · exact valid_reachable (Lts.Reachable.of_init (M := fileSystem false noForceCheckpoints inodePolicy)
      rfl)
  · rw [hnone]
    exact .empty
  · rw [hnone]
    exact .empty

theorem listed_reachable (h : (plainSessions false noForceCheckpoints inodePolicy).Reachable m) :
    ∃ g, m.Listed g := by
  refine h.invariant (I := fun m => ∃ g, m.Listed g) ?_ ?_
  · rintro _ rfl
    exact ⟨_, listed_start⟩
  · rintro m a m' ⟨g, hm⟩ ⟨hplain, hnext⟩
    have hround : Session.next m a = some m' := hnext
    unfold Session.next at hround
    split at hround
    · rename_i m'' hrun
      obtain rfl := Option.some.inj hround
      obtain ⟨c, hc, hrun⟩ := bind_eq_ok.mp hrun
      exact hm.run (hplain c hc) hrun
    · cases hround

/-- **The report is the tree.** Without `-D`, and whatever the loop has run, if its paths are plain:
the live files that it reports are the plain paths to regular files, each once, the live directories
those to directories, and it has never looked for a file in vain. With `-D` the paths are looked up
through the checkpoint region on disk, and a path that has been entered since the last checkpoint is
reported but not found. -/
theorem reported_exact (h : (plainSessions false noForceCheckpoints inodePolicy).Reachable m) :
    m.cannotFind = [] ∧ (m.filesThatExist.Nodup ∧ m.dirsThatExist.Nodup) ∧
      ∀ path, (path ∈ m.filesThatExist ↔ Plain path ∧ m.lfs.typeAt path = some .regular) ∧
        (path ∈ m.dirsThatExist ↔ Plain path ∧ m.lfs.typeAt path = some .directory) := by
  obtain ⟨g, hm⟩ := listed_reachable h
  have htype : ∀ type path, Plain path →
      (names path ∈ g.pathsTo ROOT_INODE type.kind ↔ m.lfs.typeAt path = some type) :=
    fun type path hplain => (hm.consistent.typeAt_iff hm.valid hplain).symm
  refine ⟨hm.found, ⟨hm.files.nodup, hm.dirs.nodup⟩, fun path => ⟨?_, ?_⟩⟩
  · rw [hm.files.mem_iff]
    exact and_congr_right (htype .regular path)
  · rw [hm.dirs.mem_iff]
    exact and_congr_right (htype .directory path)

/-- The commands `c,/a`, `d,/d`, `l,/a,/d/b` and `r,/a`. -/
def someInputs : List Input :=
  ["c,/a", "d,/d", "l,/a,/d/b", "r,/a"].map fun command => ⟨command.toList, 0, fun _ => 'a'⟩

theorem reported_exact_some :
    ∃ m, (plainSessions false false .sequential).Reachable m ∧
      m.filesThatExist = ["/d/b".toList] ∧ m.cannotFind = [] ∧
        m.lfs.typeAt "/d/b".toList = some .regular := by
  have hplain : ∀ a ∈ someInputs, ∀ c, readCommand a.command = .ok c → c.Plain := by
    have hread : ∀ a ∈ someInputs, (readCommand a.command).toOption.all
        (fun c => decide c.Plain) = true := by decide +kernel
    intro a ha c hc
    have hone := hread a ha
    rw [hc] at hone
    exact of_decide_eq_true hone
  have hrun : (someInputs.foldlM Session.next (Session.start false false .sequential)).any
      (fun m => m.filesThatExist = ["/d/b".toList]) = true := by decide +kernel
  rw [Option.any_eq_true] at hrun
  obtain ⟨m, hm, hfiles⟩ := hrun
  have hlists := of_decide_eq_true hfiles
  have hreach : (plainSessions false false .sequential).Reachable m :=
    ⟨_, _, rfl, (Lts.run_ofFun.mpr hm).restrict fun a ha _ => hplain a ha⟩
  obtain ⟨hfound, _, hreported⟩ := reported_exact hreach
  refine ⟨m, hreach, hlists, hfound, ((hreported _).1.mp ?_).2⟩
  rw [hlists]
  exact List.mem_singleton_self _

/-- Created as `/d/../a`, the file is looked for as `/a`. -/
example : (["d,/d", "c,/d/../a", "r,/a"].map fun command =>
    (⟨command.toList, 0, fun _ => 'a'⟩ : Input)).foldlM Session.next
      (Session.start false false .sequential) |>.any (fun m => m.cannotFind = ["/a".toList]) := by
  decide +kernel

end Runs

end OsLab.Lfs
