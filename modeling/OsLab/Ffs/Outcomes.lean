import OsLab.Ffs.Accounting

/-!
# How commands end

A create with room for its inode and its blocks still asks for a symbol and enters a name. It aborts
when the symbols have run out, which the default geometry reaches with 21 inodes left.

* **`CreatesWithRoom`**, **`createsWithRoom_iff`** -- when a create that has room succeeds, exactly,
  in every state that creations reach.
* **`Taken`**, **`exists_exhausted`** -- a run of creations that uses up the symbols.
* **`Command.Clean`** -- a command ends with one result, and leaves the state alone when it fails.
* **`CreateMeets`**, **`DeleteMeets`**, **`clean_of_reachable`** -- the conditions, on the state in
  front of a command, under which it does.
-/

namespace OsLab.Ffs

variable {c : Config} {s t : Fs} {cmd : Command} {path : Str} {size : Nat} {type : FileType}
  {d : Int}

/-- A `dir` command, or a `file` command for at least one block. -/
def Command.SizedCreate (cmd : Command) : Prop :=
  ∃ path size type, cmd.creates = some (path, size, type) ∧ 1 ≤ size

/-- The file system that only creates change. -/
def creations (c : Config) : Lts Fs Command := (commands c).restrict fun _ cmd => cmd.SizedCreate

/-- Creations keep every state consistent, in a geometry with one group to a window and a positive
contiguity policy. -/
theorem consistent_of_creations (hfar : c.allocateFaraway = 1)
    (hcontig : 1 ≤ c.contigAllocationPolicy) (h : (creations c).Reachable s) : Consistent c s := by
  refine consistent_of_reachable hfar hcontig ?_ h
  rintro s cmd ⟨path, size, type, hcreates, hsize⟩
  constructor
  · intro path' size' type' hcreates'
    rw [hcreates] at hcreates'
    cases hcreates'
    exact hsize
  · -- a create frees nothing
    cases cmd with
    | file path size => exact True.intro
    | dir path => exact True.intro
    | delete path => cases hcreates

/-! ## A create that has room -/

/-- The create returns 0 exactly if there is room, and then it does not abort. -/
def CreatesWithRoom (c : Config) (s : Fs) (path : Str) (size : Nat) (type : FileType) : Prop :=
  ((∃ fuel t, s.doCreate c fuel path size type = .ok (some (0, t))) ↔
    0 < s.totalInodesFree ∧ size ≤ s.totalDataFree) ∧
  (0 < s.totalInodesFree ∧ size ≤ s.totalDataFree →
    ∀ fuel e, s.doCreate c fuel path size type ≠ .error e)

/-- The parent is a directory without an entry of the name. -/
structure ParentReady (s : Fs) (path : Str) (d : Int) : Prop where
  parent : s.nameToInodeMap.lookup (getParent path).1 = some d
  directory : s.inodeType d = some .directory
  new : ∀ entries, s.dirData d = some entries → ∀ e ∈ entries, e.1 ≠ (getParent path).2

theorem ParentReady.accepted (h : ParentReady s path d) (hnamed : Named s)
    (hinodes : 0 < s.totalInodesFree) (hspace : size ≤ s.totalDataFree) :
    ∃ entries, Fs.Accepted s path size d entries := by
  rcases hnamed.typed h.parent with ⟨hregular, _⟩ | ⟨_, entries, hdir⟩
  · rw [h.directory] at hregular
    cases hregular
  · exact ⟨entries, Nat.pos_iff_ne_zero.mp hinodes, hspace, h.parent, hdir, h.new entries hdir⟩

/-- The name of the root and an empty list of symbols stop a create after its blocks are allocated,
where nothing should fail any more. -/
theorem not_createsWithRoom {blocks slots : Int → List (Nat × Nat)} {entries : List (Str × Int)}
    (h : Represents c s blocks slots) (hacc : Fs.Accepted s path size d entries)
    (htype : type ≠ .empty) (halloc : Fs.Allocates c s path size type)
    (hbad : path = ['/'] ∨ s.availableSymbols = []) : ¬CreatesWithRoom c s path size type := by
  rintro ⟨_, hnoabort⟩
  obtain ⟨e, enough, herror, _⟩ := Fs.doCreate_error h hacc htype halloc hbad
  exact hnoabort ⟨Nat.pos_iff_ne_zero.mpr hacc.inodes, hacc.space⟩ enough e herror

theorem createsWithRoom_of_symbol {blocks slots : Int → List (Nat × Nat)}
    {entries : List (Str × Int)} (h : Represents c s blocks slots)
    (hacc : Fs.Accepted s path size d entries) (htype : type ≠ .empty)
    (halloc : Fs.Allocates c s path size type) (hpath : path ≠ ['/'])
    (hsymbols : s.availableSymbols ≠ []) : CreatesWithRoom c s path size type := by
  obtain ⟨p, cells, symbol, enough, _, _, _, hok, hall⟩ :=
    Fs.doCreate_ok h hacc htype halloc hpath hsymbols
  have hroom : 0 < s.totalInodesFree ∧ size ≤ s.totalDataFree :=
    ⟨Nat.pos_iff_ne_zero.mpr hacc.inodes, hacc.space⟩
  refine ⟨iff_of_true ⟨enough, _, hok⟩ hroom, fun _ fuel e herror => ?_⟩
  rcases hall fuel with hnone | hsame
  · rw [hnone] at herror
    cases herror
  · rw [hsame] at herror
    cases herror

/-- Without room the create returns -1. -/
theorem createsWithRoom_of_full (h : s.totalInodesFree = 0 ∨ s.totalDataFree < size) :
    CreatesWithRoom c s path size type := by
  have hroom : ¬(0 < s.totalInodesFree ∧ size ≤ s.totalDataFree) := by omega
  have hrejected : Fs.Rejected s path size := by
    rcases h with hinodes | hspace
    · exact .inodes hinodes
    · exact .space hspace
  refine ⟨iff_of_false ?_ hroom, fun hyes => absurd hyes hroom⟩
  rintro ⟨fuel, t, hok⟩
  rw [Fs.doCreate_rejected hrejected] at hok
  cases hok

/-- **When room is enough.** For a create whose path is not the root's as long as there are symbols,
and for no other. -/
theorem createsWithRoom_iff (hfar : c.allocateFaraway = 1)
    (hcontig : 1 ≤ c.contigAllocationPolicy) (h : (creations c).Reachable s)
    (htype : type ≠ .empty) (hsize : 1 ≤ size) (hready : ParentReady s path d) :
    CreatesWithRoom c s path size type ↔
      s.totalInodesFree = 0 ∨ s.totalDataFree < size ∨
        path ≠ ['/'] ∧ s.availableSymbols ≠ [] := by
  obtain ⟨blocks, slots, hrep⟩ := consistent_of_creations hfar hcontig h
  by_cases hfull : s.totalInodesFree = 0 ∨ s.totalDataFree < size
  · exact iff_of_true (createsWithRoom_of_full hfull) (by omega)
  · have hinodes : 0 < s.totalInodesFree := by omega
    have hspace : size ≤ s.totalDataFree := by omega
    obtain ⟨entries, hacc⟩ := hready.accepted hrep.toNamed hinodes hspace
    have halloc : Fs.Allocates c s path size type :=
      Fs.allocates_of_config hrep.toStored hfar hcontig hacc.inodes hsize type
    constructor
    · intro hcreates
      refine Or.inr (Or.inr (not_or.mp fun hbad => ?_))
      exact not_createsWithRoom hrep hacc htype halloc hbad hcreates
    · rintro (hinodesNone | hspaceNone | ⟨hpath, hsymbols⟩)
      · exact createsWithRoom_of_full (Or.inl hinodesNone)
      · exact createsWithRoom_of_full (Or.inr hspaceNone)
      · exact createsWithRoom_of_symbol hrep hacc htype halloc hpath hsymbols

theorem createsWithRoom_iff_fresh : ∃ s, Fs.new (squareConfig 2 4) = .ok s ∧
    CreatesWithRoom (squareConfig 2 4) s ['/', 'a'] 3 .regular := by
  have hnew : ∃ s, Fs.new (squareConfig 2 4) = .ok s ∧
      s.nameToInodeMap.lookup ['/'] = some 0 ∧ s.inodeType 0 = some .directory ∧
      s.dirData 0 = some emptyDirectory ∧ s.availableSymbols.length = 78 :=
    ⟨_, rfl, rfl, rfl, rfl, rfl⟩
  obtain ⟨s, hnew, hroot, htype, hdir, hsymbols⟩ := hnew
  have hready : ParentReady s ['/', 'a'] 0 := by
    refine ⟨hroot, htype, fun entries hentries e he => ?_⟩
    rw [hdir] at hentries
    obtain rfl := Option.some.inj hentries
    revert e
    decide
  have hsome : s.availableSymbols ≠ [] := by
    apply List.ne_nil_of_length_pos
    omega
  have hiff : CreatesWithRoom (squareConfig 2 4) s ['/', 'a'] 3 .regular ↔ _ :=
    createsWithRoom_iff rfl (by decide) (.of_init hnew) (by decide) (by decide) hready
  exact ⟨s, hnew, hiff.mpr (Or.inr (Or.inr ⟨by decide, hsome⟩))⟩

/-! ## Running out of symbols -/

theorem rfind_root {name : Str} (h : '/' ∉ name) : rfind ('/' :: name) '/' = some 0 := by
  have hfind : (name.reverse ++ ['/']).findIdx? (· = '/') = some name.length := by
    rw [List.findIdx?_append, List.findIdx?_eq_none_iff.mpr]
    · simp
    · intro x hx
      have hne : x ≠ '/' := fun heq => h (heq ▸ List.mem_reverse.mp hx)
      simpa using hne
  unfold rfind
  rw [List.reverse_cons, hfind]
  simp

/-- A name without a slash lies in the root. -/
theorem getParent_root {name : Str} (h : '/' ∉ name) : getParent ('/' :: name) = (['/'], name) := by
  unfold getParent
  rw [rfind_root h]
  rfl

/-- A name longer than any used so far. -/
def longName (n : Nat) : Str := List.replicate n 'x'

theorem getParent_longName (n : Nat) : getParent ('/' :: longName n) = (['/'], longName n) := by
  apply getParent_root
  intro h
  exact absurd (List.eq_of_mem_replicate h) (by decide)

theorem dirData_new (h : Fs.new c = .ok s) : s.dirData 0 = some emptyDirectory := by
  unfold Fs.new at h
  obtain ⟨_, _, h⟩ := bind_eq_ok.mp h
  obtain ⟨_, _, h⟩ := bind_eq_ok.mp h
  obtain rfl := Except.ok.inj h
  rfl

/-- Files of one block each were created in the root until `used` symbols, inodes and blocks were
taken; no name in the root is longer than `bound`. -/
structure Taken (c : Config) (s t : Fs) (used bound : Nat) : Prop where
  consistent : Consistent c t
  symbols : t.availableSymbols.length + used = s.availableSymbols.length
  inodes : t.totalInodesFree + used = s.totalInodesFree
  blocks : t.totalDataFree + used = s.totalDataFree
  names : ∃ entries, t.dirData 0 = some entries ∧ ∀ e ∈ entries, e.1.length ≤ bound

/-- A name longer than the others is new in the root. -/
theorem Taken.ready {used bound : Nat} (h : Taken c s t used bound) :
    ParentReady t ('/' :: longName (bound + 1)) 0 := by
  obtain ⟨_, _, hrep⟩ := h.consistent
  obtain ⟨entries, hdir, hnames⟩ := h.names
  have hparent := getParent_longName (bound + 1)
  constructor
  · rw [hparent]
    exact hrep.root
  · exact hrep.rootType
  · intro entries' hdir' e he heq
    rw [hdir] at hdir'
    obtain rfl := Option.some.inj hdir'
    have hlen := hnames e he
    rw [heq, hparent] at hlen
    simp [longName] at hlen

/-- One more file, with a name longer than any before. -/
theorem Taken.next {used bound : Nat} (h : Taken c s t used bound) (hfar : c.allocateFaraway = 1)
    (hcontig : 1 ≤ c.contigAllocationPolicy) (hsymbols : used < s.availableSymbols.length)
    (hinodes : used < s.totalInodesFree) (hblocks : used < s.totalDataFree) :
    ∃ u, (creations c).step t (.file ('/' :: longName (bound + 1)) 1) u ∧
      Taken c s u (used + 1) (bound + 1) := by
  have hready := h.ready
  obtain ⟨⟨blocks, slots, hrep⟩, hsymbolsLeft, hinodesLeft, hblocksLeft, entries, hdir, hnames⟩ := h
  obtain ⟨entries', hacc⟩ : ∃ entries', Fs.Accepted t ('/' :: longName (bound + 1)) 1 0 entries' :=
    hready.accepted hrep.toNamed (by omega) (by omega)
  obtain rfl : entries = entries' := Option.some.inj (hdir.symm.trans hacc.dir)
  have halloc : Fs.Allocates c t ('/' :: longName (bound + 1)) 1 .regular :=
    Fs.allocates_of_config hrep.toStored hfar hcontig hacc.inodes (Nat.le_refl 1) .regular
  have havailable : t.availableSymbols ≠ [] := by
    apply List.ne_nil_of_length_pos
    omega
  obtain ⟨p, cells, symbol, enough, hcr, hlen, hsymbol, hok, _⟩ :=
    Fs.doCreate_ok hrep hacc (by decide) halloc (by simp [longName]) havailable
  refine ⟨_, ⟨⟨_, _, _, rfl, Nat.le_refl 1⟩, enough, 0, hok⟩, ⟨_, _, hrep.created hcr hsymbol⟩,
    ?_, ?_, ?_, entries ++ [(longName (bound + 1), number c.inodesPerGroup p)], ?_, ?_⟩
  · have herase := List.length_erase_of_mem hsymbol
    show (t.availableSymbols.erase symbol).length + (used + 1) = s.availableSymbols.length
    omega
  · show t.totalInodesFree - 1 + (used + 1) = s.totalInodesFree
    omega
  · show t.totalDataFree - cells.length + (used + 1) = s.totalDataFree
    omega
  · show Function.update t.dirData 0 (some (entries ++ [((getParent _).2, _)])) 0 = _
    rw [Function.update_self, getParent_longName]
  · intro e he
    rcases List.mem_append.mp he with he | he
    · exact Nat.le_succ_of_le (hnames e he)
    · rw [List.mem_singleton.mp he]
      simp [longName]

/-- With more inodes and blocks than symbols, creates use up the symbols. -/
theorem exists_exhausted (hfar : c.allocateFaraway = 1) (hcontig : 1 ≤ c.contigAllocationPolicy)
    (h : Fs.new c = .ok s) (hinodes : s.availableSymbols.length < s.totalInodesFree)
    (hblocks : s.availableSymbols.length < s.totalDataFree) :
    ∃ t bound, (creations c).Reachable t ∧ Taken c s t s.availableSymbols.length bound := by
  have hrun : ∀ n ≤ s.availableSymbols.length,
      ∃ t, (creations c).Reachable t ∧ Taken c s t n (2 + n) := by
    intro n
    induction n with
    | zero =>
      intro _
      obtain ⟨blocks, slots, hrep⟩ := consistent_new h
      exact ⟨s, .of_init h, ⟨_, _, hrep⟩, rfl, rfl, rfl, emptyDirectory, dirData_new h, by decide⟩
    | succ n ih =>
      intro hn
      obtain ⟨t, hreach, htaken⟩ := ih (by omega)
      obtain ⟨u, hstep, hu⟩ := htaken.next hfar hcontig (by omega) (by omega) (by omega)
      exact ⟨u, hreach.step hstep, hu⟩
  obtain ⟨t, hreach, htaken⟩ := hrun _ (Nat.le_refl _)
  exact ⟨t, _, hreach, htaken⟩

/-- The geometry without options on the command line. -/
def defaultConfig : Config where
  numGroups := 10
  blocksPerGroup := 30
  inodesPerGroup := 10
  largeFileException := 30
  spreadInodes := false
  contigAllocationPolicy := 1
  spreadDataBlocks := false
  allocateFaraway := 1

/-- After 78 files the default file system has 21 inodes left and no symbol. -/
theorem not_createsWithRoom_exhausted : ¬∀ (c : Config) (s : Fs) (path : Str) (size : Nat)
    (type : FileType) (d : Int), c.allocateFaraway = 1 → 1 ≤ c.contigAllocationPolicy →
    (creations c).Reachable s → type ≠ .empty → 1 ≤ size → ParentReady s path d →
    CreatesWithRoom c s path size type := by
  intro hall
  have hnew : ∃ s, Fs.new defaultConfig = .ok s ∧ s.availableSymbols.length = 78 ∧
      s.totalInodesFree = 99 ∧ s.totalDataFree = 299 :=
    ⟨_, rfl, rfl, rfl, rfl⟩
  obtain ⟨s, hnew, hsymbols, hinodes, hblocks⟩ := hnew
  obtain ⟨t, bound, hreach, htaken⟩ := exists_exhausted rfl (by decide) hnew (by omega) (by omega)
  have hready := htaken.ready
  obtain ⟨⟨blocks, slots, hrep⟩, hsymbolsLeft, hinodesLeft, hblocksLeft, _⟩ := htaken
  obtain ⟨entries, hacc⟩ : ∃ entries, Fs.Accepted t ('/' :: longName (bound + 1)) 1 0 entries :=
    hready.accepted hrep.toNamed (by omega) (by omega)
  have halloc : Fs.Allocates defaultConfig t ('/' :: longName (bound + 1)) 1 .regular :=
    Fs.allocates_of_config hrep.toStored rfl (by decide) hacc.inodes (Nat.le_refl 1) .regular
  have hnone : t.availableSymbols = [] := List.eq_nil_of_length_eq_zero (by omega)
  exact not_createsWithRoom hrep hacc (by decide) halloc (Or.inr hnone)
    (hall defaultConfig t _ 1 .regular 0 rfl (by decide) hreach (by decide) (Nat.le_refl 1) hready)

/-! ## Commands that fail cleanly -/

/-- The command ends with one result, however many rounds its loop may take; it succeeds, or returns
-1 and leaves the file system as it was. -/
def Command.Clean (c : Config) (s : Fs) (cmd : Command) : Prop :=
  ∃ rc t, (∃ enough, cmd.run c enough s = .ok (some (rc, t))) ∧
    (∀ fuel, cmd.run c fuel s = .ok none ∨ cmd.run c fuel s = .ok (some (rc, t))) ∧
    (rc = 0 ∨ rc = -1 ∧ t = s)

/-- What a create past its first checks relies on: the parent is a directory, and if it has no entry
of the name then the allocators work, the path is not the root's and a symbol is left. -/
def CreateMeets (c : Config) (s : Fs) (path : Str) (size : Nat) (type : FileType) : Prop :=
  0 < s.totalInodesFree → size ≤ s.totalDataFree →
    ∀ d, s.nameToInodeMap.lookup (getParent path).1 = some d →
      ∃ entries, s.dirData d = some entries ∧
        ((∃ e ∈ entries, e.1 = (getParent path).2) ∨
          Fs.Allocates c s path size type ∧ path ≠ ['/'] ∧ s.availableSymbols ≠ [])

/-- What a delete relies on: the parent is a directory, and a regular file found there has the path
for its name and cells that both divisions put in the same place. -/
def DeleteMeets (c : Config) (s : Fs) (path : Str) : Prop :=
  ∀ d, s.nameToInodeMap.lookup (getParent path).1 = some d →
    ∃ entries, s.dirData d = some entries ∧
      ∀ v, ((getParent path).2, v) ∈ entries → s.inodeType v = some .regular →
        path ≠ ['/'] ∧ (s.nameToInodeMap.lookup path).isSome = true ∧ Fs.SplitsAlike c s v

def Meets (c : Config) (s : Fs) : Command → Prop
  | .file path size => CreateMeets c s path size .regular
  | .dir path => CreateMeets c s path 1 .directory
  | .delete path => DeleteMeets c s path

/-- The conditions on a create are what the allocators and `install` rely on. -/
theorem CreateMeets.allocates {entries : List (Str × Int)} (h : CreateMeets c s path size type)
    (hacc : Fs.Accepted s path size d entries) :
    Fs.Allocates c s path size type ∧ path ≠ ['/'] ∧ s.availableSymbols ≠ [] := by
  obtain ⟨entries', hdir, hcases⟩ :=
    h (Nat.pos_iff_ne_zero.mpr hacc.inodes) hacc.space d hacc.parent
  obtain rfl : entries = entries' := Option.some.inj (hacc.dir.symm.trans hdir)
  rcases hcases with ⟨e, he, hname⟩ | hall
  · exact absurd hname (hacc.new e he)
  · exact hall

theorem Meets.create (h : Meets c s cmd) (hcreates : cmd.creates = some (path, size, type)) :
    CreateMeets c s path size type := by
  cases cmd with
  | file path size =>
    cases hcreates
    exact h
  | dir path =>
    cases hcreates
    exact h
  | delete path => cases hcreates

/-- The conditions on a delete include that it frees its own cells. -/
theorem Meets.freesOwn (h : Meets c s cmd) : FreesOwn c s cmd := by
  cases cmd with
  | file path size => exact True.intro
  | dir path => exact True.intro
  | delete path =>
    intro d entries v hparent hdir hmem hregular
    obtain ⟨entries', hdir', hall⟩ := h d hparent
    obtain rfl : entries = entries' := Option.some.inj (hdir.symm.trans hdir')
    obtain ⟨hpath, _, hsplit⟩ := hall v hmem hregular
    exact ⟨hpath, hsplit⟩

/-- In every geometry, the commands that meet their conditions keep the invariant. -/
theorem consistent_of_meets (h : ((commands c).restrict (Meets c)).Reachable s) :
    Consistent c s := by
  apply h.invariant
  · intro s hinit
    exact consistent_new hinit
  · rintro s cmd t hs ⟨hmeets, hstep⟩
    refine hs.step (fun path size type hcreates d entries hacc => ?_) hmeets.freesOwn hstep
    exact ((hmeets.create hcreates).allocates hacc).1

/-- How a create that meets its conditions ends: with one result, which is 0, or -1 with nothing
changed. -/
theorem CreateMeets.clean (h : CreateMeets c s path size type) (hs : Consistent c s)
    (htype : type ≠ .empty) :
    ∃ rc t, (∃ enough, s.doCreate c enough path size type = .ok (some (rc, t))) ∧
      (∀ fuel, s.doCreate c fuel path size type = .ok none ∨
        s.doCreate c fuel path size type = .ok (some (rc, t))) ∧
      (rc = 0 ∨ rc = -1 ∧ t = s) := by
  obtain ⟨blocks, slots, hrep⟩ := hs
  rcases Fs.create_cases s path size with
    hrejected | ⟨hinodes, hspace, d, hparent, hdir⟩ | ⟨d, entries, hacc⟩
  · exact ⟨-1, s, ⟨0, Fs.doCreate_rejected hrejected 0 type⟩,
      fun fuel => Or.inr (Fs.doCreate_rejected hrejected fuel type), Or.inr ⟨rfl, rfl⟩⟩
  · -- the condition excludes a regular parent
    obtain ⟨entries, hentries, _⟩ := h (Nat.pos_iff_ne_zero.mpr hinodes) hspace d hparent
    rw [hdir] at hentries
    cases hentries
  · obtain ⟨halloc, hpath, hsymbols⟩ := h.allocates hacc
    obtain ⟨p, cells, symbol, enough, _, _, _, hok, hall⟩ :=
      Fs.doCreate_ok hrep hacc htype halloc hpath hsymbols
    exact ⟨0, _, ⟨enough, hok⟩, hall, Or.inl rfl⟩

/-- How a delete that meets its conditions ends, likewise. -/
theorem DeleteMeets.clean (h : DeleteMeets c s path) (hs : Consistent c s) :
    ∃ rc t, s.doDelete c path = .ok (rc, t) ∧ (rc = 0 ∨ rc = -1 ∧ t = s) := by
  obtain ⟨blocks, slots, hrep⟩ := hs
  rcases Fs.delete_cases hrep.toNamed path with
    hrefused | ⟨d, hparent, hdir⟩ | ⟨d, entries, v, hparent, hdir, hmem, hregular⟩
  · exact ⟨-1, s, Fs.doDelete_refused hrep hrefused, Or.inr ⟨rfl, rfl⟩⟩
  · obtain ⟨entries, hentries, _⟩ := h d hparent
    rw [hdir] at hentries
    cases hentries
  · obtain ⟨entries', hdir', hfound⟩ := h d hparent
    obtain rfl : entries = entries' := Option.some.inj (hdir.symm.trans hdir')
    obtain ⟨_, hlive, hsplit⟩ := hfound v hmem hregular
    obtain ⟨p, symbol, _, _, _, heq⟩ := Fs.doDelete_found hrep hparent hdir hmem hregular hsplit
    rw [if_neg (by simp [Option.isSome_iff_ne_none.mp hlive])] at heq
    exact ⟨0, _, heq, Or.inl rfl⟩

/-- **Failures are clean.** While the commands meet their conditions, each of them fails cleanly if
it fails. -/
theorem clean_of_reachable (h : ((commands c).restrict (Meets c)).Reachable s)
    (hmeets : Meets c s cmd) : cmd.Clean c s := by
  have hs := consistent_of_meets h
  cases cmd with
  | file path size => exact CreateMeets.clean hmeets hs (by decide)
  | dir path => exact CreateMeets.clean hmeets hs (by decide)
  | delete path =>
    obtain ⟨rc, t, hdelete, hrc⟩ := DeleteMeets.clean hmeets hs
    have hrun : ∀ fuel, (Command.delete path).run c fuel s = .ok (some (rc, t)) := by
      intro fuel
      show (do let r ← s.doDelete c path; return some r : Except Abort (Option (Int × Fs))) = _
      rw [hdelete]
      rfl
    exact ⟨rc, t, ⟨0, hrun 0⟩, fun fuel => Or.inr (hrun fuel), hrc⟩

theorem clean_of_reachable_fresh : ∃ s, Fs.new (squareConfig 2 4) = .ok s ∧
    (Command.file ['/', 'a'] 2).Clean (squareConfig 2 4) s := by
  have hnew : ∃ s, Fs.new (squareConfig 2 4) = .ok s ∧
      s.nameToInodeMap.lookup ['/'] = some 0 ∧ s.dirData 0 = some emptyDirectory ∧
      s.availableSymbols.length = 78 :=
    ⟨_, rfl, rfl, rfl, rfl⟩
  obtain ⟨s, hnew, hroot, hdir, hsymbols⟩ := hnew
  obtain ⟨_, _, hrep⟩ := consistent_new hnew
  have hmeets : CreateMeets (squareConfig 2 4) s ['/', 'a'] 2 .regular := by
    intro hinodes _ d hparent
    obtain rfl : 0 = d := Option.some.inj (hroot.symm.trans hparent)
    have halloc : Fs.Allocates (squareConfig 2 4) s ['/', 'a'] 2 .regular :=
      Fs.allocates_of_config hrep.toStored rfl (by decide) (Nat.pos_iff_ne_zero.mp hinodes)
        (by decide) .regular
    have hsome : s.availableSymbols ≠ [] := by
      apply List.ne_nil_of_length_pos
      omega
    exact ⟨emptyDirectory, hdir, Or.inr ⟨halloc, by decide, hsome⟩⟩
  exact ⟨s, hnew, clean_of_reachable (.of_init hnew) hmeets⟩

/-- A create below a regular file aborts, because `dir_data` has no such key. -/
theorem not_clean_belowFile : ¬∀ (c : Config) (s : Fs) (cmd : Command),
    (commands c).Reachable s → cmd.Clean c s := by
  intro hall
  have hrun : ∃ s t, Fs.new (squareConfig 2 4) = .ok s ∧
      runCommands (squareConfig 2 4) 9 [.file ['/', 'a'] 1] s = .ok (some t) ∧
      ∀ fuel, t.doCreate (squareConfig 2 4) fuel ['/', 'a', '/', 'b'] 1 .regular =
        .error .keyError :=
    ⟨_, _, rfl, rfl, fun fuel => rfl⟩
  obtain ⟨s, t, hnew, hrun, herror⟩ := hrun
  obtain ⟨rc, u, ⟨enough, hok⟩, _⟩ := hall (squareConfig 2 4) t (.file ['/', 'a', '/', 'b'] 1)
    ⟨s, _, hnew, run_of_runCommands hrun⟩
  change t.doCreate (squareConfig 2 4) enough ['/', 'a', '/', 'b'] 1 .regular = _ at hok
  rw [herror enough] at hok
  cases hok

end OsLab.Ffs
