import OsLab.Ffs.Accounting
import OsLab.Lib.Extent

/-!
# Spans

`do_all_spans` lays the groups out on one line, the inodes of a group before its blocks. The span of
a file is the distance between the outermost of its inode and its blocks; the span of a directory
counts the regular files in it too.

* **`getSpans`**, **`fileSpan`**, **`dirSpan`**, **`doAllSpans`** -- the function and the rounds of
  its loops.
* **`addresses`**, **`FileSpan`**, **`DirSpan`** -- what a span is: the extent of a set of
  addresses.
* **`Furnished`** -- every live inode has a block; without one `get_spans` would print its sentinel.
* **`Represents.getSpans_ok`**, **`Represents.fileSpans_ok`**, **`Represents.dirSpans_ok`** -- the
  loops, in a consistent state.
* **`spans_exact`** -- what is printed is each file and each directory with its span.
-/

namespace OsLab.Ffs

open Extent

/-! ## The code -/

/-- `group_size` -/
def Config.groupSize (c : Config) : Nat := c.inodesPerGroup + c.blocksPerGroup

/-- `inode_address` -/
def inodeAddress (c : Config) (inodeNumber : Int) : Int :=
  inodeNumber % c.inodesPerGroup + inodeNumber / c.inodesPerGroup * c.groupSize

/-- `data_address` -/
def dataAddress (c : Config) (d : Int) : Int :=
  d % c.blocksPerGroup + d / c.blocksPerGroup * c.groupSize + c.inodesPerGroup

/-- What `get_spans` returns after the inode number. -/
structure Reach where
  inodeAddress : Int
  minAddress : Int
  maxAddress : Int

/-- `file_span` -/
def Reach.fileSpan (reach : Reach) : Int :=
  let abs := stretch (reach.minAddress, reach.maxAddress) reach.inodeAddress
  abs.2 - abs.1

/-- The variables of the first loop of `do_all_spans`. A file is printed with its `file_span`. -/
structure FileSpans where
  spanResults : Int → Option Reach
  printed : List (Str × Int)

namespace Fs

section Spans

variable (c : Config) (s : Fs)

def getSpans (path : Str) : Except Abort (Int × Reach) := do
  let inodeNumber := s.nameToInode path
  let dataBlocks ← lookup s.inodeBlocks inodeNumber
  let outside : Int × Int := (1 + c.numGroups * c.groupSize, -1)
  let ends := (dataBlocks.map (dataAddress c)).foldl stretch outside
  return (inodeNumber, ⟨inodeAddress c inodeNumber, ends.1, ends.2⟩)

/-- One round of the first loop. -/
def fileSpan (found : FileSpans) (f : Str) : Except Abort FileSpans := do
  let (inodeNumber, reach) ← s.getSpans c f
  let type ← lookup s.inodeType inodeNumber
  if type = .directory then return found
  assert (found.spanResults inodeNumber).isNone "inode_number not in span_results"
  return {
    spanResults := Function.update found.spanResults inodeNumber (some reach)
    printed := found.printed ++ [(f, reach.fileSpan)] }

/-- One round of the loop over the entries of a directory. -/
def entryAddresses (spanResults : Int → Option Reach) (allAddresses : List Int)
    (entry : Str × Int) : Except Abort (List Int) := do
  if entry.1 = ['.'] ∨ entry.1 = ['.', '.'] then return allAddresses
  let type ← lookup s.inodeType entry.2
  if type = .directory then return allAddresses
  let reach ← lookup spanResults entry.2
  return allAddresses ++ [reach.inodeAddress, reach.minAddress, reach.maxAddress]

/-- One round of the second loop. -/
def dirSpan (spanResults : Int → Option Reach) (printed : List (Str × Int)) (f : Str) :
    Except Abort (List (Str × Int)) := do
  let (inodeNumber, reach) ← s.getSpans c f
  let type ← lookup s.inodeType inodeNumber
  if type ≠ .directory then return printed
  let entries ← lookup s.dirData inodeNumber
  let allAddresses ← entries.foldlM (s.entryAddresses spanResults)
    [reach.inodeAddress, reach.minAddress, reach.maxAddress]
  let allSorted := allAddresses.mergeSort (· ≤ ·)
  let last ← item allSorted (allSorted.length - 1 : Nat)
  let first ← item allSorted (0 : Nat)
  return printed ++ [(f, last - first)]

/-- The files and the directories with their spans. The averages are left out; that of the
directories divides by their number. -/
def doAllSpans : Except Abort (List (Str × Int) × List (Str × Int)) := do
  let names := s.nameToInodeMap.keys
  let found ← names.foldlM (s.fileSpan c) ⟨fun _ => none, []⟩
  let dirs ← names.foldlM (s.dirSpan c found.spanResults) []
  if dirs.length = 0 then throw .zeroDivisionError
  return (found.printed, dirs)

end Spans

end Fs

/-! ## What the spans are for -/

section Meaning

variable (c : Config) (s : Fs)

/-- Where the blocks of an inode lie. -/
def blockAddresses (v : Int) : Set Int :=
  {a | ∃ numbers, s.inodeBlocks v = some numbers ∧ a ∈ numbers.map (dataAddress c)}

/-- Where an inode and its blocks lie. -/
def addresses (v : Int) : Set Int := insert (inodeAddress c v) (blockAddresses c s v)

/-- `w` is a regular file in the directory `d`. -/
def FileIn (s : Fs) (d w : Int) : Prop :=
  s.inodeType w = some .regular ∧
    ∃ f, s.nameToInodeMap.lookup f = some w ∧ s.nameToInodeMap.lookup (getParent f).1 = some d

/-- `f` is a regular file, and what belongs to it spans `n`. -/
def FileSpan (f : Str) (n : Int) : Prop :=
  ∃ v, s.nameToInodeMap.lookup f = some v ∧ s.inodeType v = some .regular ∧
    HasExtent (addresses c s v) n

/-- `f` is a directory which, with the regular files in it, spans `n`. -/
def DirSpan (f : Str) (n : Int) : Prop :=
  ∃ d, s.nameToInodeMap.lookup f = some d ∧ s.inodeType d = some .directory ∧
    HasExtent (⋃ w ∈ {w | w = d ∨ FileIn s d w}, addresses c s w) n

end Meaning

/-! ## Every live inode has a block -/

/-- Every live inode has a block, and every directory its two dots. -/
structure Furnished (s : Fs) : Prop where
  block : ∀ {f v}, s.nameToInodeMap.lookup f = some v → s.inodeBlocks v ≠ some []
  dots : ∀ {d entries}, s.dirData d = some entries → ∀ e ∈ emptyDirectory, e ∈ entries

section Furnished

variable {c : Config} {s t : Fs} {blocks slots : Int → List (Nat × Nat)} {path symbol : Str}
  {type : FileType} {d v : Int} {entries : List (Str × Int)} {p : Nat × Nat}
  {cells : List (Nat × Nat)} {cmd : Command}

/-- In a new file system the root has its block and its two dots. -/
theorem furnished_new (h : Fs.new c = .ok s) : Furnished s := by
  unfold Fs.new at h
  obtain ⟨inodeBitmap, _, h⟩ := bind_eq_ok.mp h
  obtain ⟨dataBitmap, _, h⟩ := bind_eq_ok.mp h
  obtain rfl := Except.ok.inj h
  constructor
  · intro f v _ hempty
    have hlisted : Function.update (fun _ : Int => none) 0 (some [(0 : Int)]) v = some [] := hempty
    by_cases hv : v = 0
    · rw [hv, Function.update_self] at hlisted
      cases hlisted
    · rw [Function.update_of_ne hv] at hlisted
      cases hlisted
  · intro d entries hdir e he
    have hdir : Function.update (fun _ => none) 0 (some emptyDirectory) d = some entries := hdir
    by_cases hd : d = 0
    · rw [hd, Function.update_self] at hdir
      rwa [← Option.some.inj hdir]
    · rw [Function.update_of_ne hd] at hdir
      cases hdir

/-- A create that asks for a block keeps every live inode furnished. -/
theorem Furnished.created (h : Furnished s) (hrep : Represents c s blocks slots)
    (hcr : Creating s path type d entries p cells) (hcells : cells ≠ []) :
    Furnished (afterCreate c s path type d entries p cells symbol) := by
  have hfresh := hrep.toStored.fresh hcr.slot
  constructor
  · intro f v hf
    show Function.update s.inodeBlocks _ _ v ≠ _
    rcases lookup_insert_iff.mp hf with ⟨_, rfl⟩ | ⟨_, hf⟩
    · rw [Function.update_self]
      simpa using hcells
    · have hne : v ≠ number c.inodesPerGroup p := fun heq => hfresh f (heq ▸ hf)
      rw [Function.update_of_ne hne]
      exact h.block hf
  · intro d' entries' hdir e he
    rcases (dirData_afterCreate hfresh hrep.toNamed hcr).mp hdir with
      ⟨_, _, rfl⟩ | ⟨_, rfl⟩ | ⟨_, hdir⟩
    · exact he
    · exact List.mem_append_left _ (h.dots hcr.dir e he)
    · exact h.dots hdir e he

/-- So does a delete, which takes nothing from the others. -/
theorem Furnished.deleted (h : Furnished s) (hrep : Represents c s blocks slots)
    (hdel : Deleting s path d v entries) :
    Furnished (afterDelete s path d v entries p cells symbol) := by
  constructor
  · intro f w hf
    obtain ⟨hne, hlive⟩ := lookup_erase_iff.mp hf
    show Function.update s.inodeBlocks v _ w ≠ _
    have hw : w ≠ v := by
      rintro rfl
      exact hne (hrep.inj hlive hdel.file)
    rw [Function.update_of_ne hw]
    exact h.block hlive
  · intro d' entries' hdir e he
    have hdir : Function.update s.dirData d
        (some (entries.erase ((getParent path).2, v))) d' = some entries' := hdir
    by_cases hd : d' = d
    · rw [hd, Function.update_self] at hdir
      rw [← Option.some.inj hdir]
      -- the dots stand for directories
      have hne : e ≠ ((getParent path).2, v) := by
        rintro rfl
        have hv : v = 0 := by
          simp only [emptyDirectory, List.mem_cons, Prod.mk.injEq, List.not_mem_nil,
            or_false] at he
          omega
        have hregular := hdel.regular
        rw [hv, hrep.rootType] at hregular
        cases hregular
      exact (List.mem_erase_of_ne hne).mpr (h.dots hdel.dir e he)
    · rw [Function.update_of_ne hd] at hdir
      exact h.dots hdir e he

/-- A command that returns keeps the furnishing, if a create asks for a block. -/
theorem Furnished.step (h : Furnished s) (hrep : Represents c s blocks slots)
    (halloc : ∀ path size type, cmd.creates = some (path, size, type) →
      ∀ d entries, Fs.Accepted s path size d entries → Fs.Allocates c s path size type)
    (hsized : cmd.Sized) (hown : FreesOwn c s cmd) (hstep : (commands c).step s cmd t) :
    Furnished t := by
  have hcreate : ∀ {path : Str} {size : Nat} {type : FileType} {fuel : Nat} {rc : Int},
      type ≠ .empty → cmd.creates = some (path, size, type) →
      s.doCreate c fuel path size type = .ok (some (rc, t)) → Furnished t := by
    intro path size type fuel rc htype hcreates hrun
    rcases hrep.create_changes htype (halloc _ _ _ hcreates) hrun with
      rfl | ⟨d, entries, p, cells, symbol, hcr, hlength, _, rfl⟩
    · exact h
    · apply h.created hrep hcr
      rintro rfl
      have := hsized _ _ _ hcreates
      simp at hlength
      omega
  obtain ⟨fuel, rc, hrun⟩ := hstep
  cases cmd with
  | file path size => exact hcreate (by decide) rfl hrun
  | dir path => exact hcreate (by decide) rfl hrun
  | delete path =>
    obtain ⟨r, hdelete, hrun⟩ := bind_eq_ok.mp hrun
    cases hrun
    rcases hrep.delete_changes hown hdelete with
      rfl | ⟨d, entries, v, p, symbol, hdel, _, _, _, rfl⟩
    · exact h
    · exact h.deleted hrep hdel

/-- In every state of a run, live inodes are furnished, beside the consistency. -/
theorem furnished_of_reachable (hfar : c.allocateFaraway = 1)
    (hcontig : 1 ≤ c.contigAllocationPolicy)
    (h : ((commands c).restrict fun s cmd => cmd.Sized ∧ FreesOwn c s cmd).Reachable s) :
    Consistent c s ∧ Furnished s := by
  apply h.invariant
  · intro s hinit
    exact ⟨consistent_new hinit, furnished_new hinit⟩
  · rintro s cmd t ⟨hs, hfurnished⟩ ⟨⟨hsized, hown⟩, hstep⟩
    have hcons := hs
    obtain ⟨_, _, hrep⟩ := hs
    have halloc : ∀ path size type, cmd.creates = some (path, size, type) →
        ∀ d entries, Fs.Accepted s path size d entries → Fs.Allocates c s path size type :=
      fun path size type hcreates d entries hacc => Fs.allocates_of_config hrep.toStored hfar
        hcontig hacc.inodes (hsized path size type hcreates) type
    exact ⟨hcons.step halloc hown hstep, hfurnished.step hrep halloc hsized hown hstep⟩

end Furnished

/-! ## The addresses of a live inode -/

section Reaching

variable {c : Config} {s : Fs} {blocks slots : Int → List (Nat × Nat)} {f : Str} {v d w : Int}
  {reach : Reach}

/-- The inode comes before the blocks of its group, at its own place in a cell of the whole disk. -/
theorem inodeAddress_number {p : Nat × Nat} (hp : p.2 < c.inodesPerGroup) :
    inodeAddress c (number c.inodesPerGroup p) = number c.groupSize p := by
  unfold inodeAddress
  rw [number_ediv hp, number_emod hp]
  rfl

/-- The blocks of a group come behind its inodes. -/
theorem dataAddress_number {q : Nat × Nat} (hq : q.2 < c.blocksPerGroup) :
    dataAddress c (number c.blocksPerGroup q) =
      number c.groupSize (q.1, c.inodesPerGroup + q.2) := by
  unfold dataAddress
  rw [number_ediv hq, number_emod hq]
  unfold number
  dsimp only
  omega

/-- An address lies on the disk, so it is less than the sentinel that the minimum starts with. -/
theorem number_groupSize_le {p : Nat × Nat} (hrow : p.1 < c.numGroups) (hcol : p.2 < c.groupSize) :
    number c.groupSize p ≤ 1 + c.numGroups * c.groupSize := by
  have hle : (p.1 + 1) * c.groupSize ≤ c.numGroups * c.groupSize :=
    Nat.mul_le_mul_right _ hrow
  rw [Nat.add_mul, Nat.one_mul] at hle
  have hnat : p.2 + p.1 * c.groupSize ≤ 1 + c.numGroups * c.groupSize := by omega
  unfold number
  exact_mod_cast hnat

/-- The addresses of the blocks are the numbers of cells of the whole disk. -/
theorem Represents.map_dataAddress (h : Represents c s blocks slots) (v : Int) :
    ((blocks v).map (number c.blocksPerGroup)).map (dataAddress c) =
      (blocks v).map fun q => number c.groupSize (q.1, c.inodesPerGroup + q.2) := by
  rw [List.map_map]
  apply List.map_congr_left
  intro q hq
  have hmark := (h.data.mark_iff v q).mp hq
  exact dataAddress_number (h.dataShape.lt_of_get? hmark).2

/-- `reach` is what `get_spans` finds for the inode `v`. -/
structure Reaches (c : Config) (s : Fs) (v : Int) (reach : Reach) : Prop where
  inode : reach.inodeAddress = inodeAddress c v
  blocks : Ends (blockAddresses c s v) reach.minAddress reach.maxAddress

/-- For every name `get_spans` returns the reach of its inode. -/
theorem Represents.getSpans_ok (h : Represents c s blocks slots) (hfurnished : Furnished s)
    (hf : s.nameToInodeMap.lookup f = some v) :
    ∃ reach, s.getSpans c f = .ok (v, reach) ∧ Reaches c s v reach := by
  have hlisted := h.listed hf
  unfold Fs.getSpans
  rw [Fs.nameToInode_eq hf]
  dsimp only
  rw [Fs.lookup_eq_ok hlisted]
  refine ⟨_, rfl, rfl, ?_⟩
  have hset : blockAddresses c s v =
      {a | a ∈ ((blocks v).map (number c.blocksPerGroup)).map (dataAddress c)} := by
    unfold blockAddresses
    rw [hlisted]
    simp
  rw [hset]
  apply foldl_stretch
  · intro hnil
    have hblock := hfurnished.block hf
    rw [hlisted, List.map_eq_nil_iff.mp hnil] at hblock
    exact hblock rfl
  · -- the loop starts outside of the disk
    intro a ha
    rw [h.map_dataAddress v] at ha
    obtain ⟨q, hq, rfl⟩ := List.mem_map.mp ha
    obtain ⟨hrow, hcol⟩ := h.dataShape.lt_of_get? ((h.data.mark_iff v q).mp hq)
    have hnonneg : 0 ≤ number c.groupSize (q.1, c.inodesPerGroup + q.2) := number_nonneg
    constructor
    · apply @number_groupSize_le c (q.1, c.inodesPerGroup + q.2) hrow
      show c.inodesPerGroup + q.2 < c.inodesPerGroup + c.blocksPerGroup
      omega
    · show (-1 : Int) ≤ _
      omega

/-- A file does not span less than its blocks. -/
theorem Represents.length_le_span (h : Represents c s blocks slots)
    (hf : s.nameToInodeMap.lookup f = some v) {n : Int} (hn : HasExtent (addresses c s v) n) :
    ((blocks v).length : Int) ≤ n := by
  obtain ⟨p, hp, hnumber⟩ := h.slot hf
  have hslot : p ∈ slots v := hp ▸ List.mem_singleton_self p
  have hpcol := (h.inodeShape.lt_of_get? ((h.inodes.mark_iff v p).mp hslot)).2
  have hcols : ∀ q ∈ blocks v, c.inodesPerGroup + q.2 < c.groupSize := by
    intro q hq
    have hcol := (h.dataShape.lt_of_get? ((h.data.mark_iff v q).mp hq)).2
    show c.inodesPerGroup + q.2 < c.inodesPerGroup + c.blocksPerGroup
    omega
  have hpgroup : p.2 < c.groupSize := Nat.lt_add_right _ hpcol
  -- all addresses differ
  have hset : addresses c s v = {a | a ∈ number c.groupSize p ::
      (blocks v).map fun q => number c.groupSize (q.1, c.inodesPerGroup + q.2)} := by
    ext a
    unfold addresses blockAddresses
    rw [hnumber, inodeAddress_number hpcol, ← hnumber, h.listed hf, ← h.map_dataAddress v]
    simp
  have hnodup : (number c.groupSize p ::
      (blocks v).map fun q => number c.groupSize (q.1, c.inodesPerGroup + q.2)).Nodup := by
    rw [List.nodup_cons]
    constructor
    · intro hmem
      obtain ⟨q, hq, heq⟩ := List.mem_map.mp hmem
      have hcol := congrArg Prod.snd (number_inj (hcols q hq) hpgroup heq)
      dsimp only at hcol
      omega
    · apply List.Nodup.map_on _ (h.data.nodup v)
      intro q hq r hr heq
      have hpair := number_inj (hcols q hq) (hcols r hr) heq
      obtain ⟨hrow, hcol⟩ := Prod.mk.inj hpair
      exact Prod.ext hrow (by omega)
  rw [hset] at hn
  have hle := HasExtent.length_le hnodup hn
  rw [List.length_cons, List.length_map] at hle
  omega

/-! ## The loops -/

/-- The ends of what belongs to an inode. -/
def ends (c : Config) (s : Fs) (v : Int) : Set Int :=
  insert (inodeAddress c v)
    {a | ∃ lo hi, Ends (blockAddresses c s v) lo hi ∧ (a = lo ∨ a = hi)}

theorem Reaches.mem_ends (h : Reaches c s v reach) {a : Int} :
    a ∈ ends c s v ↔ a ∈ [reach.inodeAddress, reach.minAddress, reach.maxAddress] := by
  obtain ⟨hinode, hblocks⟩ := h
  simp only [ends, Set.mem_insert_iff, Set.mem_ofPred_eq, List.mem_cons, List.not_mem_nil, or_false,
    hinode]
  apply or_congr_right
  constructor
  · rintro ⟨lo, hi, hends, ha⟩
    obtain ⟨rfl, rfl⟩ := hends.unique hblocks
    exact ha
  · intro ha
    exact ⟨_, _, hblocks, ha⟩

theorem ends_subset (c : Config) (s : Fs) (v : Int) : ends c s v ⊆ addresses c s v := by
  apply Set.insert_subset_insert
  rintro a ⟨lo, hi, hends, rfl | rfl⟩
  · exact hends.least.1
  · exact hends.greatest.1

theorem Reaches.between (h : Reaches c s v reach) {b : Int} (hb : b ∈ addresses c s v) :
    (∃ a ∈ ends c s v, a ≤ b) ∧ ∃ a ∈ ends c s v, b ≤ a := by
  rcases hb with rfl | hb
  · exact ⟨⟨_, Set.mem_insert .., le_rfl⟩, ⟨_, Set.mem_insert .., le_rfl⟩⟩
  · exact ⟨⟨_, Or.inr ⟨_, _, h.blocks, Or.inl rfl⟩, h.blocks.least.2 hb⟩,
      ⟨_, Or.inr ⟨_, _, h.blocks, Or.inr rfl⟩, h.blocks.greatest.2 hb⟩⟩

/-- The distance that the first loop prints is the extent of the inode and its blocks. -/
theorem Reaches.hasExtent (h : Reaches c s v reach) :
    HasExtent (addresses c s v) reach.fileSpan := by
  refine ⟨_, _, ?_, rfl⟩
  rw [stretch_eq, h.inode]
  exact h.blocks.insert _

end Reaching

section Loops

variable {c : Config} {s : Fs} {blocks slots : Int → List (Nat × Nat)}

theorem mem_keys_iff {f : Str} :
    f ∈ s.nameToInodeMap.keys ↔ ∃ v, s.nameToInodeMap.lookup f = some v := by
  rw [← Option.isSome_iff_exists, AList.lookup_isSome]
  rfl

/-- One more round of a loop that prints what `Q` says about its element. -/
theorem printed_next {Q : Str → Int → Prop} {done : List Str} {printed : List (Str × Int)} {f : Str}
    {n : Int} (h : ∀ g m, (g, m) ∈ printed ↔ g ∈ done ∧ Q g m) (hf : ∀ m, Q f m ↔ m = n)
    (g : Str) (m : Int) : (g, m) ∈ printed ++ [(f, n)] ↔ g ∈ done ++ [f] ∧ Q g m := by
  simp only [List.mem_append, List.mem_singleton, Prod.mk.injEq, h]
  constructor
  · rintro (⟨hg, hQ⟩ | ⟨rfl, rfl⟩)
    · exact ⟨Or.inl hg, hQ⟩
    · exact ⟨Or.inr rfl, (hf _).mpr rfl⟩
  · rintro ⟨hg | rfl, hQ⟩
    · exact Or.inl ⟨hg, hQ⟩
    · exact Or.inr ⟨rfl, (hf m).mp hQ⟩

/-- One more round that prints nothing. -/
theorem printed_skip {Q : Str → Int → Prop} {done : List Str} {printed : List (Str × Int)} {f : Str}
    (h : ∀ g m, (g, m) ∈ printed ↔ g ∈ done ∧ Q g m) (hf : ∀ m, ¬Q f m) (g : Str) (m : Int) :
    (g, m) ∈ printed ↔ g ∈ done ++ [f] ∧ Q g m := by
  rw [h, List.mem_append, List.mem_singleton]
  constructor
  · rintro ⟨hg, hQ⟩
    exact ⟨Or.inl hg, hQ⟩
  · rintro ⟨hg | rfl, hQ⟩
    · exact ⟨hg, hQ⟩
    · exact absurd hQ (hf m)

/-- What the first loop has found after the names `done`. -/
structure FilesDone (c : Config) (s : Fs) (done : List Str) (found : FileSpans) : Prop where
  reach : ∀ {f v}, f ∈ done → s.nameToInodeMap.lookup f = some v →
    s.inodeType v = some .regular → ∃ reach, found.spanResults v = some reach ∧ Reaches c s v reach
  new : ∀ {v}, (∀ f ∈ done, s.nameToInodeMap.lookup f ≠ some v) → found.spanResults v = none
  printed : ∀ f n, (f, n) ∈ found.printed ↔ f ∈ done ∧ FileSpan c s f n

/-- One round of the first loop, over one more name. -/
theorem FilesDone.round {done : List Str} {found : FileSpans} {f : Str} {v : Int}
    (h : FilesDone c s done found) (hrep : Represents c s blocks slots)
    (hfurnished : Furnished s) (hf : s.nameToInodeMap.lookup f = some v) (hnew : f ∉ done) :
    ∃ next, s.fileSpan c found f = .ok next ∧ FilesDone c s (done ++ [f]) next := by
  obtain ⟨reach, hspans, hreach⟩ := hrep.getSpans_ok hfurnished hf
  unfold Fs.fileSpan
  rw [hspans]
  rcases hrep.typed hf with ⟨htype, _⟩ | ⟨htype, _⟩
  · -- a regular file
    -- Two names never share an inode, so the assertion on `span_results` holds.
    have hfresh : found.spanResults v = none := h.new fun g hg heq => hnew (hrep.inj hf heq ▸ hg)
    refine ⟨⟨Function.update found.spanResults v (some reach), found.printed ++ [(f, reach.fileSpan)]⟩,
      ?_, ?_⟩
    · show (lookup s.inodeType v >>= _) = _
      rw [Fs.lookup_eq_ok htype]
      show (assert (found.spanResults v).isNone _ >>= _) = _
      rw [hfresh]
      rfl
    · constructor
      · intro g w hg hw hregular
        dsimp only
        by_cases hne : w = v
        · rw [hne, Function.update_self]
          exact ⟨reach, rfl, hreach⟩
        · rw [Function.update_of_ne hne]
          rcases List.mem_append.mp hg with hg | hg
          · exact h.reach hg hw hregular
          · rw [List.mem_singleton.mp hg, hf] at hw
            exact absurd (Option.some.inj hw).symm hne
      · intro w hw
        have hne : w ≠ v := by
          rintro rfl
          exact hw f (List.mem_append_right _ (List.mem_singleton_self f)) hf
        dsimp only
        rw [Function.update_of_ne hne]
        exact h.new fun g hg => hw g (List.mem_append_left _ hg)
      -- The extent is determined by the file, so what is printed is the only candidate.
      · apply printed_next h.printed
        intro m
        constructor
        · rintro ⟨w, hw, _, hm⟩
          rw [hf] at hw
          obtain rfl := Option.some.inj hw
          exact hm.unique hreach.hasExtent
        · rintro rfl
          exact ⟨v, hf, htype, hreach.hasExtent⟩
  · -- a directory is passed over
    refine ⟨found, ?_, ?_, ?_, ?_⟩
    · show (lookup s.inodeType v >>= _) = _
      rw [Fs.lookup_eq_ok htype]
      rfl
    · intro g w hg hw hregular
      rcases List.mem_append.mp hg with hg | hg
      · exact h.reach hg hw hregular
      · rw [List.mem_singleton.mp hg, hf] at hw
        rw [← Option.some.inj hw, htype] at hregular
        cases hregular
    · intro w hw
      exact h.new fun g hg => hw g (List.mem_append_left _ hg)
    · apply printed_skip h.printed
      rintro m ⟨w, hw, hregular, _⟩
      rw [hf] at hw
      rw [← Option.some.inj hw, htype] at hregular
      cases hregular

/-- The first loop: all names are done, and each regular file is printed with its span. -/
theorem Represents.fileSpans_ok (hrep : Represents c s blocks slots) (hfurnished : Furnished s) :
    ∃ found, s.nameToInodeMap.keys.foldlM (s.fileSpan c) ⟨fun _ => none, []⟩ = .ok found ∧
      FilesDone c s s.nameToInodeMap.keys found := by
  apply foldlM_induction
  · constructor
    · intro f v hf
      cases hf
    · intro v _
      rfl
    · simp
  · intro done f rest found hkeys hdone
    have hmem : f ∈ s.nameToInodeMap.keys := hkeys ▸ List.mem_append_right _ (List.mem_cons_self ..)
    obtain ⟨v, hf⟩ := mem_keys_iff.mp hmem
    have hnodup : (done ++ f :: rest).Nodup := hkeys ▸ s.nameToInodeMap.keys_nodup
    have hnew : f ∉ done := fun hmem =>
      List.disjoint_of_nodup_append hnodup hmem (List.mem_cons_self ..)
    exact hdone.round hrep hfurnished hf hnew

/-! ## Directories -/

/-- What the loop over the entries does not pass over. -/
def Counted (s : Fs) (e : Str × Int) : Prop :=
  e.1 ≠ ['.'] ∧ e.1 ≠ ['.', '.'] ∧ s.inodeType e.2 = some .regular

theorem Represents.counted_iff (hrep : Represents c s blocks slots) (hfurnished : Furnished s)
    {d w : Int} {entries : List (Str × Int)} (hdir : s.dirData d = some entries) :
    (∃ e ∈ entries, Counted s e ∧ e.2 = w) ↔ FileIn s d w := by
  constructor
  · rintro ⟨⟨n, w⟩, hmem, ⟨_, _, hregular⟩, rfl⟩
    rcases hrep.name hdir hmem with rfl | ⟨f, _, hf, hparent, _⟩
    · rw [hrep.rootType] at hregular
      cases hregular
    · exact ⟨hregular, f, hf, hparent⟩
  · rintro ⟨hregular, f, hf, hparent⟩
    have hroot : w ≠ 0 := by
      rintro rfl
      rw [hrep.rootType] at hregular
      cases hregular
    have hne : f ≠ ['/'] := by
      rintro rfl
      rw [hrep.root] at hf
      exact hroot (Option.some.inj hf).symm
    obtain ⟨d', entries', hparent', hdir', hmem⟩ := hrep.entry hne hf
    rw [hparent] at hparent'
    obtain rfl := Option.some.inj hparent'
    rw [hdir] at hdir'
    obtain rfl := Option.some.inj hdir'
    -- the names of the dots are taken
    have hdot : ∀ n : Str, (n, (0 : Int)) ∈ emptyDirectory → (getParent f).2 ≠ n := by
      intro n hn heq
      have hsame := List.inj_on_of_nodup_map (hrep.toNamed.nodup hdir) hmem
        (hfurnished.dots hdir _ hn) heq
      exact hroot (congrArg Prod.snd hsame)
    exact ⟨_, hmem, ⟨hdot _ (by simp [emptyDirectory]), hdot _ (by simp [emptyDirectory]), hregular⟩,
      rfl⟩

/-- The loop over the entries of a directory collects the ends of the regular files in it. -/
theorem Represents.entryAddresses_ok (hrep : Represents c s blocks slots) {found : FileSpans}
    (hfound : FilesDone c s s.nameToInodeMap.keys found) {d : Int} {entries : List (Str × Int)}
    (hdir : s.dirData d = some entries) (start : List Int) :
    ∃ all, entries.foldlM (s.entryAddresses found.spanResults) start = .ok all ∧
      ∀ a, a ∈ all ↔ a ∈ start ∨ ∃ e ∈ entries, Counted s e ∧ a ∈ ends c s e.2 := by
  apply @foldlM_induction _ _ _ _ fun done all =>
    ∀ a, a ∈ all ↔ a ∈ start ∨ ∃ e ∈ done, Counted s e ∧ a ∈ ends c s e.2
  · simp
  · intro done e rest all hentries hall
    -- An entry passed over adds neither to the list nor to what it should hold.
    have hskip : ¬Counted s e → ∀ a, a ∈ all ↔
        a ∈ start ∨ ∃ e' ∈ done ++ [e], Counted s e' ∧ a ∈ ends c s e'.2 := by
      intro hnot a
      have hnone : ¬(Counted s e ∧ a ∈ ends c s e.2) := fun hcounted => hnot hcounted.1
      rw [hall a]
      simp only [List.mem_append, List.mem_singleton, or_and_right, exists_or, exists_eq_left,
        or_iff_left hnone]
    have hmem : e ∈ entries := hentries ▸ List.mem_append_right _ (List.mem_cons_self ..)
    unfold Fs.entryAddresses
    by_cases hdots : e.1 = ['.'] ∨ e.1 = ['.', '.']
    · rw [if_pos hdots]
      exact ⟨all, rfl, hskip fun hcounted => hdots.elim hcounted.1 hcounted.2.1⟩
    · rw [if_neg hdots]
      -- Each entry names an inode in use, if only the root.
      obtain ⟨f, hf⟩ : ∃ f, s.nameToInodeMap.lookup f = some e.2 := by
        rcases hrep.name hdir hmem with hzero | ⟨f, _, hf, _⟩
        · exact ⟨['/'], hzero ▸ hrep.root⟩
        · exact ⟨f, hf⟩
      rcases hrep.typed hf with ⟨htype, _⟩ | ⟨htype, _⟩
      · -- the first loop has been at every regular file
        obtain ⟨reach, hresult, hreach⟩ := hfound.reach (mem_keys_iff.mpr ⟨_, hf⟩) hf htype
        refine ⟨all ++ [reach.inodeAddress, reach.minAddress, reach.maxAddress], ?_, fun a => ?_⟩
        · show (lookup s.inodeType e.2 >>= _) = _
          rw [Fs.lookup_eq_ok htype]
          show (lookup found.spanResults e.2 >>= _) = _
          rw [Fs.lookup_eq_ok hresult]
          rfl
        · have hcounted : Counted s e := by
            rw [not_or] at hdots
            exact ⟨hdots.1, hdots.2, htype⟩
          rw [List.mem_append, hall a, ← hreach.mem_ends]
          simp only [List.mem_append, List.mem_singleton, or_and_right, exists_or, exists_eq_left,
            and_iff_right hcounted, or_assoc]
      -- A subdirectory does not count to the span.
      · refine ⟨all, ?_, hskip fun hcounted => ?_⟩
        · show (lookup s.inodeType e.2 >>= _) = _
          rw [Fs.lookup_eq_ok htype]
          rfl
        · rw [hcounted.2.2] at htype
          cases htype

/-- A directory is printed with the distance of the ends of all it holds. -/
theorem Represents.dirSpan_ok (hrep : Represents c s blocks slots) (hfurnished : Furnished s)
    {found : FileSpans} (hfound : FilesDone c s s.nameToInodeMap.keys found) {f : Str} {d : Int}
    (hf : s.nameToInodeMap.lookup f = some d) (htype : s.inodeType d = some .directory)
    (printed : List (Str × Int)) :
    ∃ n, s.dirSpan c found.spanResults printed f = .ok (printed ++ [(f, n)]) ∧
      HasExtent (⋃ w ∈ {w | w = d ∨ FileIn s d w}, addresses c s w) n := by
  obtain ⟨reach, hspans, hreach⟩ := hrep.getSpans_ok hfurnished hf
  obtain ⟨entries, hdir⟩ : ∃ entries, s.dirData d = some entries := by
    rcases hrep.typed hf with ⟨hregular, _⟩ | ⟨_, hdir⟩
    · rw [htype] at hregular
      cases hregular
    · exact hdir
  obtain ⟨all, hloop, hall⟩ := hrep.entryAddresses_ok hfound hdir
    [reach.inodeAddress, reach.minAddress, reach.maxAddress]
  have hne : all ≠ [] := List.ne_nil_of_mem ((hall _).mpr (Or.inl (List.mem_cons_self ..)))
  obtain ⟨lo, hi, hfirst, hlast, hends⟩ := ends_mergeSort hne rfl
  -- the list holds the ends of the directory and of its files
  have hset : {a | a ∈ all} = ⋃ w ∈ {w | w = d ∨ FileIn s d w}, ends c s w := by
    ext a
    simp only [Set.mem_ofPred_eq, hall, ← hreach.mem_ends, Set.mem_iUnion, exists_prop, or_and_right,
      exists_or, exists_eq_left, ← hrep.counted_iff hfurnished hdir]
    apply or_congr_right
    constructor
    · rintro ⟨e, he, hcounted, ha⟩
      exact ⟨e.2, ⟨e, he, hcounted, rfl⟩, ha⟩
    · rintro ⟨_, ⟨e, he, hcounted, rfl⟩, ha⟩
      exact ⟨e, he, hcounted, ha⟩
  have hlive : ∀ w ∈ {w | w = d ∨ FileIn s d w}, ∃ g, s.nameToInodeMap.lookup g = some w := by
    rintro w (rfl | ⟨_, g, hg, _⟩)
    · exact ⟨f, hf⟩
    · exact ⟨g, hg⟩
  have hbetween : ∀ w ∈ {w | w = d ∨ FileIn s d w}, ∀ b ∈ addresses c s w,
      (∃ a ∈ ends c s w, a ≤ b) ∧ ∃ a ∈ ends c s w, b ≤ a := by
    intro w hw b hb
    obtain ⟨g, hg⟩ := hlive w hw
    obtain ⟨reach', _, hreach'⟩ := hrep.getSpans_ok hfurnished hg
    exact hreach'.between hb
  rw [hset, between_biUnion (fun w _ => ends_subset c s w) hbetween] at hends
  refine ⟨hi - lo, ?_, lo, hi, hends, rfl⟩
  unfold Fs.dirSpan
  rw [hspans]
  show (lookup s.inodeType d >>= _) = _
  rw [Fs.lookup_eq_ok htype]
  show (lookup s.dirData d >>= _) = _
  rw [Fs.lookup_eq_ok hdir]
  show (entries.foldlM (s.entryAddresses found.spanResults) _ >>= _) = _
  rw [hloop]
  show (item _ _ >>= _) = _
  rw [item_natCast_eq_ok.mpr hlast]
  show (item _ _ >>= _) = _
  rw [item_natCast_eq_ok.mpr hfirst]
  rfl

/-- The second loop: all names are done, and each directory is printed with its span. -/
theorem Represents.dirSpans_ok (hrep : Represents c s blocks slots) (hfurnished : Furnished s)
    {found : FileSpans} (hfound : FilesDone c s s.nameToInodeMap.keys found) :
    ∃ dirs, s.nameToInodeMap.keys.foldlM (s.dirSpan c found.spanResults) [] = .ok dirs ∧
      ∀ f n, (f, n) ∈ dirs ↔ f ∈ s.nameToInodeMap.keys ∧ DirSpan c s f n := by
  apply @foldlM_induction _ _ _ _ fun done dirs =>
    ∀ f n, (f, n) ∈ dirs ↔ f ∈ done ∧ DirSpan c s f n
  · simp
  · intro done f rest printed hkeys hprinted
    have hmem : f ∈ s.nameToInodeMap.keys := hkeys ▸ List.mem_append_right _ (List.mem_cons_self ..)
    obtain ⟨d, hf⟩ := mem_keys_iff.mp hmem
    rcases hrep.typed hf with ⟨htype, _⟩ | ⟨htype, _⟩
    · -- a regular file is passed over
      refine ⟨printed, ?_, printed_skip hprinted ?_⟩
      · obtain ⟨reach, hspans, _⟩ := hrep.getSpans_ok hfurnished hf
        unfold Fs.dirSpan
        rw [hspans]
        show (lookup s.inodeType d >>= _) = _
        rw [Fs.lookup_eq_ok htype]
        rfl
      · rintro m ⟨w, hw, hdirectory, _⟩
        rw [hf] at hw
        rw [← Option.some.inj hw, htype] at hdirectory
        cases hdirectory
    · obtain ⟨n, hround, hextent⟩ := hrep.dirSpan_ok hfurnished hfound hf htype printed
      refine ⟨printed ++ [(f, n)], hround, printed_next hprinted fun m => ?_⟩
      constructor
      · rintro ⟨w, hw, _, hm⟩
        rw [hf] at hw
        obtain rfl := Option.some.inj hw
        exact hm.unique hextent
      · rintro rfl
        exact ⟨d, hf, htype, hextent⟩

end Loops

/-! ## Over whole runs -/

section Runs

variable {c : Config} {s : Fs}

/-- **The printed spans are exact.** In every state that sized commands reach, with each delete
freeing its own cells, `do_all_spans` ends and prints every regular file and every directory with
its span, and no file spans less than its blocks. -/
theorem spans_exact (hfar : c.allocateFaraway = 1) (hcontig : 1 ≤ c.contigAllocationPolicy)
    (h : ((commands c).restrict fun s cmd => cmd.Sized ∧ FreesOwn c s cmd).Reachable s) :
    ∃ files dirs, s.doAllSpans c = .ok (files, dirs) ∧
      (∀ f n, (f, n) ∈ files ↔ FileSpan c s f n) ∧ (∀ f n, (f, n) ∈ dirs ↔ DirSpan c s f n) ∧
      ∀ f n v numbers, (f, n) ∈ files → s.nameToInodeMap.lookup f = some v →
        s.inodeBlocks v = some numbers → (numbers.length : Int) ≤ n := by
  obtain ⟨⟨blocks, slots, hrep⟩, hfurnished⟩ := furnished_of_reachable hfar hcontig h
  obtain ⟨found, hfiles, hfound⟩ := hrep.fileSpans_ok hfurnished
  obtain ⟨dirs, hdirs, hprinted⟩ := hrep.dirSpans_ok hfurnished hfound
  have hkeys : ∀ {f v}, s.nameToInodeMap.lookup f = some v → f ∈ s.nameToInodeMap.keys :=
    fun hf => mem_keys_iff.mpr ⟨_, hf⟩
  -- the root is a directory
  have hroot : dirs.length ≠ 0 := by
    obtain ⟨n, _, hextent⟩ := hrep.dirSpan_ok hfurnished hfound hrep.root hrep.rootType []
    have hmem : (['/'], n) ∈ dirs :=
      (hprinted _ _).mpr ⟨hkeys hrep.root, 0, hrep.root, hrep.rootType, hextent⟩
    exact (List.length_pos_of_mem hmem).ne'
  refine ⟨found.printed, dirs, ?_, fun f n => ?_, fun f n => ?_, ?_⟩
  · unfold Fs.doAllSpans
    simp only [bind, Except.bind, hfiles, hdirs, if_neg hroot]
    rfl
  · rw [hfound.printed]
    constructor
    · exact And.right
    · intro hspan
      have ⟨v, hf, _⟩ := hspan
      exact ⟨hkeys hf, hspan⟩
  · rw [hprinted]
    constructor
    · exact And.right
    · intro hspan
      have ⟨d, hf, _⟩ := hspan
      exact ⟨hkeys hf, hspan⟩
  · intro f n v numbers hmem hf hlisted
    obtain ⟨_, w, hw, _, hextent⟩ := (hfound.printed f n).mp hmem
    rw [hf] at hw
    obtain rfl := Option.some.inj hw
    rw [hrep.listed hf] at hlisted
    rw [← Option.some.inj hlisted, List.length_map]
    exact hrep.length_le_span hf hextent

theorem spans_exact_square : ∃ s t, Fs.new (squareConfig 3 3) = .ok s ∧
    runCommands (squareConfig 3 3) 9 [.dir ['/', 'd'], .file ['/', 'd', '/', 'a'] 2,
      .file ['/', 'b'] 1] s = .ok (some t) ∧
    ∃ files dirs, t.doAllSpans (squareConfig 3 3) = .ok (files, dirs) ∧
      (∀ f n, (f, n) ∈ files ↔ FileSpan (squareConfig 3 3) t f n) ∧
      (∀ f n, (f, n) ∈ dirs ↔ DirSpan (squareConfig 3 3) t f n) ∧
      ∀ f n v numbers, (f, n) ∈ files → t.nameToInodeMap.lookup f = some v →
        t.inodeBlocks v = some numbers → (numbers.length : Int) ≤ n := by
  have hrun : ∃ s t, Fs.new (squareConfig 3 3) = .ok s ∧
      runCommands (squareConfig 3 3) 9 [.dir ['/', 'd'], .file ['/', 'd', '/', 'a'] 2,
        .file ['/', 'b'] 1] s = .ok (some t) := ⟨_, _, rfl, rfl⟩
  obtain ⟨s, t, hinit, hrun⟩ := hrun
  have hcommands : ∀ cmd ∈ [Command.dir ['/', 'd'], .file ['/', 'd', '/', 'a'] 2,
      .file ['/', 'b'] 1], ∀ s, cmd.Sized ∧ FreesOwn (squareConfig 3 3) s cmd := by
    simp [Command.Sized, Command.creates, FreesOwn]
  have hreach := (run_of_runCommands hrun).restrict hcommands
  exact ⟨s, t, hinit, hrun, spans_exact rfl (by decide) ⟨s, _, hinit, hreach⟩⟩

end Runs

end OsLab.Ffs
