import Mathlib.Data.List.Nodup
import OsLab.Lib.Parity
import OsLab.Raid.Requests

/-!
# RAID-4/5 small writes keep parity

`enqueue45` splits a write into one partial write per stripe; each partial write reads what one of
the two parity methods needs, writes its data blocks and then the parity of the rows it touched. The
first part of this module is about which accesses that is. The second part gives the blocks
contents: a controller that knows only what was read recomputes the parity of the touched rows, and
parity holds again afterwards.

* **`parts_spec`** -- the partial writes of a write: non-empty, each in a stripe of its own, and
  together the whole write.
* **`SmallWriteOk`**, **`smallWriteOk`** -- what the accesses of a partial write have to be, and
  that they are.
* **`newParity_eq`**, **`commit_ok`** -- the parity recomputed from what was read is that of the new
  data, whichever method it was read for.
* **`enqueue45_write`** -- the accesses, the parity and the end of the run of any write.
-/

namespace OsLab

open Striping Parity

namespace Raid

variable (r : Raid)

/-- The place of a data block. -/
def place (b : Nat) : Nat × Nat := r.grid.place r.dataDisk b

/-- The disk `pmap` names for a stripe. -/
def parityDisk (stripe : Nat) : Nat :=
  match r.raidLevel with
  | .five => r.parityDisk5 stripe
  | _ => r.numDisks - 1

/-- RAID-4 or RAID-5. -/
def HasParity : Prop := r.raidLevel = .four ∨ r.raidLevel = .five

section Geometry

variable {r} (h45 : r.HasParity)
include h45

/-- At RAID-4 and RAID-5 the program picks the maps of its level, which do not abort. -/
theorem maps45_eq :
    r.maps45 = .ok (fun b => .ok (r.place b), fun s => .ok (r.parityDisk s)) := by
  rcases h45 with h | h
  · have hbmap : ∀ b, r.bmap4 b = r.place b := r.bmap4_eq_place h
    simp [maps45, h, hbmap, pmap4, parityDisk, pure, Except.pure]
  · have hbmap : r.bmap5 = fun b => .ok (r.place b) := funext (r.bmap5_eq_place h)
    have hpmap : r.pmap5 = fun s => .ok (r.parityDisk s) := by
      funext s
      rw [pmap5_eq r h]
      simp [parityDisk, h]
    simp [maps45, h, hbmap, hpmap, pure, Except.pure]

/-- The stripes of the program are the rows of the grid. -/
theorem blocksInStripe_eq : r.blocksInStripe = r.grid.cols * r.grid.chunk := by
  rcases h45 with h | h <;> simp [blocksInStripe, grid, dataCols, h]

/-- A stripe has at least one block. -/
theorem blocksInStripe_pos : 0 < r.blocksInStripe := by
  rw [blocksInStripe_eq h45]
  exact Nat.mul_pos r.grid.cols_pos r.grid.chunk_pos

/-- The blocks of a stripe are the blocks of that row. -/
theorem row_eq_iff_stripe (b s : Nat) :
    r.grid.row b = s ↔ s * r.blocksInStripe ≤ b ∧ b < s * r.blocksInStripe + r.blocksInStripe := by
  rw [blocksInStripe_eq h45]
  exact r.grid.row_eq_iff b s

/-- Blocks are on disks that exist. -/
theorem place_disk_lt (b : Nat) : (r.place b).1 < r.numDisks := by
  obtain ⟨ps, hps, _, _, hlt⟩ := r.places_ok b
  rcases h45 with h | h
  · obtain rfl : [r.place b] = ps := by
      simpa [place, places, h, bmap4_eq_place r h, pure, Except.pure] using hps
    exact hlt _ (by simp)
  · obtain rfl : [r.place b] = ps := by
      simpa [place, places, h, bmap5_eq_place r h, bind, Except.bind, pure, Except.pure] using hps
    exact hlt _ (by simp)

/-- Parity is on a disk that exists. -/
theorem parityDisk_lt (s : Nat) : r.parityDisk s < r.numDisks := by
  have hdisks := r.two_le_numDisks h45
  rcases h45 with h | h <;> simp only [parityDisk, h, parityDisk5] <;> omega

/-- No data block of a stripe is on the parity disk of the stripe. -/
theorem place_disk_ne_parityDisk (b : Nat) : (r.place b).1 ≠ r.parityDisk (r.grid.row b) := by
  have hdisks := r.two_le_numDisks h45
  have hcol := r.grid.col_lt b
  rcases h45 with h | h
  · have hcol' : r.grid.col b < r.numDisks - 1 := by simpa [grid, dataCols, h] using hcol
    simp only [place, Grid.place, dataDisk, parityDisk, h]
    omega
  · have hcol' : r.grid.col b < r.numDisks - 1 := by simpa [grid, dataCols, h] using hcol
    simpa [place, Grid.place, dataDisk, parityDisk, h] using
      r.dataDisk5_ne_parityDisk5 hdisks (r.grid.row b) hcol'

end Geometry

/-- Different blocks have different places. -/
theorem place_inj : Function.Injective r.place := r.place_injective

/-- The offset of a block on its disk tells its row. -/
theorem place_snd_div (b : Nat) : (r.place b).2 / r.chunkSize = r.grid.row b :=
  r.grid.place_snd_div r.dataDisk b

/-! ## Collected row offsets -/

/-- The collected offsets are those collected before and those of the places. -/
theorem mem_collectOffs (places : List (Nat × Nat)) (offs : List Nat) (off : Nat) :
    off ∈ collectOffs offs places ↔ off ∈ offs ∨ ∃ p ∈ places, p.2 = off := by
  induction places generalizing offs with
  | nil => simp [collectOffs]
  | cons p places ih =>
    have hstep : collectOffs offs (p :: places)
        = collectOffs (if p.2 ∈ offs then offs else offs ++ [p.2]) places := rfl
    rw [hstep, ih]
    split
    case isTrue hmem => aesop
    case isFalse hmem =>
      simp only [List.mem_append, List.mem_cons, List.not_mem_nil, false_or, exists_eq_or_imp,
        or_assoc, @eq_comm _ p.2]

/-- An offset is collected once. -/
theorem nodup_collectOffs (places : List (Nat × Nat)) {offs : List Nat} (h : offs.Nodup) :
    (collectOffs offs places).Nodup := by
  induction places generalizing offs with
  | nil => exact h
  | cons p places ih =>
    have hstep : collectOffs offs (p :: places)
        = collectOffs (if p.2 ∈ offs then offs else offs ++ [p.2]) places := rfl
    rw [hstep]
    apply ih
    split
    case isTrue => exact h
    case isFalse hmem => exact List.nodup_append.mpr ⟨h, by simp, by aesop⟩

/-- The offsets a partial write collects are those of its blocks. -/
theorem mem_offs {p : PartialWrite} {off : Nat} :
    off ∈ p.offs r.place ↔ ∃ b, (p.begin ≤ b ∧ b < p.end_) ∧ (r.place b).2 = off := by
  simp [PartialWrite.offs, mem_collectOffs]

/-! ## Splitting a write by stripes -/

/-- The partial writes of `enqueue45(addr, size, True)`. -/
def parts (addr size : Nat) : List PartialWrite :=
  r.stripeWrites (range (addr / r.blocksInStripe) ((addr + size - 1) / r.blocksInStripe + 1))
    size addr

section Splitting

variable {r} (h45 : r.HasParity)
include h45

/-- A partial write lies inside its stripe and is not empty. -/
def InStripe (r : Raid) (p : PartialWrite) : Prop :=
  p.stripe * r.blocksInStripe ≤ p.begin ∧ p.begin < p.end_ ∧
    p.end_ ≤ p.stripe * r.blocksInStripe + r.blocksInStripe

/-- The loop over stripes from stripe `i` on, with everything before `begin` written. The
induction is on the number of stripes left. -/
theorem stripeWrites_spec (last finish : Nat) (hlast : last * r.blocksInStripe < finish)
    (hfinish : finish ≤ last * r.blocksInStripe + r.blocksInStripe) (n : Nat) :
    ∀ i begin, i + n = last + 1 → i * r.blocksInStripe ≤ begin → begin < finish →
      begin < i * r.blocksInStripe + r.blocksInStripe → i ≤ last →
      let ps := r.stripeWrites (range i (last + 1)) (finish - begin) begin
      (∀ p ∈ ps, InStripe r p) ∧ ps.flatMap (fun p => range p.begin p.end_) = range begin finish ∧
        ps.map PartialWrite.stripe = range i (last + 1) := by
  have hpos := blocksInStripe_pos h45
  induction n with
  | zero => intro i begin hn _ _ _ hi; omega
  | succ n ih =>
    intro i begin hn hib hbegin hend hi
    rw [range_eq_cons (by omega : i < last + 1)]
    simp only [stripeWrites]
    -- The end of the part, by the two clamps of the source.
    generalize hstop : (if (if finish - begin ≥ r.blocksInStripe then begin + r.blocksInStripe
        else begin + (finish - begin)) ≥ i * r.blocksInStripe + r.blocksInStripe
      then i * r.blocksInStripe + r.blocksInStripe
      else if finish - begin ≥ r.blocksInStripe then begin + r.blocksInStripe
        else begin + (finish - begin)) = stop
    have hstop' : stop = min finish (i * r.blocksInStripe + r.blocksInStripe) := by
      rw [← hstop]
      split <;> split <;> omega
    have hleft : finish - begin - (stop - begin) = finish - stop := by omega
    have hin : InStripe r ⟨i, begin, stop⟩ := by
      refine ⟨hib, ?_, ?_⟩
      · show begin < stop
        omega
      · show stop ≤ i * r.blocksInStripe + r.blocksInStripe
        omega
    rw [hleft]
    -- The parts behind begin where this one stops, at the next stripe.
    rcases Nat.lt_or_ge i last with hlt | hge
    · have hnext : (i + 1) * r.blocksInStripe = i * r.blocksInStripe + r.blocksInStripe := by
        rw [Nat.add_mul, Nat.one_mul]
      have hle : (i + 1) * r.blocksInStripe ≤ last * r.blocksInStripe :=
        Nat.mul_le_mul_right _ hlt
      obtain ⟨hrest, hcover, hstripes⟩ :=
        ih (i + 1) stop (by omega) (by omega) (by omega) (by omega) hlt
      refine ⟨List.forall_mem_cons.mpr ⟨hin, hrest⟩, ?_, ?_⟩
      · rw [List.flatMap_cons, hcover]
        show range begin stop ++ range stop finish = range begin finish
        exact range_append (by omega) (by omega)
      · rw [List.map_cons, hstripes]
    · obtain rfl : i = last := by omega
      have hdone : stop = finish := by omega
      simp [stripeWrites, hdone] at hin ⊢
      exact hin

/-- The partial writes of a write are non-empty, each inside its stripe, for different
stripes, and follow one another from `addr` to `addr + size`. -/
theorem parts_spec (addr size : Nat) (hsize : 1 ≤ size) :
    (∀ p ∈ r.parts addr size, InStripe r p) ∧
      (r.parts addr size).flatMap (fun p => range p.begin p.end_) = range addr (addr + size) ∧
      ((r.parts addr size).map PartialWrite.stripe).Nodup := by
  have hpos := blocksInStripe_pos h45
  have hfirst := Nat.div_add_mod' addr r.blocksInStripe
  have hfirst' := Nat.mod_lt addr hpos
  have hlast := Nat.div_add_mod' (addr + size - 1) r.blocksInStripe
  have hlast' := Nat.mod_lt (addr + size - 1) hpos
  have hle : addr / r.blocksInStripe ≤ (addr + size - 1) / r.blocksInStripe :=
    Nat.div_le_div_right (by omega)
  have hspec := stripeWrites_spec h45 ((addr + size - 1) / r.blocksInStripe) (addr + size)
    (by omega) (by omega)
    ((addr + size - 1) / r.blocksInStripe + 1 - addr / r.blocksInStripe)
    (addr / r.blocksInStripe) addr (by omega) (by omega) (by omega) (by omega) hle
  rw [Nat.add_sub_cancel_left] at hspec
  obtain ⟨hin, hcover, hstripes⟩ := hspec
  refine ⟨hin, hcover, ?_⟩
  unfold parts
  rw [hstripes]
  exact nodup_range _ _

end Splitting

/-! ## The accesses of one partial write -/

/-- Block `b` is written by the partial write `p`. -/
def PartialWrite.Writes (p : PartialWrite) (b : Nat) : Prop := p.begin ≤ b ∧ b < p.end_

instance (p : PartialWrite) (b : Nat) : Decidable (p.Writes b) := by
  unfold PartialWrite.Writes
  infer_instance

/-- The reads and writes of a partial write, as the source computes their places. -/
def readsOf (p : PartialWrite) : List Access := r.partialReads r.place r.parityDisk p

/-- The writes of a partial write. -/
def writesOf (p : PartialWrite) : List Access := partialWrites r.place r.parityDisk p

/-- What is read for the row at offset `off`: the old parity and all blocks about to be
overwritten, or all blocks of the row that stay. -/
def RowRead (reads : List Access) (p : PartialWrite) (off : Nat) : Prop :=
  (readAt (r.parityDisk p.stripe, off) ∈ reads ∧
      ∀ b, p.Writes b → (r.place b).2 = off → readAt (r.place b) ∈ reads) ∨
    ∀ b, ¬ p.Writes b → r.grid.row b = p.stripe → (r.place b).2 = off → readAt (r.place b) ∈ reads

/-- What the accesses of a partial write have to be. -/
structure SmallWriteOk (p : PartialWrite) : Prop where
  reads_only : ∀ a ∈ r.readsOf p, a.isWrite = false
  data_once : ∀ b, p.Writes b → (r.writesOf p).count (writeAt (r.place b)) = 1
  parity_once : ∀ b, p.Writes b →
    (r.writesOf p).count (writeAt (r.parityDisk p.stripe, (r.place b).2)) = 1
  nothing_else : ∀ a ∈ r.writesOf p, ∃ b, p.Writes b ∧
    (a = writeAt (r.place b) ∨ a = writeAt (r.parityDisk p.stripe, (r.place b).2))
  same_parity_disk : r.raidLevel = .five → ∀ b, r.grid.row b = p.stripe →
    ∃ disk off, r.bmap5Raw b = .ok (disk, r.parityDisk p.stripe, off)
  parity_disk_free : ∀ b, r.grid.row b = p.stripe → (r.place b).1 ≠ r.parityDisk p.stripe
  data_or_parity : ∀ a ∈ r.readsOf p ++ r.writesOf p,
    (∃ b, r.grid.row b = p.stripe ∧ a.place = r.place b) ∨ a.disk = r.parityDisk p.stripe
  rows_read : ∀ b, p.Writes b → r.RowRead (r.readsOf p) p (r.place b).2

/-- Writes to different places are different accesses. -/
theorem writeAt_injective : Function.Injective writeAt := by
  rintro ⟨d, o⟩ ⟨d', o'⟩ h
  simpa [writeAt] using h

/-- The writes of a partial write are those of its blocks and of the parity of their rows. -/
theorem mem_writesOf {p : PartialWrite} {a : Access} :
    a ∈ r.writesOf p ↔ ∃ b, p.Writes b ∧
      (a = writeAt (r.place b) ∨ a = writeAt (r.parityDisk p.stripe, (r.place b).2)) := by
  simp only [writesOf, partialWrites, List.mem_append, List.mem_map, mem_range, mem_offs,
    PartialWrite.Writes]
  constructor
  · rintro (⟨b, hb, rfl⟩ | ⟨_, ⟨b, hb, rfl⟩, rfl⟩)
    · exact ⟨b, hb, .inl rfl⟩
    · exact ⟨b, hb, .inr rfl⟩
  · rintro ⟨b, hb, rfl | rfl⟩
    · exact .inl ⟨b, hb, rfl⟩
    · exact .inr ⟨_, ⟨b, hb, rfl⟩, rfl⟩

section OnePart

variable {r} (h45 : r.HasParity) {p : PartialWrite} (hin : InStripe r p)
include h45 hin

/-- The blocks of a partial write lie in its stripe. -/
theorem row_of_writes {b : Nat} (hb : p.Writes b) : r.grid.row b = p.stripe := by
  rw [row_eq_iff_stripe h45]
  obtain ⟨hlo, hlt, hhi⟩ := hin
  unfold PartialWrite.Writes at hb
  omega

/-- No place is written twice: data and parity are on different disks, and each row is collected
once. -/
theorem nodup_writesOf : (r.writesOf p).Nodup := by
  unfold writesOf partialWrites
  rw [List.nodup_append]
  refine ⟨?_, ?_, ?_⟩
  · exact (nodup_range _ _).map (writeAt_injective.comp r.place_inj)
  · exact (nodup_collectOffs _ List.nodup_nil).map fun o o' h => by simpa [writeAt] using h
  · -- a data block is never on the parity disk of its stripe
    rintro a ha c hc rfl
    simp only [List.mem_map, mem_range] at ha hc
    obtain ⟨b, hb, rfl⟩ := ha
    obtain ⟨off, _, hoff⟩ := hc
    have hdisk := place_disk_ne_parityDisk h45 b
    rw [row_of_writes h45 hin hb] at hdisk
    exact hdisk (congrArg Access.disk hoff).symm

/-- The rows of a partial write are read as its parity method needs them. -/
theorem rowRead_readsOf {b : Nat} (hb : p.Writes b) :
    r.RowRead (r.readsOf p) p (r.place b).2 := by
  obtain ⟨hlo, hlt, hhi⟩ := hin
  unfold RowRead readsOf partialReads
  split
  · left
    constructor
    · exact List.mem_append_right _ (List.mem_map.mpr ⟨_, r.mem_offs.mpr ⟨b, hb, rfl⟩, rfl⟩)
    · intro b' hb' _
      exact List.mem_append_left _ (List.mem_map.mpr ⟨b', mem_range.mpr hb', rfl⟩)
  · right
    intro b' hb' hrow _
    rw [row_eq_iff_stripe h45] at hrow
    unfold PartialWrite.Writes at hb'
    refine List.mem_map.mpr ⟨b', ?_, rfl⟩
    rw [List.mem_append, mem_range, mem_range]
    omega

/-- Every access of a partial write is at a data block of the stripe or on its parity disk. -/
theorem data_or_parity {a : Access} (ha : a ∈ r.readsOf p ++ r.writesOf p) :
    (∃ b, r.grid.row b = p.stripe ∧ a.place = r.place b) ∨ a.disk = r.parityDisk p.stripe := by
  obtain ⟨hlo, hlt, hhi⟩ := hin
  rw [List.mem_append, mem_writesOf] at ha
  rcases ha with ha | ⟨b, hb, rfl | rfl⟩
  · unfold readsOf partialReads at ha
    split at ha
    · rw [List.mem_append, List.mem_map, List.mem_map] at ha
      rcases ha with ⟨b, hb, rfl⟩ | ⟨off, _, rfl⟩
      · refine .inl ⟨b, ?_, rfl⟩
        rw [row_eq_iff_stripe h45]
        have hb' := mem_range.mp hb
        omega
      · exact .inr rfl
    · obtain ⟨b, hb, rfl⟩ := List.mem_map.mp ha
      refine .inl ⟨b, ?_, rfl⟩
      rw [row_eq_iff_stripe h45]
      rw [List.mem_append, mem_range, mem_range] at hb
      omega
  · exact .inl ⟨b, row_of_writes h45 ⟨hlo, hlt, hhi⟩ hb, rfl⟩
  · exact .inr rfl

/-- The accesses of a partial write are as they have to be. -/
theorem smallWriteOk : SmallWriteOk r p where
  reads_only a ha := by
    unfold readsOf partialReads at ha
    split at ha
    · rw [List.mem_append, List.mem_map, List.mem_map] at ha
      rcases ha with ⟨b, _, rfl⟩ | ⟨off, _, rfl⟩ <;> rfl
    · obtain ⟨b, _, rfl⟩ := List.mem_map.mp ha
      rfl
  data_once b hb :=
    List.count_eq_one_of_mem (nodup_writesOf h45 hin) (r.mem_writesOf.mpr ⟨b, hb, .inl rfl⟩)
  parity_once b hb :=
    List.count_eq_one_of_mem (nodup_writesOf h45 hin) (r.mem_writesOf.mpr ⟨b, hb, .inr rfl⟩)
  nothing_else _ ha := r.mem_writesOf.mp ha
  same_parity_disk h b hrow := by
    refine ⟨(r.place b).1, (r.place b).2, ?_⟩
    simp [bmap5Raw_eq r h b, hrow, parityDisk, h, place]
  parity_disk_free b hrow := hrow ▸ place_disk_ne_parityDisk h45 b
  data_or_parity _ ha := data_or_parity h45 hin ha
  rows_read _ hb := rowRead_readsOf h45 hin hb

end OnePart

/-! ## Contents and parity -/

section Contents

variable {w : Nat}

/-- The blocks of the row at a physical offset. -/
def rowBlocks (off : Nat) : List Nat :=
  (range (off / r.chunkSize * r.blocksInStripe)
    (off / r.chunkSize * r.blocksInStripe + r.blocksInStripe)).filter fun b => (r.place b).2 = off

/-- Every row's parity place holds the xor of the row's data blocks. -/
def ParityOk (content : Nat × Nat → BitVec w) : Prop :=
  ∀ off, content (r.parityDisk (off / r.chunkSize), off) =
    parity (fun b => content (r.place b)) (r.rowBlocks off)

/-- An array of zeros has its parity. -/
theorem parityOk_zero : r.ParityOk fun _ => 0#w := by
  intro off
  symm
  induction r.rowBlocks off with
  | nil => rfl
  | cons b blocks ih => rw [Parity.parity_cons, ih, BitVec.xor_self]

/-- The new parity of a row, from what a controller knows: the contents `content` of the
places that were read, and the new data. `none` if neither method has what it needs. -/
def newParity (reads : List Access) (content : Nat × Nat → BitVec w) (new : Nat → BitVec w)
    (p : PartialWrite) (off : Nat) : Option (BitVec w) :=
  let old := fun b => content (r.place b)
  let written := (r.rowBlocks off).filter fun b => p.Writes b
  let kept := (r.rowBlocks off).filter fun b => !decide (p.Writes b)
  if readAt (r.parityDisk p.stripe, off) ∈ reads ∧ ∀ b ∈ written, readAt (r.place b) ∈ reads then
    some (content (r.parityDisk p.stripe, off) ^^^ parity old written ^^^ parity new written)
  else if ∀ b ∈ kept, readAt (r.place b) ∈ reads then
    some (parity old kept ^^^ parity new written)
  else
    none

/-- What a write of the partial write `p` stores: new parity on the parity disk, new data
elsewhere. -/
def stored (reads : List Access) (content : Nat × Nat → BitVec w) (new : Nat → BitVec w)
    (p : PartialWrite) (a : Access) : Option (BitVec w) :=
  if a.disk = r.parityDisk p.stripe then
    r.newParity reads content new p a.off
  else
    ((range p.begin p.end_).find? fun b => r.place b = a.place).map new

/-- Carry out the writes of a partial write, with everything read beforehand. -/
def commit (new : Nat → BitVec w) (content : Nat × Nat → BitVec w) (p : PartialWrite) :
    Option (Nat × Nat → BitVec w) :=
  (r.writesOf p).foldlM
    (fun content' a => (r.stored (r.readsOf p) content new p a).map
      (Function.update content' a.place)) content

/-- Writes that all store a value known from their place leave that value at their places and
nothing elsewhere. -/
theorem foldlM_update {value : Nat × Nat → BitVec w} {store : Access → Option (BitVec w)}
    (as : List Access) (h : ∀ a ∈ as, store a = some (value a.place))
    (content : Nat × Nat → BitVec w) :
    as.foldlM (fun content' a => (store a).map (Function.update content' a.place)) content =
      some (fun q => if q ∈ as.map Access.place then value q else content q) := by
  induction as generalizing content with
  | nil => rfl
  | cons a as ih =>
    rw [List.forall_mem_cons] at h
    rw [List.foldlM_cons, h.1]
    simp only [Option.map_some, Option.bind_eq_bind, Option.bind_some, ih h.2]
    congr 1
    funext q
    by_cases hq : q ∈ as.map Access.place
    · simp [hq]
    · by_cases ha : q = a.place <;> simp [hq, ha]

/-- The contents of the blocks after the partial write `p`. -/
def newData (content : Nat × Nat → BitVec w) (new : Nat → BitVec w) (p : PartialWrite)
    (b : Nat) : BitVec w :=
  if p.Writes b then new b else content (r.place b)

variable {r} (h45 : r.HasParity)
include h45

/-- The blocks of a row are those with its offset. -/
theorem mem_rowBlocks {b off : Nat} : b ∈ r.rowBlocks off ↔ (r.place b).2 = off := by
  unfold rowBlocks
  rw [List.mem_filter, mem_range, ← row_eq_iff_stripe h45, decide_eq_true_eq]
  refine ⟨And.right, fun h => ⟨?_, h⟩⟩
  rw [← h, place_snd_div]

variable {p : PartialWrite} (hin : InStripe r p)
include hin

/-- Whichever method a row was read for, the recomputed parity is that of the new data. -/
theorem newParity_eq {content : Nat × Nat → BitVec w} (hok : r.ParityOk content)
    (new : Nat → BitVec w) {b : Nat} (hb : p.Writes b) :
    r.newParity (r.readsOf p) content new p (r.place b).2 =
      some (parity (r.newData content new p) (r.rowBlocks (r.place b).2)) := by
  have hstripe : (r.place b).2 / r.chunkSize = p.stripe := by
    rw [place_snd_div, row_of_writes h45 hin hb]
  have hold := hok (r.place b).2
  rw [hstripe] at hold
  have hstay : ∀ i ∈ r.rowBlocks (r.place b).2, decide (p.Writes i) = false →
      r.newData content new p i = content (r.place i) := by
    intro i _ hi
    exact if_neg (of_decide_eq_false hi)
  have hnew : parity (r.newData content new p) ((r.rowBlocks (r.place b).2).filter (p.Writes ·)) =
      parity new ((r.rowBlocks (r.place b).2).filter (p.Writes ·)) := by
    apply parity_congr
    intro i hi
    exact if_pos (of_decide_eq_true (List.mem_filter.mp hi).2)
  unfold newParity
  simp only
  split
  case isTrue =>
    rw [parity_subtractive hstay, hold, hnew]
  case isFalse hsub =>
    rw [if_pos, parity_additive hstay, hnew]
    -- the row was not read for the subtractive method, so it was for the additive one
    intro i hi
    rw [List.mem_filter, mem_rowBlocks h45, Bool.not_eq_true', decide_eq_false_iff_not] at hi
    rcases rowRead_readsOf h45 hin hb with ⟨hparity, hwritten⟩ | hkept
    · refine absurd ⟨hparity, fun j hj => ?_⟩ hsub
      rw [List.mem_filter, mem_rowBlocks h45, decide_eq_true_eq] at hj
      exact hwritten j hj.2 hj.1
    · refine hkept i hi.2 ?_ hi.1
      rw [← place_snd_div, hi.1, hstripe]

/-- A partial write leaves its blocks with the new data, all others as they were, and keeps
parity. -/
theorem commit_ok {content : Nat × Nat → BitVec w} (hok : r.ParityOk content)
    (new : Nat → BitVec w) :
    ∃ content', r.commit new content p = some content' ∧ r.ParityOk content' ∧
      ∀ b, content' (r.place b) = r.newData content new p b := by
  -- What is put at each place, read from the state before the part and not from the writes so far.
  let value : Nat × Nat → BitVec w := fun q =>
    if q.1 = r.parityDisk p.stripe then
      parity (r.newData content new p) (r.rowBlocks q.2)
    else
      (((range p.begin p.end_).find? fun b => r.place b = q).map new).getD 0#w
  have hdata : ∀ b, p.Writes b → (r.place b).1 ≠ r.parityDisk p.stripe := by
    intro b hb
    rw [← row_of_writes h45 hin hb]
    exact place_disk_ne_parityDisk h45 b
  have hfind : ∀ b, p.Writes b →
      (range p.begin p.end_).find? (fun b' => r.place b' = r.place b) = some b := by
    intro b hb
    obtain ⟨b', hb'⟩ := Option.isSome_iff_exists.mp
      (List.find?_isSome.mpr ⟨b, mem_range.mpr hb, decide_eq_true rfl⟩ :
        ((range p.begin p.end_).find? fun b' => r.place b' = r.place b).isSome)
    have heq : r.place b' = r.place b := by simpa using List.find?_some hb'
    rw [hb', r.place_inj heq]
  -- Each write stores that value, whichever way the parity was worked out.
  have hstored : ∀ a ∈ r.writesOf p,
      r.stored (r.readsOf p) content new p a = some (value a.place) := by
    intro a ha
    obtain ⟨b, hb, rfl | rfl⟩ := r.mem_writesOf.mp ha
    · have hplace : (writeAt (r.place b)).place = r.place b := rfl
      have hdisk : (writeAt (r.place b)).disk = (r.place b).1 := rfl
      simp only [stored, value, hplace, hdisk]
      rw [if_neg (hdata b hb), if_neg (hdata b hb), hfind b hb]
      rfl
    · simp only [stored, value, writeAt, Access.place, if_true]
      exact newParity_eq h45 hin hok new hb
  -- The places written: each block of the part and the parity of its row.
  have hat : ∀ q, q ∈ (r.writesOf p).map Access.place ↔ ∃ b, p.Writes b ∧
      (q = r.place b ∨ q = (r.parityDisk p.stripe, (r.place b).2)) := by
    intro q
    simp only [List.mem_map, mem_writesOf]
    constructor
    · rintro ⟨a, ⟨b, hb, rfl | rfl⟩, rfl⟩
      · exact ⟨b, hb, .inl rfl⟩
      · exact ⟨b, hb, .inr rfl⟩
    · rintro ⟨b, hb, rfl | rfl⟩
      · exact ⟨_, ⟨b, hb, .inl rfl⟩, rfl⟩
      · exact ⟨_, ⟨b, hb, .inr rfl⟩, rfl⟩
  refine ⟨_, foldlM_update (r.writesOf p) hstored content, ?_⟩
  have hblocks : ∀ b, (if r.place b ∈ (r.writesOf p).map Access.place then value (r.place b)
      else content (r.place b)) = r.newData content new p b := by
    intro b
    unfold newData
    by_cases hb : p.Writes b
    · rw [if_pos ((hat _).mpr ⟨b, hb, .inl rfl⟩), if_pos hb]
      simp only [value]
      rw [if_neg (hdata b hb), hfind b hb]
      rfl
    · rw [if_neg, if_neg hb]
      rw [hat]
      rintro ⟨b', hb', heq | heq⟩
      · exact hb (r.place_inj heq ▸ hb')
      · -- a block of the row on the parity disk
        have hoff : (r.place b).2 = (r.place b').2 := by simpa using congrArg Prod.snd heq
        have hrow : r.grid.row b = p.stripe := by
          rw [← place_snd_div, hoff, place_snd_div, row_of_writes h45 hin hb']
        exact place_disk_ne_parityDisk h45 b (hrow ▸ congrArg Prod.fst heq)
  refine ⟨?_, hblocks⟩
  intro off
  simp only [hblocks]
  -- A row with a block written has got its parity anew; in any other row nothing has changed.
  by_cases htouched : ∃ b, p.Writes b ∧ (r.place b).2 = off
  · obtain ⟨b, hb, rfl⟩ := htouched
    have hstripe : (r.place b).2 / r.chunkSize = p.stripe := by
      rw [place_snd_div, row_of_writes h45 hin hb]
    rw [hstripe, if_pos ((hat _).mpr ⟨b, hb, .inr rfl⟩)]
    simp only [value, if_true]
  · rw [if_neg, hok off]
    · apply parity_congr
      intro b hb
      refine (if_neg fun hwrites => htouched ⟨b, hwrites, ?_⟩).symm
      exact (mem_rowBlocks h45).mp hb
    · rw [hat]
      rintro ⟨b, hb, heq | heq⟩
      · exact htouched ⟨b, hb, (congrArg Prod.snd heq).symm⟩
      · exact htouched ⟨b, hb, (congrArg Prod.snd heq).symm⟩

omit hin in
/-- A sequence of partial writes keeps parity and stores the new data. By induction on the
sequence. -/
theorem foldlM_commit_ok (new : Nat → BitVec w) (ps : List PartialWrite)
    (hps : ∀ p ∈ ps, InStripe r p) {content : Nat × Nat → BitVec w} (hok : r.ParityOk content) :
    ∃ content', ps.foldlM (r.commit new) content = some content' ∧ r.ParityOk content' ∧
      ∀ b, content' (r.place b) =
        if b ∈ ps.flatMap (fun p => range p.begin p.end_) then new b else content (r.place b) := by
  induction ps generalizing content with
  | nil => exact ⟨content, rfl, hok, by simp⟩
  | cons p ps ih =>
    rw [List.forall_mem_cons] at hps
    obtain ⟨content₁, hcommit, hok₁, hblocks₁⟩ := commit_ok h45 hps.1 hok new
    obtain ⟨content₂, hrest, hok₂, hblocks₂⟩ := ih hps.2 hok₁
    refine ⟨content₂, ?_, hok₂, fun b => ?_⟩
    · rw [List.foldlM_cons, hcommit]
      exact hrest
    · rw [hblocks₂, hblocks₁, List.flatMap_cons]
      simp only [newData, PartialWrite.Writes, List.mem_append, mem_range]
      by_cases hlater : b ∈ ps.flatMap fun p => range p.begin p.end_ <;> simp [hlater]

end Contents

/-! ## A whole write -/

/-- The accesses of a write, stripe by stripe. -/
def writeAccesses (addr size : Nat) : List Access :=
  (r.parts addr size).flatMap fun p => r.readsOf p ++ r.writesOf p

/-- A write of RAID-4 or RAID-5 performs the accesses of its partial writes, stripe by stripe. -/
theorem enqueue45_eq_perform (h45 : r.HasParity) (addr size : Nat) :
    r.enqueue45 addr size true = perform (r.writeAccesses addr size) := by
  have hmaps : (liftM r.maps45 : RaidM _) =
      pure (fun b => .ok (r.place b), fun s => .ok (r.parityDisk s)) := by
    rw [maps45_eq h45]
    rfl
  unfold enqueue45
  rw [hmaps]
  simp only [pure_bind, Bool.true_eq_false, if_false]
  exact r.writeStripes_eq (fun _ => rfl) (fun _ => rfl) _ _ _

/-- A write only asks for disks that exist: its accesses are at blocks and on parity disks. -/
theorem writeAccesses_disk_lt (h45 : r.HasParity) {addr size : Nat} (hsize : 1 ≤ size)
    {a : Access} (ha : a ∈ r.writeAccesses addr size) : a.disk < r.numDisks := by
  obtain ⟨p, hp, ha⟩ := List.mem_flatMap.mp ha
  have hin := (parts_spec h45 addr size hsize).1 p hp
  rcases data_or_parity h45 hin ha with ⟨b, -, hplace⟩ | hparity
  · have hdisk : a.disk = (r.place b).1 := congrArg Prod.fst hplace
    rw [hdisk]
    exact place_disk_lt h45 b
  · rw [hparity]
    exact parityDisk_lt h45 _

/-- **Small writes.** Whatever the write, its accesses are those of non-empty partial writes
of different stripes that cover it once; each partial write writes its blocks and the parity
of their rows once, on the parity disk of the stripe, after reading what a parity method
needs, so that parity survives. The write is carried out to its end exactly when all the
offsets are on the disks; otherwise it is stopped by the assertion of `disk.enqueue` at the first
one that is not, with the accesses before it made. -/
theorem enqueue45_write (h45 : r.HasParity) (addr size : Nat) (hsize : 1 ≤ size) :
    ((∀ p ∈ r.parts addr size, InStripe r p) ∧
      (r.parts addr size).flatMap (fun p => range p.begin p.end_) = range addr (addr + size) ∧
      ((r.parts addr size).map PartialWrite.stripe).Nodup) ∧
    (∀ p ∈ r.parts addr size, SmallWriteOk r p) ∧
    (∀ st, r.HasDisks st →
      ((∃ st', r.enqueue45 addr size true st = .ok ((), st') ∧ r.HasDisks st' ∧
          st'.issued = st.issued ++ r.writeAccesses addr size) ↔
        ∀ a ∈ r.writeAccesses addr size, a.off < ({} : Disk).blocksPerDisk)) ∧
    (∀ st, r.HasDisks st →
      (¬ ∀ a ∈ r.writeAccesses addr size, a.off < ({} : Disk).blocksPerDisk) →
        StopsPastEnd (r.writeAccesses addr size) st (r.enqueue45 addr size true st)) ∧
    (∀ (w : Nat) (content : Nat × Nat → BitVec w) (new : Nat → BitVec w), r.ParityOk content →
      ∃ content', (r.parts addr size).foldlM (r.commit new) content = some content' ∧
        r.ParityOk content' ∧ ∀ b, content' (r.place b) =
          if addr ≤ b ∧ b < addr + size then new b else content (r.place b)) := by
  obtain ⟨hin, hcover, hstripes⟩ := parts_spec h45 addr size hsize
  have hdisk : ∀ a ∈ r.writeAccesses addr size, a.disk < r.numDisks := fun a ha =>
    r.writeAccesses_disk_lt h45 hsize ha
  refine ⟨⟨hin, hcover, hstripes⟩, fun p hp => smallWriteOk h45 (hin p hp), ?_, ?_, ?_⟩
  · intro st hst
    rw [enqueue45_eq_perform r h45]
    exact hst.perform_iff hdisk
  · intro st hst hpast
    rw [enqueue45_eq_perform r h45]
    exact hst.perform_stops hdisk hpast
  · intro w content new hok
    obtain ⟨content', hrun, hok', hblocks⟩ := foldlM_commit_ok h45 new _ hin hok
    refine ⟨content', hrun, hok', fun b => ?_⟩
    rw [hblocks, hcover]
    simp only [mem_range]

/-- A three-disk left-symmetric RAID-5 with two blocks to a chunk. -/
def raid5Three : Raid := ⟨2, 3, .five, .LS, by decide, by decide⟩

/-- A write of four blocks that starts in the middle of a stripe of `raid5Three`: the two partial
writes, the run on fresh disks, and the contents of an array of zeros after it. The write of the
block behind the last one that fits is stopped. -/
theorem enqueue45_write_raid5Three :
    (raid5Three.parts 1 4 = [⟨0, 1, 4⟩, ⟨1, 4, 5⟩] ∧ ∀ p ∈ raid5Three.parts 1 4,
      SmallWriteOk raid5Three p) ∧
    (∃ st', raid5Three.enqueue45 1 4 true raid5Three.initState = .ok ((), st') ∧
      raid5Three.HasDisks st' ∧ st'.issued = raid5Three.writeAccesses 1 4) ∧
    StopsPastEnd (raid5Three.writeAccesses 20000 1) raid5Three.initState
      (raid5Three.enqueue45 20000 1 true raid5Three.initState) ∧
    ∃ content', (raid5Three.parts 1 4).foldlM
        (raid5Three.commit fun b => BitVec.ofNat 8 b) (fun _ => 0#8) = some content' ∧
      raid5Three.ParityOk content' ∧ content' (raid5Three.place 3) = 3#8 := by
  obtain ⟨-, hparts, hruns, -, hcontents⟩ := enqueue45_write raid5Three (.inr rfl) 1 4 (by decide)
  obtain ⟨-, -, -, hstops, -⟩ := enqueue45_write raid5Three (.inr rfl) 20000 1 (by decide)
  obtain ⟨content', hrun, hok, hdata⟩ :=
    hcontents 8 (fun _ => 0#8) (fun b => BitVec.ofNat 8 b) raid5Three.parityOk_zero
  refine ⟨⟨by decide, hparts⟩, ?_, ?_, content', hrun, hok, hdata 3⟩
  · exact (hruns raid5Three.initState raid5Three.hasDisks_initState).mpr (by decide)
  · exact hstops raid5Three.initState raid5Three.hasDisks_initState (by decide)

/-- A two-disk RAID-4 with one block to a chunk. -/
def raid4Two : Raid := ⟨1, 2, .four, .LS, by decide, by decide⟩

/-- The disks end: block 10000 of `raid4Two` would lie at offset 10000, and the first access
for it fails the assertion of `disk.enqueue`, so the block is not written. -/
theorem enqueue45_past_disk_end :
    ¬ ∀ r : Raid, r.HasParity → ∀ addr size, 1 ≤ size →
      ∃ st', r.enqueue45 addr size true r.initState = .ok ((), st') ∧
        ∀ b, addr ≤ b ∧ b < addr + size → st'.issued.count (writeAt (r.place b)) = 1 := by
  intro h
  obtain ⟨st', hrun, _⟩ := h raid4Two (.inl rfl) 10000 1 (by decide)
  rw [enqueue45_eq_perform raid4Two (.inl rfl)] at hrun
  have hmem : writeAt (0, 10000) ∈ raid4Two.writeAccesses 10000 1 := by decide
  have hfits := (perform_ok hrun).1 _ hmem
  rw [raid4Two.hasDisks_initState] at hfits
  exact absurd hfits.2 (by decide)

end Raid

end OsLab
