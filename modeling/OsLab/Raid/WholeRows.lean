import OsLab.Raid.Timing

/-!
# Writing whole rows

A write that covers rows of chunks from end to end needs nothing read first, whatever the level, and
puts one write at each offset of these rows on every disk.

* **`WritesRows`** -- one write at each offset of the rows on every disk, and no read.
  `WritesRows.balanced` draws the conclusion for each disk.
* **`writesRows_copies`**, **`writesRows_parity`** -- the levels without parity, where the rows fill
  the disks with copies, and those with it, where each stripe has a partial write that covers it and
  the additive method has nothing to read.
* **`wholeRows_balanced`** -- for `enqueue`, on rows that are on the disks.
-/

namespace OsLab

open Striping

/-! ## Places of accesses -/

/-- A disk is asked for an offset if some access goes to that place. -/
theorem mem_offsOn {disk off : Nat} {as : List Access} :
    off ∈ offsOn disk as ↔ (disk, off) ∈ as.map Access.place := by
  simp only [offsOn, List.mem_map, List.mem_filter, decide_eq_true_eq, Access.place, Prod.mk.injEq,
    and_assoc]

/-- Accesses to different places ask a disk for different offsets. -/
theorem nodup_offsOn {disk : Nat} {as : List Access} (h : (as.map Access.place).Nodup) :
    (offsOn disk as).Nodup := by
  have heq : offsOn disk as = ((as.map Access.place).filter (·.1 = disk)).map Prod.snd := by
    rw [List.filter_map, List.map_map]
    rfl
  rw [heq]
  refine (h.filter _).map_on fun p hp q hq hoff => Prod.ext ?_ hoff
  have hp' := (List.mem_filter.mp hp).2
  have hq' := (List.mem_filter.mp hq).2
  rw [decide_eq_true_eq] at hp' hq'
  rw [hp', hq']

namespace Raid

variable (r : Raid)

/-- The write of `n` rows from row `first` on. -/
def writeRows (first n : Nat) : Request :=
  ⟨first * (r.grid.cols * r.grid.chunk), n * (r.grid.cols * r.grid.chunk), true⟩

/-- One write at each offset of the rows on every disk, and no read. -/
structure WritesRows (first n : Nat) (as : List Access) : Prop where
  writes : ∀ a ∈ as, a.isWrite = true
  once : (as.map Access.place).Nodup
  places : ∀ disk < r.numDisks, ∀ off, (disk, off) ∈ as.map Access.place ↔
    first ≤ off / r.chunkSize ∧ off / r.chunkSize < first + n

/-- Every disk gets the offsets of the rows, each once. -/
theorem WritesRows.balanced {first n : Nat} {as : List Access} (h : r.WritesRows first n as)
    {disk : Nat} (hdisk : disk < r.numDisks) :
    (offsOn disk as).Perm (range (first * r.chunkSize) ((first + n) * r.chunkSize)) := by
  refine (List.perm_ext_iff_of_nodup (nodup_offsOn h.once) (nodup_range _ _)).mpr fun off => ?_
  rw [mem_offsOn, h.places disk hdisk, mem_range, Nat.le_div_iff_mul_le r.chunk_pos,
    Nat.div_lt_iff_lt_mul r.chunk_pos]

/-- The blocks of the write are those of its rows. -/
theorem mem_writeRows {first n b : Nat} :
    b ∈ range (r.writeRows first n).addr ((r.writeRows first n).addr + (r.writeRows first n).size) ↔
      first ≤ r.grid.row b ∧ r.grid.row b < first + n := by
  rw [mem_range, ← r.grid.row_mem_iff b first n, Nat.add_mul]
  rfl

/-! ## RAID-0 and RAID-1 -/

/-- The copies of a block lie in its row. -/
theorem copies_row {b : Nat} {p : Nat × Nat} (hp : p ∈ r.copies b) :
    p.2 / r.chunkSize = r.grid.row b := by
  have hoff : p.2 = (r.place b).2 := by
    rw [copies_eq] at hp
    split at hp
    · rcases List.mem_pair.mp hp with rfl | rfl <;> rfl
    · rw [List.mem_singleton.mp hp]
  rw [hoff, place_snd_div]

/-- The copies of a block are at different places. -/
theorem nodup_copies (b : Nat) : (r.copies b).Nodup := by
  rw [copies_eq]
  split
  · simp [mirror, Prod.ext_iff]
  · exact List.nodup_singleton _

/-- Without parity, the copies of the blocks fill the rows. -/
theorem writesRows_copies (h : ¬ r.HasParity) (first n : Nat) :
    r.WritesRows first n (r.accesses (r.writeRows first n)) := by
  -- Without parity each block is written in its own places, in order.
  have haccesses : r.accesses (r.writeRows first n) =
      (range (r.writeRows first n).addr ((r.writeRows first n).addr +
        (r.writeRows first n).size)).flatMap (r.blockAccesses true) := by
    unfold accesses
    cases hlevel : r.raidLevel with
    | zero => rfl
    | one => rfl
    | four => exact absurd (.inl hlevel) h
    | five => exact absurd (.inr hlevel) h
  have hplaces : (r.accesses (r.writeRows first n)).map Access.place =
      (range (r.writeRows first n).addr ((r.writeRows first n).addr +
        (r.writeRows first n).size)).flatMap r.copies := by
    rw [haccesses, List.map_flatMap]
    rfl
  constructor
  · intro a ha
    rw [haccesses] at ha
    obtain ⟨b, _, hb⟩ := List.mem_flatMap.mp ha
    exact r.isWrite_of_mem_blockAccesses hb
  -- No place is written twice: copies of different blocks lie apart.
  · rw [hplaces, List.nodup_flatMap]
    refine ⟨fun b _ => r.nodup_copies b, (nodup_range _ _).imp fun hne => ?_⟩
    exact List.disjoint_left.mpr fun p hp hp' => hne (r.copies_disjoint hp hp')
  -- Every place of the rows is a copy of some block in them.
  · intro disk hdisk off
    rw [hplaces, List.mem_flatMap]
    constructor
    · rintro ⟨b, hb, hp⟩
      have hrow : off / r.chunkSize = r.grid.row b := r.copies_row hp
      rw [hrow]
      exact r.mem_writeRows.mp hb
    · intro hoff
      have hnot : ¬ r.ParityAt disk off := by
        unfold ParityAt
        cases hlevel : r.raidLevel with
        | zero => simp
        | one => simp
        | four => exact absurd (.inl hlevel) h
        | five => exact absurd (.inr hlevel) h
      obtain ⟨b, _, hp⟩ := r.exists_copy hdisk hnot
      have hrow : off / r.chunkSize = r.grid.row b := r.copies_row hp
      rw [hrow] at hoff
      exact ⟨b, r.mem_writeRows.mpr hoff, hp⟩

/-! ## RAID-4 and RAID-5 -/

/-- A partial write of a whole stripe. -/
def WholeStripe (p : PartialWrite) : Prop :=
  p.begin = p.stripe * r.blocksInStripe ∧ p.end_ = p.stripe * r.blocksInStripe + r.blocksInStripe

section Parity

variable {r} (h45 : r.HasParity) {first n : Nat} (hn : 1 ≤ n)
include h45

/-- A partial write of a whole stripe reads nothing: there is no block that it does not write. -/
theorem readsOf_wholeStripe {p : PartialWrite} (hp : r.WholeStripe p) : r.readsOf p = [] := by
  have hpos := blocksInStripe_pos h45
  obtain ⟨hbegin, hend⟩ := hp
  unfold readsOf partialReads
  rw [hbegin, hend, if_neg (by omega), range_self, range_self]
  rfl

include hn

omit h45 in
/-- Rows have blocks. -/
theorem writeRows_size : 1 ≤ (r.writeRows first n).size :=
  Nat.mul_pos hn (Nat.mul_pos r.grid.cols_pos r.grid.chunk_pos)

/-- Each stripe has one partial write, and that one covers it. -/
theorem parts_wholeStripe {p : PartialWrite}
    (hp : p ∈ r.parts (r.writeRows first n).addr (r.writeRows first n).size) :
    r.WholeStripe p ∧ first ≤ p.stripe ∧ p.stripe < first + n := by
  obtain ⟨hin, hcover, hstripes⟩ := parts_spec h45 (r.writeRows first n).addr
    (r.writeRows first n).size (writeRows_size hn)
  have hpos := blocksInStripe_pos h45
  obtain ⟨hlo, hlt, hhi⟩ := hin p hp
  have hrow : ∀ b, p.Writes b → r.grid.row b = p.stripe := fun b => row_of_writes h45 ⟨hlo, hlt, hhi⟩
  have hmem : ∀ b, r.grid.row b = p.stripe → p.Writes b := by
    intro b hb
    have hbegin : p.begin ∈ range (r.writeRows first n).addr
        ((r.writeRows first n).addr + (r.writeRows first n).size) := by
      rw [← hcover]
      exact List.mem_flatMap.mpr ⟨p, hp, mem_range.mpr ⟨Nat.le_refl _, hlt⟩⟩
    rw [mem_writeRows, hrow p.begin ⟨Nat.le_refl _, hlt⟩, ← hb, ← mem_writeRows, ← hcover] at hbegin
    obtain ⟨p', hp', hb'⟩ := List.mem_flatMap.mp hbegin
    have hb'' : p'.Writes b := mem_range.mp hb'
    have hsame : p'.stripe = p.stripe := (row_of_writes h45 (hin p' hp') hb'').symm.trans hb
    rwa [List.inj_on_of_nodup_map hstripes hp' hp hsame] at hb''
  have hfirst : p.Writes (p.stripe * r.blocksInStripe) :=
    hmem _ ((row_eq_iff_stripe h45 _ _).mpr ⟨Nat.le_refl _, by omega⟩)
  have hlast : p.Writes (p.stripe * r.blocksInStripe + r.blocksInStripe - 1) :=
    hmem _ ((row_eq_iff_stripe h45 _ _).mpr ⟨by omega, by omega⟩)
  unfold PartialWrite.Writes at hfirst hlast
  have hbegin : p.begin ∈ range (r.writeRows first n).addr
      ((r.writeRows first n).addr + (r.writeRows first n).size) := by
    rw [← hcover]
    exact List.mem_flatMap.mpr ⟨p, hp, mem_range.mpr ⟨Nat.le_refl _, hlt⟩⟩
  rw [mem_writeRows, hrow p.begin ⟨Nat.le_refl _, hlt⟩] at hbegin
  exact ⟨⟨by omega, by omega⟩, hbegin⟩

/-- With parity, the blocks and the parity of the stripes fill the rows. -/
theorem writesRows_parity :
    r.WritesRows first n (r.accesses (r.writeRows first n)) := by
  obtain ⟨hin, hcover, hstripes⟩ := parts_spec h45 (r.writeRows first n).addr
    (r.writeRows first n).size (writeRows_size hn)
  have haccesses : r.accesses (r.writeRows first n) =
      (r.parts (r.writeRows first n).addr (r.writeRows first n).size).flatMap r.writesOf := by
    have hparts : r.accesses (r.writeRows first n) =
        r.writeAccesses (r.writeRows first n).addr (r.writeRows first n).size := by
      unfold accesses
      rcases h45 with h | h <;> rw [h] <;> rfl
    rw [hparts]
    unfold writeAccesses
    refine List.flatMap_congr fun p hp => ?_
    rw [readsOf_wholeStripe h45 (parts_wholeStripe h45 hn hp).1, List.nil_append]
  -- the rows of a part's writes are those of its stripe
  have hrow : ∀ p ∈ r.parts (r.writeRows first n).addr (r.writeRows first n).size,
      ∀ q ∈ (r.writesOf p).map Access.place, q.2 / r.chunkSize = p.stripe := by
    intro p hp q hq
    obtain ⟨a, ha, rfl⟩ := List.mem_map.mp hq
    obtain ⟨b, hb, rfl | rfl⟩ := r.mem_writesOf.mp ha
    · exact (r.place_snd_div b).trans (row_of_writes h45 (hin p hp) hb)
    · exact (r.place_snd_div b).trans (row_of_writes h45 (hin p hp) hb)
  constructor
  · intro a ha
    rw [haccesses] at ha
    obtain ⟨p, _, ha⟩ := List.mem_flatMap.mp ha
    obtain ⟨b, _, rfl | rfl⟩ := r.mem_writesOf.mp ha <;> rfl
  · rw [haccesses, List.map_flatMap, List.nodup_flatMap]
    refine ⟨fun p hp => ?_, ?_⟩
    · refine (nodup_writesOf h45 (hin p hp)).map_on fun a ha a' ha' heq => ?_
      obtain ⟨b, _, rfl | rfl⟩ := r.mem_writesOf.mp ha <;>
        obtain ⟨b', _, rfl | rfl⟩ := r.mem_writesOf.mp ha' <;>
        exact congrArg writeAt heq
    · refine (List.pairwise_map.mp hstripes).imp_of_mem fun hp hp' hne => ?_
      refine List.disjoint_left.mpr fun q hq hq' => hne ?_
      rw [← hrow _ hp q hq, ← hrow _ hp' q hq']
  · intro disk hdisk off
    rw [haccesses, List.map_flatMap, List.mem_flatMap]
    constructor
    · rintro ⟨p, hp, hq⟩
      rw [hrow p hp _ hq]
      exact (parts_wholeStripe h45 hn hp).2
    · intro hoff
      have hofflt : off % r.grid.chunk < r.grid.chunk := Nat.mod_lt _ r.grid.chunk_pos
      -- a block of the row, and the part that writes it
      have hpart : ∀ b, (r.place b).2 = off →
          ∃ p ∈ r.parts (r.writeRows first n).addr (r.writeRows first n).size, p.Writes b := by
        intro b hb
        have hrowb : off / r.chunkSize = r.grid.row b := by rw [← hb, place_snd_div]
        rw [hrowb, ← mem_writeRows, ← hcover] at hoff
        obtain ⟨p, hp, hmem⟩ := List.mem_flatMap.mp hoff
        exact ⟨p, hp, mem_range.mp hmem⟩
      by_cases hparity : r.ParityAt disk off
      · have hplace : (r.place (r.grid.addr (off / r.grid.chunk) 0 (off % r.grid.chunk))).2 = off := by
          show r.grid.row _ * r.grid.chunk + r.grid.off _ = off
          rw [Grid.row_addr r.grid.cols_pos hofflt, Grid.off_addr hofflt, Nat.div_add_mod']
        obtain ⟨p, hp, hb⟩ := hpart _ hplace
        refine ⟨p, hp, List.mem_map.mpr ⟨_, r.mem_writesOf.mpr ⟨_, hb, .inr rfl⟩, ?_⟩⟩
        rw [hplace]
        show (r.parityDisk p.stripe, off) = (disk, off)
        rw [← (r.parityAt_iff h45 disk off).mp hparity, ← hplace, place_snd_div,
          row_of_writes h45 (hin p hp) hb]
      · obtain ⟨b, hplace, hcopy⟩ := r.exists_copy hdisk hparity
        have hprimary : r.primary disk = disk := by
          unfold primary
          rcases h45 with h | h <;> rw [h]
        rw [hprimary] at hplace
        obtain ⟨p, hp, hb⟩ := hpart b (by rw [hplace])
        exact ⟨p, hp, List.mem_map.mpr ⟨_, r.mem_writesOf.mpr ⟨b, hb, .inl rfl⟩, hplace⟩⟩

end Parity

/-- At any level the accesses of the write are the writes of its rows. -/
theorem writesRows_accesses (first : Nat) {n : Nat} (hn : 1 ≤ n) :
    r.WritesRows first n (r.accesses (r.writeRows first n)) := by
  by_cases h45 : r.HasParity
  · exact writesRows_parity h45 hn
  · exact r.writesRows_copies h45 first n

/-- Rows that end on the disks keep all their accesses there, parity and second copies included:
each row has the same offsets on every disk. -/
theorem writeRows_onDisks {first n : Nat} (hn : 1 ≤ n)
    (hend : (first + n) * r.chunkSize ≤ ({} : Disk).blocksPerDisk) :
    r.OnDisks (r.writeRows first n) := by
  intro a ha
  have hdisk := r.accesses_disk_lt (writeRows_size hn) ha
  have hrow := ((r.writesRows_accesses first hn).places a.disk hdisk a.off).mp
    (List.mem_map.mpr ⟨a, ha, rfl⟩)
  have hoff := (Nat.div_lt_iff_lt_mul r.chunk_pos).mp hrow.2
  omega

/-- **Whole rows.** A write of whole rows of chunks that are on the disks is carried out. It reads
nothing, at any level, and gives every disk the same work: one write at each offset of these rows,
parity and second copies included. -/
theorem wholeRows_balanced (first : Nat) {n : Nat} (hn : 1 ≤ n)
    (hend : (first + n) * r.chunkSize ≤ ({} : Disk).blocksPerDisk) {st : RaidState}
    (hst : r.HasDisks st) :
    ∃ st' issued, r.enqueue (first * (r.grid.cols * r.chunkSize)) (n * (r.grid.cols * r.chunkSize))
        true st = .ok ((), st') ∧ r.HasDisks st' ∧ st'.issued = st.issued ++ issued ∧
      (∀ a ∈ issued, a.isWrite = true ∧ a.disk < r.numDisks) ∧
      ∀ disk < r.numDisks, (offsOn disk issued).Perm
        (range (first * r.chunkSize) ((first + n) * r.chunkSize)) := by
  have hrows := r.writesRows_accesses first hn
  have hsize : 1 ≤ (r.writeRows first n).size := writeRows_size hn
  obtain ⟨st', hrun, hdisks, hissued⟩ :=
    enqueue_of_onDisks hst hsize (r.writeRows_onDisks hn hend)
  exact ⟨st', _, hrun, hdisks, hissued,
    fun a ha => ⟨hrows.writes a ha, r.accesses_disk_lt hsize ha⟩,
    fun _ hdisk => hrows.balanced r hdisk⟩

/-- The second and third stripe of `raid5Three`: four writes for each disk. -/
theorem wholeRows_balanced_raid5Three : ∃ st' issued,
    raid5Three.enqueue 4 8 true raid5Three.initState = .ok ((), st') ∧
      st'.issued = issued ∧ (offsOn 2 issued).Perm [2, 3, 4, 5] := by
  obtain ⟨st', issued, hrun, -, hissued, -, hbalanced⟩ :=
    wholeRows_balanced raid5Three 1 (n := 2) (by decide) (by decide)
      raid5Three.hasDisks_initState
  exact ⟨st', issued, hrun, hissued, hbalanced 2 (by decide)⟩

end Raid

end OsLab
