import Mathlib.Data.Finset.Card
import Mathlib.Order.Interval.Finset.Nat
import OsLab.Raid.SmallWrite

/-!
# How much a partial write reads

`doPartialWrite` compares one more than the blocks it writes with the blocks it does not write, and
picks a parity method by that. The subtractive method reads one parity block for each row that it
touches, and blocks next to each other lie in different rows.

* **`length_subtractiveReads`**, **`length_additiveReads`** -- how many blocks each method reads, in
  closed form. `length_offs` counts the rows.
* **`readCount_doPartialWrite`** -- the reads that are issued are those of the method that is
  picked.
* **`CountsOneRow`** -- the case in which the test goes wrong: it takes the touched rows for one.
* **`reads_le_otherReads_iff`** -- the method that is picked reads no more than the other one
  exactly outside of that case.
-/

namespace OsLab

open Striping

/-! ## Rows of a range -/

/-- Of `w` consecutive numbers, `a` at most differ modulo `a`, and no two among the first `a`
agree. -/
theorem card_image_mod (n w : Nat) {a : Nat} (ha : 0 < a) :
    ((Finset.Ico n (n + w)).image (· % a)).card = min w a := by
  by_cases hw : w ≤ a
  · have hsub : Finset.Ico n (n + w) ⊆ Finset.Ico n (n + a) :=
      Finset.Ico_subset_Ico_right (Nat.add_le_add_left hw n)
    have hinj : Set.InjOn (· % a) (Finset.Ico n (n + w) : Set Nat) :=
      (Nat.mod_injOn_Ico n a).mono (Finset.coe_subset.mpr hsub)
    rw [Finset.card_image_of_injOn hinj, Nat.card_Ico, Nat.add_sub_cancel_left, Nat.min_eq_left hw]
  · have hall : (Finset.Ico n (n + w)).image (· % a) = Finset.range a := by
      apply Finset.Subset.antisymm
      · intro i hi
        obtain ⟨b, _, rfl⟩ := Finset.mem_image.mp hi
        exact Finset.mem_range.mpr (Nat.mod_lt b ha)
      · rw [← Nat.image_Ico_mod n a]
        apply Finset.image_subset_image
        exact Finset.Ico_subset_Ico_right (by omega)
    rw [hall, Finset.card_range, Nat.min_eq_right (by omega)]

namespace Raid

variable (r : Raid)

/-- The reads of the subtractive method: the written blocks, and the parity of their rows. -/
def subtractiveReads (p : PartialWrite) : List Access :=
  (range p.begin p.end_).map (fun b => readAt (r.place b)) ++
    (p.offs r.place).map fun off => readAt (r.parityDisk p.stripe, off)

/-- The reads of the additive method: the blocks of the stripe that are not written. -/
def additiveReads (p : PartialWrite) : List Access :=
  (range (p.stripe * r.blocksInStripe) p.begin ++
    range p.end_ (p.stripe * r.blocksInStripe + r.blocksInStripe)).map fun b => readAt (r.place b)

/-- The test that picks the method. -/
def PicksSubtractive (p : PartialWrite) : Prop :=
  p.end_ - p.begin + 1 ≤ r.blocksInStripe - (p.end_ - p.begin)

instance (p : PartialWrite) : Decidable (r.PicksSubtractive p) :=
  inferInstanceAs (Decidable (_ ≤ _))

/-- What the method that is not picked would read. -/
def otherReads (p : PartialWrite) : List Access :=
  if r.PicksSubtractive p then r.additiveReads p else r.subtractiveReads p

/-- The reads are those of the method that the test picks. -/
theorem readsOf_eq (p : PartialWrite) :
    r.readsOf p = if r.PicksSubtractive p then r.subtractiveReads p else r.additiveReads p := rfl

/-- The reads among the accesses that have been issued. -/
def readCount (st : RaidState) : Nat := st.issued.countP fun a => !a.isWrite

section Counting

variable {r} (h45 : r.HasParity) {p : PartialWrite} (hin : InStripe r p)
include h45 hin

/-- The rows that a partial write touches: as many as it has blocks, up to the rows of a chunk. -/
theorem length_offs : (p.offs r.place).length = min (p.end_ - p.begin) r.chunkSize := by
  obtain ⟨w, hw⟩ := Nat.exists_eq_add_of_lt hin.2.1
  have hrows : (p.offs r.place).toFinset =
      ((Finset.Ico p.begin (p.begin + (w + 1))).image (· % r.chunkSize)).image
        (p.stripe * r.chunkSize + ·) := by
    ext off
    rw [List.mem_toFinset, mem_offs, Finset.image_image, Finset.mem_image]
    refine exists_congr fun b => ?_
    rw [Finset.mem_Ico, hw]
    refine and_congr_right fun hb => ?_
    -- all blocks of the range lie in one row of chunks
    have hrow : r.grid.row b = p.stripe := row_of_writes h45 hin ⟨hb.1, by omega⟩
    show r.grid.row b * r.chunkSize + b % r.chunkSize = off ↔ _
    rw [hrow]
    rfl
  have hnodup : (p.offs r.place).Nodup := nodup_collectOffs _ List.nodup_nil
  rw [← List.toFinset_card_of_nodup hnodup, hrows,
    Finset.card_image_of_injective _ (add_right_injective _), card_image_mod _ _ r.chunk_pos, hw,
    Nat.add_assoc, Nat.add_sub_cancel_left]

/-- The subtractive method reads the blocks that it writes, and a parity block for each row. -/
theorem length_subtractiveReads :
    (r.subtractiveReads p).length =
      p.end_ - p.begin + min (p.end_ - p.begin) r.chunkSize := by
  unfold subtractiveReads range
  rw [List.length_append, List.length_map, List.length_map, length_offs h45 hin,
    List.length_range']

omit h45 in
/-- The additive method reads the rest of the stripe. -/
theorem length_additiveReads :
    (r.additiveReads p).length = r.blocksInStripe - (p.end_ - p.begin) := by
  obtain ⟨hbegin, hlt, hend⟩ := hin
  unfold additiveReads range
  rw [List.length_map, List.length_append, List.length_range', List.length_range']
  omega

end Counting

/-- Whatever a partial write reads first is a read. -/
theorem isWrite_of_mem_readsOf {p : PartialWrite} {a : Access} (ha : a ∈ r.readsOf p) :
    a.isWrite = false := by
  rw [readsOf_eq] at ha
  split at ha
  · rcases List.mem_append.mp ha with ha | ha
    · obtain ⟨b, _, rfl⟩ := List.mem_map.mp ha
      rfl
    · obtain ⟨off, _, rfl⟩ := List.mem_map.mp ha
      rfl
  · obtain ⟨b, _, rfl⟩ := List.mem_map.mp ha
    rfl

/-- A partial write that runs to its end issues the reads of its method, and no other. -/
theorem readCount_doPartialWrite {bmap : Nat → Except Abort (Nat × Nat)}
    {pmap : Nat → Except Abort Nat} (h45 : r.HasParity) (hmaps : r.maps45 = .ok (bmap, pmap))
    {p : PartialWrite} {st st' : RaidState}
    (hrun : r.doPartialWrite bmap pmap p.stripe p.begin p.end_ st = .ok ((), st')) :
    readCount st' = readCount st + (r.readsOf p).length := by
  rw [maps45_eq h45] at hmaps
  cases hmaps
  rw [doPartialWrite_eq r (fun _ => rfl) (fun _ => rfl)] at hrun
  have hissued := (perform_ok hrun).2.1
  have hreads : (r.readsOf p).countP (fun a => !a.isWrite) = (r.readsOf p).length := by
    apply List.countP_eq_length.mpr
    intro a ha
    rw [r.isWrite_of_mem_readsOf ha]
    rfl
  have hwrites : (r.writesOf p).countP (fun a => !a.isWrite) = 0 := by
    apply List.countP_eq_zero.mpr
    intro a ha
    obtain ⟨b, _, rfl | rfl⟩ := r.mem_writesOf.mp ha
    · simp [writeAt]
    · simp [writeAt]
  unfold readCount
  rw [hissued, List.countP_append]
  show _ + (r.readsOf p ++ r.writesOf p).countP _ = _
  rw [List.countP_append, hreads, hwrites, Nat.add_zero]

/-- The test takes the rows for one: the subtractive method passes it, and the blocks that are
not written are fewer than the written ones and their parity blocks. -/
def CountsOneRow (p : PartialWrite) : Prop :=
  p.end_ - p.begin + 1 ≤ r.blocksInStripe - (p.end_ - p.begin) ∧
    r.blocksInStripe - (p.end_ - p.begin) <
      p.end_ - p.begin + min (p.end_ - p.begin) r.chunkSize

/-- **Cheaper method.** A partial write reads no more than its other method would, unless the
test takes several parity rows for one. -/
theorem reads_le_otherReads_iff (h45 : r.HasParity) {p : PartialWrite} (hin : InStripe r p) :
    (∀ bmap pmap st st', r.maps45 = .ok (bmap, pmap) →
      r.doPartialWrite bmap pmap p.stripe p.begin p.end_ st = .ok ((), st') →
      readCount st' = readCount st + (r.readsOf p).length) ∧
    ((r.readsOf p).length ≤ (r.otherReads p).length ↔ ¬r.CountsOneRow p) := by
  refine ⟨fun bmap pmap st st' hmaps hrun => r.readCount_doPartialWrite h45 hmaps hrun, ?_⟩
  have hsub := length_subtractiveReads h45 hin
  have hadd := length_additiveReads hin
  have hlt := hin.2.1
  have hchunk := r.chunk_pos
  rw [readsOf_eq, otherReads, CountsOneRow]
  split
  case isTrue hpick =>
    rw [hsub, hadd]
    unfold PicksSubtractive at hpick
    omega
  case isFalse hpick =>
    -- the additive method reads what the test compared
    rw [hsub, hadd]
    unfold PicksSubtractive at hpick
    omega

/-- Four disks with three blocks to a chunk. -/
def raid4Four : Raid := ⟨3, 4, .four, .LS, by decide, by decide⟩

theorem reads_le_otherReads_raid4Four :
    InStripe raid4Four ⟨0, 0, 2⟩ ∧
      ((raid4Four.readsOf ⟨0, 0, 2⟩).length ≤ (raid4Four.otherReads ⟨0, 0, 2⟩).length ↔
        ¬raid4Four.CountsOneRow ⟨0, 0, 2⟩) := by
  have hin : InStripe raid4Four ⟨0, 0, 2⟩ := by
    unfold InStripe
    decide
  exact ⟨hin, (reads_le_otherReads_iff raid4Four (.inl rfl) hin).2⟩

/-- A write of four blocks touches three rows: seven reads, where five would have done. -/
theorem sevenReads :
    raid4Four.maps45 = .ok (fun b => .ok (raid4Four.place b),
        fun s => .ok (raid4Four.parityDisk s)) ∧
      InStripe raid4Four ⟨0, 0, 4⟩ ∧
      (∃ st', raid4Four.doPartialWrite (fun b => .ok (raid4Four.place b))
        (fun s => .ok (raid4Four.parityDisk s)) 0 0 4 raid4Four.initState = .ok ((), st') ∧
        readCount st' = 7) ∧
      (raid4Four.otherReads ⟨0, 0, 4⟩).length = 5 := by
  refine ⟨maps45_eq (.inl rfl), ?_, ?_, by decide⟩
  · unfold InStripe
    decide
  · rw [doPartialWrite_eq raid4Four (fun _ => rfl) (fun _ => rfl) ⟨0, 0, 4⟩]
    have hfits : ∀ a ∈ raid4Four.partialAccesses raid4Four.place raid4Four.parityDisk ⟨0, 0, 4⟩,
        a.Fits raid4Four.initState := by
      intro a ha
      rw [raid4Four.hasDisks_initState a]
      revert a
      decide
    obtain ⟨st', hrun⟩ := perform_of_fits hfits
    refine ⟨st', hrun, ?_⟩
    unfold readCount
    rw [(perform_ok hrun).2.1]
    decide

end Raid

end OsLab
