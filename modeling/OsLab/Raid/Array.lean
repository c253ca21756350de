import OsLab.Raid.SmallWrite

/-!
# The array behind `enqueue`

The dispatcher `raid.enqueue` with `enqueue0` and `enqueue1`, and the requests of the main program.
Whatever the level, the physical accesses of a request are known before the first one is made, so a
workload is `perform` of one list.

* **`enqueue`**, **`requests`**, **`enqueueAll`**, **`go`** -- the dispatcher, the workloads that
  the main program draws, its loop, and the time that it prints.
* **`accesses`** -- the accesses of a request, at each level. `enqueue_eq` and `enqueueAll_eq` say
  that these are what is performed.
* **`copies_disjoint`**, **`exists_copy`** -- the places of the blocks do not overlap, and every
  place is a copy or holds parity.
* **`OnDisks`**, **`enqueueAll_of_onDisks`** -- requests whose accesses are on the disks are carried
  out, however many there are.
-/

namespace OsLab

open Striping

namespace Raid

variable (r : Raid)

/-! ## The source -/

/-- The loop of `raid.enqueue0`. -/
def loop0 (isWrite : Bool) : List Nat → RaidM Unit
  | [] => return
  | b :: rest => do
    let (disk, off) := r.bmap0 b
    if isWrite then doSingleWrite disk off else doSingleRead disk off
    loop0 isWrite rest

/-- `raid.enqueue0` -/
def enqueue0 (addr size : Nat) (isWrite : Bool) : RaidM Unit :=
  r.loop0 isWrite (range addr (addr + size))

/-- The loop of `raid.enqueue1`; the offset picks the mirror that is read. -/
def loop1 (isWrite : Bool) : List Nat → RaidM Unit
  | [] => return
  | b :: rest => do
    let (disk1, disk2, off) := r.bmap1 b
    if isWrite then
      doSingleWrite disk1 off
      doSingleWrite disk2 off
    else if off % 2 = 0 then
      doSingleRead disk1 off
    else
      doSingleRead disk2 off
    loop1 isWrite rest

/-- `raid.enqueue1` -/
def enqueue1 (addr size : Nat) (isWrite : Bool) : RaidM Unit :=
  r.loop1 isWrite (range addr (addr + size))

/-- `raid.enqueue`, without its printing -/
def enqueue (addr size : Nat) (isWrite : Bool) : RaidM Unit :=
  match r.raidLevel with
  | .zero => r.enqueue0 addr size isWrite
  | .one => r.enqueue1 addr size isWrite
  | .four => r.enqueue45 addr size isWrite
  | .five => r.enqueue45 addr size isWrite

/-- A logical request. -/
structure Request where
  addr : Nat
  size : Nat
  isWrite : Bool
  deriving DecidableEq, Repr

/-- The requests of the main program. A draw has the block that a random workload uses, and
whether the request is a write. -/
def requests (workloadIsSequential : Bool) (size : Nat) : Nat → List (Nat × Bool) → List Request
  | _, [] => []
  | off, (blk, isWrite) :: draws =>
    if workloadIsSequential then
      ⟨off, size, isWrite⟩ :: requests workloadIsSequential size (off + size) draws
    else
      ⟨blk, size, isWrite⟩ :: requests workloadIsSequential size off draws

/-- The request loop of the main program. -/
def enqueueAll : List Request → RaidM Unit
  | [] => return
  | q :: rest => do
    r.enqueue q.addr q.size q.isWrite
    enqueueAll rest

/-- The loop of `raid.go` over the disks. -/
def tmaxLoop : List Disk → Rat → Rat
  | [], tmax => tmax
  | d :: disks, tmax => tmaxLoop disks (if d.utilTime > tmax then d.utilTime else tmax)

/-- `raid.go` -/
def go (st : RaidState) : Rat := tmaxLoop st.disks 0

/-! ## The accesses of a request -/

/-- The second copy of a block at RAID-1. -/
def mirror (b : Nat) : Nat × Nat := ((r.place b).1 + 1, (r.place b).2)

/-- Where a block is read. -/
def readPlace (b : Nat) : Nat × Nat :=
  match r.raidLevel with
  | .one => if (r.place b).2 % 2 = 0 then r.place b else r.mirror b
  | _ => r.place b

/-- The accesses for one block, parity left aside. -/
def blockAccesses (isWrite : Bool) (b : Nat) : List Access :=
  match r.raidLevel, isWrite with
  | .one, true => [writeAt (r.place b), writeAt (r.mirror b)]
  | _, true => [writeAt (r.place b)]
  | _, false => [readAt (r.readPlace b)]

/-- RAID-4 and RAID-5 write stripe by stripe. -/
def accesses (q : Request) : List Access :=
  match r.raidLevel, q.isWrite with
  | .four, true => r.writeAccesses q.addr q.size
  | .five, true => r.writeAccesses q.addr q.size
  | _, isWrite => (range q.addr (q.addr + q.size)).flatMap (r.blockAccesses isWrite)

/-! ## Where the accesses go -/

/-- The places of a block's data. -/
def copies (b : Nat) : List (Nat × Nat) := (r.blockAccesses true b).map Access.place

/-- A block is at its place, and at RAID-1 at its mirror too. -/
theorem copies_eq (b : Nat) :
    r.copies b = if r.raidLevel = .one then [r.place b, r.mirror b] else [r.place b] := by
  unfold copies blockAccesses
  cases hlevel : r.raidLevel <;> rfl

/-- The place of a block is one of its copies. -/
theorem place_mem_copies (b : Nat) : r.place b ∈ r.copies b := by
  rw [copies_eq]
  split <;> exact List.mem_cons_self

/-- At RAID-1 the first copies are on the disks with even numbers. -/
theorem place_even (h : r.raidLevel = .one) (b : Nat) : (r.place b).1 % 2 = 0 := by
  simp [place, Striping.Grid.place, dataDisk, h]

/-- Second copies are on the disks with odd numbers, where no first copy is. -/
theorem mirror_ne_place (h : r.raidLevel = .one) (b b' : Nat) : r.mirror b ≠ r.place b' := by
  intro heq
  have hdisk : (r.place b).1 + 1 = (r.place b').1 := congrArg Prod.fst heq
  have heven := r.place_even h b
  have heven' := r.place_even h b'
  omega

/-- Different blocks have different mirrors. -/
theorem mirror_inj : Function.Injective r.mirror := by
  intro b b' h
  obtain ⟨hdisk, hoff⟩ := Prod.ext_iff.mp h
  exact r.place_inj (Prod.ext (Nat.succ.inj hdisk) hoff)

/-- No two blocks share a place, with both copies counted. -/
theorem copies_disjoint {b b' : Nat} {p : Nat × Nat} (h : p ∈ r.copies b) (h' : p ∈ r.copies b') :
    b = b' := by
  rw [copies_eq] at h h'
  by_cases hone : r.raidLevel = .one
  · rw [if_pos hone] at h h'
    rcases List.mem_pair.mp h with rfl | rfl
    · rcases List.mem_pair.mp h' with heq | heq
      · exact r.place_inj heq
      · exact absurd heq.symm (r.mirror_ne_place hone b' b)
    · rcases List.mem_pair.mp h' with heq | heq
      · exact absurd heq (r.mirror_ne_place hone b b')
      · exact r.mirror_inj heq
  · rw [if_neg hone] at h h'
    rw [List.mem_singleton] at h h'
    exact r.place_inj (h.symm.trans h')

/-- A place on the disks is a copy of a block or a parity place. -/
theorem exists_copy {disk off : Nat} (hdisk : disk < r.numDisks) (hparity : ¬ r.ParityAt disk off) :
    ∃ b, r.place b = (r.primary disk, off) ∧ (disk, off) ∈ r.copies b := by
  obtain ⟨b, hb⟩ := (r.grid.exists_place_iff (r.primary disk) off).mpr
    ((r.exists_dataDisk_iff_not_parityAt hdisk off).mpr hparity)
  have hplace : r.place b = (r.primary disk, off) := hb
  refine ⟨b, hplace, ?_⟩
  rw [copies_eq, mirror, hplace]
  unfold primary
  by_cases hone : r.raidLevel = .one
  · simp only [hone, if_true, List.mem_pair, Prod.mk.injEq, and_true]
    omega
  · rw [if_neg hone, List.mem_singleton]
    split
    · contradiction
    · rfl

/-- The parity of an offset is on the disk that `pmap` names for its stripe. -/
theorem parityAt_iff (h45 : r.HasParity) (disk off : Nat) :
    r.ParityAt disk off ↔ r.parityDisk (off / r.chunkSize) = disk := by
  unfold ParityAt parityDisk
  rcases h45 with h | h
  · simp only [h, pmap4]
  · simp only [h, pmap5_eq r h, Except.ok.injEq]

/-- All copies are on disks that exist. -/
theorem copies_disk_lt {b : Nat} {p : Nat × Nat} (hp : p ∈ r.copies b) : p.1 < r.numDisks := by
  obtain ⟨ps, hps, _, _, hlt⟩ := r.places_ok b
  have hmem : p ∈ ps := by
    rw [copies_eq] at hp
    unfold places at hps
    cases hlevel : r.raidLevel with
    | zero =>
      simp only [hlevel, bmap0_eq_place r hlevel, pure, Except.pure, Except.ok.injEq] at hps
      simpa [hlevel, ← hps, place] using hp
    | one =>
      simp only [hlevel, bmap1_eq_place r hlevel, pure, Except.pure, Except.ok.injEq] at hps
      simpa [hlevel, ← hps, place, mirror] using hp
    | four =>
      simp only [hlevel, bmap4_eq_place r hlevel, pure, Except.pure, Except.ok.injEq] at hps
      simpa [hlevel, ← hps, place] using hp
    | five =>
      simp only [hlevel, bmap5_eq_place r hlevel, bind, Except.bind, pure, Except.pure,
        Except.ok.injEq] at hps
      simpa [hlevel, ← hps, place] using hp
  exact hlt p hmem

/-- The accesses for a block are to disks that exist. -/
theorem blockAccesses_disk_lt {isWrite : Bool} {b : Nat} {a : Access}
    (ha : a ∈ r.blockAccesses isWrite b) : a.disk < r.numDisks := by
  cases isWrite with
  | true => exact r.copies_disk_lt (List.mem_map_of_mem ha)
  | false =>
    have hread : a = readAt (r.readPlace b) := by
      unfold blockAccesses at ha
      cases hlevel : r.raidLevel <;> simpa [hlevel] using ha
    have hcopy : r.readPlace b ∈ r.copies b := by
      rw [copies_eq]
      unfold readPlace
      cases hlevel : r.raidLevel with
      | one =>
        simp only [if_true]
        split <;> simp
      | zero | four | five => simp
    rw [hread]
    exact r.copies_disk_lt hcopy

/-- Writing a block only writes. -/
theorem isWrite_of_mem_blockAccesses {b : Nat} {a : Access} (ha : a ∈ r.blockAccesses true b) :
    a.isWrite = true := by
  unfold blockAccesses at ha
  split at ha
  · rcases List.mem_pair.mp ha with rfl | rfl <;> rfl
  · rw [List.mem_singleton.mp ha]
    rfl
  · contradiction

/-- A request for some blocks only asks for disks that exist, whatever the level. -/
theorem accesses_disk_lt {q : Request} (hsize : 1 ≤ q.size) {a : Access}
    (ha : a ∈ r.accesses q) : a.disk < r.numDisks := by
  have hblocks : a ∈ (range q.addr (q.addr + q.size)).flatMap (r.blockAccesses q.isWrite) →
      a.disk < r.numDisks := by
    intro h
    obtain ⟨b, _, hb⟩ := List.mem_flatMap.mp h
    exact r.blockAccesses_disk_lt hb
  have hparity : r.HasParity → a ∈ r.writeAccesses q.addr q.size → a.disk < r.numDisks :=
    fun h45 h => r.writeAccesses_disk_lt h45 hsize h
  unfold accesses at ha
  cases hlevel : r.raidLevel with
  | zero => exact hblocks (by simpa [hlevel] using ha)
  | one => exact hblocks (by simpa [hlevel] using ha)
  | four =>
    cases hw : q.isWrite with
    | true => exact hparity (.inl hlevel) (by simpa [hlevel, hw] using ha)
    | false => exact hblocks (by simpa [hlevel, hw] using ha)
  | five =>
    cases hw : q.isWrite with
    | true => exact hparity (.inr hlevel) (by simpa [hlevel, hw] using ha)
    | false => exact hblocks (by simpa [hlevel, hw] using ha)

/-! ## `enqueue` makes its accesses -/

/-- The loop of RAID-0 makes one access for each block. -/
theorem loop0_eq (h : r.raidLevel = .zero) (isWrite : Bool) (blocks : List Nat) :
    r.loop0 isWrite blocks = perform (blocks.flatMap (r.blockAccesses isWrite)) := by
  induction blocks with
  | nil => rfl
  | cons b blocks ih =>
    have hplace : r.bmap0 b = r.place b := r.bmap0_eq_place h b
    rw [loop0, hplace, List.flatMap_cons, perform_append, ← ih]
    cases isWrite <;> simp [blockAccesses, readPlace, h, perform_cons, readAt, writeAt,
      doSingleRead, doSingleWrite]

/-- The loop of RAID-1 reads one mirror of each block or writes both. -/
theorem loop1_eq (h : r.raidLevel = .one) (isWrite : Bool) (blocks : List Nat) :
    r.loop1 isWrite blocks = perform (blocks.flatMap (r.blockAccesses isWrite)) := by
  induction blocks with
  | nil => rfl
  | cons b blocks ih =>
    have hplace : r.bmap1 b = ((r.place b).1, (r.place b).1 + 1, (r.place b).2) :=
      r.bmap1_eq_place h b
    rw [loop1, hplace, List.flatMap_cons, perform_append, ← ih]
    cases isWrite with
    | true =>
      simp [blockAccesses, mirror, h, perform_cons, writeAt, doSingleWrite]
    | false =>
      by_cases heven : (r.place b).2 % 2 = 0 <;>
        simp [blockAccesses, readPlace, mirror, h, heven, perform_cons, readAt, doSingleRead]

/-- Reads at RAID-4 and RAID-5 are reads of the blocks alone. -/
theorem enqueue45_read_eq (h45 : r.HasParity) (addr size : Nat) :
    r.enqueue45 addr size false =
      perform ((range addr (addr + size)).map fun b => readAt (r.place b)) := by
  have hmaps : (liftM r.maps45 : RaidM _) =
      pure (fun b => .ok (r.place b), fun s => .ok (r.parityDisk s)) := by
    rw [maps45_eq h45]
    rfl
  unfold enqueue45
  rw [hmaps]
  simp only [pure_bind, if_true]
  exact readBlocks_eq (fun _ => rfl) _

/-- `enqueue` makes the accesses of its request, in order. -/
theorem enqueue_eq (q : Request) :
    r.enqueue q.addr q.size q.isWrite = perform (r.accesses q) := by
  obtain ⟨addr, size, isWrite⟩ := q
  have hread : r.HasParity → r.enqueue45 addr size false =
      perform ((range addr (addr + size)).flatMap (r.blockAccesses false)) := by
    intro h45
    have hblock : r.blockAccesses false = fun b => [readAt (r.place b)] := by
      funext b
      rcases h45 with h | h <;> simp only [blockAccesses, readPlace, h]
    rw [enqueue45_read_eq r h45, List.map_eq_flatMap, hblock]
  unfold enqueue accesses
  cases hlevel : r.raidLevel with
  | zero => exact r.loop0_eq hlevel isWrite _
  | one => exact r.loop1_eq hlevel isWrite _
  | four =>
    cases isWrite with
    | true => exact r.enqueue45_eq_perform (.inl hlevel) addr size
    | false => exact hread (.inl hlevel)
  | five =>
    cases isWrite with
    | true => exact r.enqueue45_eq_perform (.inr hlevel) addr size
    | false => exact hread (.inr hlevel)

/-- A workload makes the accesses of its requests one after the other. -/
theorem enqueueAll_eq (qs : List Request) :
    r.enqueueAll qs = perform (qs.flatMap r.accesses) := by
  induction qs with
  | nil => rfl
  | cons q qs ih => rw [enqueueAll, List.flatMap_cons, perform_append, ih, enqueue_eq]

/-! ## Requests that fit on the disks

`disk.enqueue` asserts that its offset is below `blocksPerDisk`. That is the only thing that can
stop a request for at least one block, and it stops none whose accesses are on the disks. -/

/-- All the accesses of a request are on the disks. -/
def OnDisks (q : Request) : Prop := ∀ a ∈ r.accesses q, a.off < ({} : OsLab.Disk).blocksPerDisk

instance (q : Request) : Decidable (r.OnDisks q) := by
  unfold OnDisks
  infer_instance

section OnDisks

variable {r} {st : RaidState}

/-- A request on the disks is carried out, whatever has been asked for before. -/
theorem enqueue_of_onDisks (hst : r.HasDisks st) {q : Request} (hsize : 1 ≤ q.size)
    (hon : r.OnDisks q) : ∃ st', r.enqueue q.addr q.size q.isWrite st = .ok ((), st') ∧
      r.HasDisks st' ∧ st'.issued = st.issued ++ r.accesses q := by
  rw [enqueue_eq]
  exact (hst.perform_iff fun _ ha => r.accesses_disk_lt hsize ha).mpr hon

/-- So is a workload of such requests, to its end. -/
theorem enqueueAll_of_onDisks (hst : r.HasDisks st) {qs : List Request}
    (hqs : ∀ q ∈ qs, 1 ≤ q.size ∧ r.OnDisks q) : ∃ st', r.enqueueAll qs st = .ok ((), st') ∧
      r.HasDisks st' ∧ st'.issued = st.issued ++ qs.flatMap r.accesses := by
  rw [enqueueAll_eq]
  refine (hst.perform_iff fun a ha => ?_).mpr fun a ha => ?_
  · obtain ⟨q, hq, ha⟩ := List.mem_flatMap.mp ha
    exact r.accesses_disk_lt (hqs q hq).1 ha
  · obtain ⟨q, hq, ha⟩ := List.mem_flatMap.mp ha
    exact (hqs q hq).2 a ha

end OnDisks

end Raid

end OsLab
