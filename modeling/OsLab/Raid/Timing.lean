import Mathlib.Tactic.Linarith
import OsLab.Raid.Array

/-!
# The statistics of the disks

Each disk of an array sees the offsets of its own accesses, in order, and counts them by how far its
head moves. A workload that goes through the blocks in order keeps the disks streaming: after its
first access a disk only moves on by one.

* **`Disk.Accounted`** -- the counters of a disk after some accesses: each counted once, and the
  busy time is what they cost. `Accounted.run` carries it over any accesses.
* **`perform_disk`** -- each disk serves its own accesses, so a statement about a workload is one
  about the offsets on each disk (`offsOn`).
* **`stats_add_up`** -- the counters, the busy times and the total time after any workload.
* **`streamed`** -- a disk that has been gone through from its first block on. `sequential_ok_iff`
  and `sequential_streams` are about workloads that keep all disks like this.

Times are exact: the milliseconds of the program as rational numbers.
-/

namespace OsLab

open Striping

/-! ## One disk -/

namespace Disk

variable {d d' : Disk} {addr : Nat}

/-- The numbers that `disk.__init__` sets and nothing changes. -/
def Standard (d : Disk) : Prop :=
  d.seekTime = 10 ∧ d.xferTime = 1 / 10 ∧ d.numTracks = 100 ∧ d.blocksPerTrack = 100 ∧
    d.blocksPerDisk = 10000

/-- How far the head is from an address. -/
def distance (d : Disk) (addr : Nat) : Nat := ((addr : Int) - d.currAddr).natAbs

/-- The three things that an access can be: the next block, one nearby, or a seek; each has its
counter and its cost. -/
theorem enqueue_cases (hd : d.Standard) (h : d.enqueue addr = .ok d') :
    (d.distance addr = 1 ∧ d' = { d with
      countIO := d.countIO + 1, countSeq := d.countSeq + 1, utilTime := d.utilTime + 1 / 10,
      currAddr := addr }) ∨
    (d.distance addr ≠ 1 ∧ d.distance addr < 100 ∧ d' = { d with
      countIO := d.countIO + 1, countNseq := d.countNseq + 1,
      utilTime := d.utilTime + d.distance addr * (1 / 10), currAddr := addr }) ∨
    (100 ≤ d.distance addr ∧ d' = { d with
      countIO := d.countIO + 1, countRand := d.countRand + 1, utilTime := d.utilTime + 101 / 10,
      currAddr := addr }) := by
  obtain ⟨hseek, hxfer, htracks, hblocks, _⟩ := hd
  have hlt := (enqueue_ok h).1
  have hnear : d.currAddr / d.numTracks = (addr : Int) / d.numTracks ∨
      ((addr : Int) - d.currAddr).natAbs < d.blocksPerTrack ↔ d.distance addr < 100 := by
    unfold distance
    rw [htracks, hblocks]
    omega
  unfold enqueue at h
  simp only [hlt, decide_true, assert_true, bind, Except.bind, hnear] at h
  by_cases hseq : d.distance addr = 1
  · have hone : ((addr : Int) - d.currAddr).natAbs = 1 := hseq
    rw [if_pos (by omega), if_pos hone] at h
    obtain rfl := Except.ok.inj h
    refine .inl ⟨hseq, ?_⟩
    simp [hone, hxfer]
  have hne : ((addr : Int) - d.currAddr).natAbs ≠ 1 := hseq
  by_cases hclose : d.distance addr < 100
  · rw [if_pos hclose, if_neg hne] at h
    obtain rfl := Except.ok.inj h
    refine .inr (.inl ⟨hseq, hclose, ?_⟩)
    simp [distance, hxfer]
  · rw [if_neg hclose] at h
    obtain rfl := Except.ok.inj h
    refine .inr (.inr ⟨by omega, ?_⟩)
    have hcost : (10 : Rat) + 1 / 10 = 101 / 10 := by norm_num
    simp only [hseek, hxfer, hcost]

/-- The counters of a disk after `n` accesses. -/
structure Accounted (d : Disk) (n : Nat) : Prop where
  standard : d.Standard
  countIO : d.countIO = n
  kinds : d.countSeq + d.countNseq + d.countRand = n
  util_ge : 101 / 10 * (d.countRand : Rat) + 1 / 10 * d.countSeq ≤ d.utilTime
  util_le : d.utilTime ≤ 101 / 10 * (d.countRand : Rat) + 1 / 10 * d.countSeq + 99 / 10 * d.countNseq

/-- A fresh disk has counted nothing. -/
theorem accounted_init : Accounted {} 0 := by
  refine ⟨⟨rfl, rfl, rfl, rfl, rfl⟩, rfl, rfl, ?_, ?_⟩ <;> simp

/-- An access is counted once, as one of the three, with its cost. -/
theorem Accounted.enqueue {n : Nat} (hd : d.Accounted n) (h : d.enqueue addr = .ok d') :
    d'.Accounted (n + 1) := by
  obtain ⟨hstandard, hcount, hkinds, hge, hle⟩ := hd
  rcases enqueue_cases hstandard h with ⟨_, rfl⟩ | ⟨_, hclose, rfl⟩ | ⟨_, rfl⟩
  · refine ⟨hstandard, ?_, ?_, ?_, ?_⟩ <;> simp only [Nat.cast_add, Nat.cast_one]
    · omega
    · omega
    · linarith
    · linarith
  · have hmoved : (d.distance addr : Rat) ≤ 99 := by exact_mod_cast Nat.le_of_lt_succ hclose
    have hpos : (0 : Rat) ≤ d.distance addr := Nat.cast_nonneg _
    refine ⟨hstandard, ?_, ?_, ?_, ?_⟩ <;> simp only [Nat.cast_add, Nat.cast_one]
    · omega
    · omega
    · linarith
    · linarith
  · refine ⟨hstandard, ?_, ?_, ?_, ?_⟩ <;> simp only [Nat.cast_add, Nat.cast_one]
    · omega
    · omega
    · linarith
    · linarith

/-- Any number of accesses is counted like this. By induction on them. -/
theorem Accounted.run {n : Nat} {offs : List Nat} (hd : d.Accounted n)
    (h : offs.foldlM Disk.enqueue d = .ok d') : d'.Accounted (n + offs.length) := by
  induction offs generalizing d n with
  | nil =>
    cases h
    exact hd
  | cons off offs ih =>
    obtain ⟨d₁, hfirst, hrest⟩ := bind_eq_ok.mp (List.foldlM_cons.symm.trans h)
    rw [List.length_cons, Nat.add_comm offs.length, ← Nat.add_assoc]
    exact ih (hd.enqueue hfirst) hrest

/-- A disk that has been read or written from its first block to its `k`-th. -/
def streamed : Nat → Disk
  | 0 => {}
  | k + 1 => {
      currAddr := k, countIO := k + 1, countSeq := k, countRand := 1,
      utilTime := 10 + ((k + 1 : Nat) : Rat) / 10 }

/-- A streaming disk still has the numbers that it was made with. -/
theorem streamed_standard (k : Nat) : (streamed k).Standard := by
  cases k with
  | zero => exact ⟨rfl, rfl, rfl, rfl, rfl⟩
  | succ k => exact ⟨rfl, rfl, rfl, rfl, rfl⟩

/-- The next block keeps a disk streaming: after the first access it is one step on. -/
theorem streamed_enqueue {k : Nat} (hk : k < 10000) :
    (streamed k).enqueue k = .ok (streamed (k + 1)) := by
  have hfits : k < (streamed k).blocksPerDisk := by rwa [(streamed_standard k).2.2.2.2]
  obtain ⟨d', hd'⟩ := enqueue_of_lt hfits
  have hcases := enqueue_cases (streamed_standard k) hd'
  rw [hd']
  congr 1
  cases k with
  | zero =>
    -- the head starts off the disk
    have hfar : (streamed 0).distance 0 = 10000 := rfl
    rcases hcases with ⟨hone, _⟩ | ⟨_, hclose, _⟩ | ⟨_, rfl⟩
    · omega
    · omega
    · simp only [streamed, zero_add]
      norm_num
  | succ k =>
    have hnext : (streamed (k + 1)).distance (k + 1) = 1 := by
      simp [streamed, distance]
    rcases hcases with ⟨_, rfl⟩ | ⟨hne, _⟩ | ⟨hfar, _⟩
    · simp only [streamed]
      congr 1
      push_cast
      ring
    · omega
    · omega

/-- Going through the first blocks in order makes a streaming disk. -/
theorem foldlM_streamed {k : Nat} (hk : k ≤ 10000) :
    (range 0 k).foldlM Disk.enqueue {} = .ok (streamed k) := by
  induction k with
  | zero => rfl
  | succ k ih =>
    have hlast : range 0 (k + 1) = range 0 k ++ [k] := by
      rw [← range_append (Nat.zero_le k) (Nat.le_succ k), range_eq_cons (Nat.lt_succ_self k),
        range_self]
    rw [hlast, List.foldlM_append, ih (by omega)]
    show (streamed k).enqueue k >>= pure = _
    rw [streamed_enqueue (by omega)]
    rfl

/-- A disk that has streamed further has been busy for longer. -/
theorem streamed_util_mono {k k' : Nat} (h : k ≤ k') :
    (streamed k).utilTime ≤ (streamed k').utilTime := by
  cases k with
  | zero =>
    cases k' with
    | zero => exact le_rfl
    | succ k' =>
      have hcast : (0 : Rat) ≤ ((k' + 1 : Nat) : Rat) := Nat.cast_nonneg _
      show (0 : Rat) ≤ 10 + ((k' + 1 : Nat) : Rat) / 10
      linarith
  | succ k =>
    cases k' with
    | zero => omega
    | succ k' =>
      have hcast : ((k + 1 : Nat) : Rat) ≤ ((k' + 1 : Nat) : Rat) := by exact_mod_cast h
      show 10 + ((k + 1 : Nat) : Rat) / 10 ≤ 10 + ((k' + 1 : Nat) : Rat) / 10
      linarith

end Disk

/-! ## The disks of an array -/

/-- The offsets of the accesses to a disk, in order. -/
def offsOn (disk : Nat) (as : List Access) : List Nat :=
  (as.filter (·.disk = disk)).map Access.off

/-- What a disk gets of two lists of accesses is what it gets of the one and of the other. -/
theorem offsOn_append (disk : Nat) (as bs : List Access) :
    offsOn disk (as ++ bs) = offsOn disk as ++ offsOn disk bs := by
  simp [offsOn]

/-- Each disk serves its own accesses, in their order, and no other disk's. -/
theorem perform_disk {as : List Access} {st st' : RaidState} (h : perform as st = .ok ((), st'))
    {disk : Nat} {d : Disk} (hd : st.disks[disk]? = some d) :
    ∃ d', (offsOn disk as).foldlM Disk.enqueue d = .ok d' ∧ st'.disks[disk]? = some d' := by
  induction as generalizing st d with
  | nil =>
    obtain rfl : st = st' := congrArg Prod.snd (Except.ok.inj h)
    exact ⟨d, rfl, hd⟩
  | cons a as ih =>
    have hcons : perform (a :: as) st
        = (doSingle a.isWrite a.disk a.off st >>= fun p => perform as p.2) := rfl
    rw [hcons] at h
    obtain ⟨⟨_, st₁⟩, hfirst, hrest⟩ := bind_eq_ok.mp h
    unfold doSingle at hfirst
    cases hx : st.disks[a.disk]? with
    | none => simp [hx] at hfirst
    | some x =>
      cases he : x.enqueue a.off with
      | error e => simp [hx, he, bind, Except.bind] at hfirst
      | ok x' =>
        simp only [hx, he, bind, Except.bind, pure, Except.pure, Except.ok.injEq, Prod.mk.injEq,
          true_and] at hfirst
        subst hfirst
        have hin : a.disk < st.disks.length := (List.getElem?_eq_some_iff.mp hx).1
        -- An access to another disk leaves the queue of this one alone.
        by_cases hsame : a.disk = disk
        · obtain rfl : x = d := by
            rw [hsame, hd] at hx
            exact (Option.some.inj hx).symm
          obtain ⟨d', hrun, hd'⟩ := ih hrest (by
            show (st.disks.set a.disk x')[disk]? = some x'
            rw [← hsame, List.getElem?_set_self hin])
          refine ⟨d', ?_, hd'⟩
          simp only [offsOn, List.filter_cons, hsame, decide_true, if_true, List.map_cons,
            List.foldlM_cons, he]
          exact hrun
        · obtain ⟨d', hrun, hd'⟩ := ih hrest (by
            show (st.disks.set a.disk x')[disk]? = some d
            rw [List.getElem?_set_ne hsame, hd])
          refine ⟨d', ?_, hd'⟩
          simpa [offsOn, List.filter_cons, hsame] using hrun

/-- No access adds or removes a disk. -/
theorem perform_length {as : List Access} {st st' : RaidState}
    (h : perform as st = .ok ((), st')) : st'.disks.length = st.disks.length := by
  induction as generalizing st with
  | nil =>
    obtain rfl : st = st' := congrArg Prod.snd (Except.ok.inj h)
    rfl
  | cons a as ih =>
    have hcons : perform (a :: as) st
        = (doSingle a.isWrite a.disk a.off st >>= fun p => perform as p.2) := rfl
    rw [hcons] at h
    obtain ⟨⟨_, st₁⟩, hfirst, hrest⟩ := bind_eq_ok.mp h
    rw [ih hrest]
    unfold doSingle at hfirst
    split at hfirst
    · cases hfirst
    · obtain ⟨d', _, hfirst⟩ := bind_eq_ok.mp hfirst
      cases Except.ok.inj hfirst
      exact List.length_set

namespace Raid

variable (r : Raid)

/-- The loop ends with the greatest of its start and the busy times. -/
theorem tmaxLoop_spec (disks : List Disk) (tmax : Rat) :
    tmax ≤ tmaxLoop disks tmax ∧ (∀ d ∈ disks, d.utilTime ≤ tmaxLoop disks tmax) ∧
      (tmaxLoop disks tmax = tmax ∨ ∃ d ∈ disks, d.utilTime = tmaxLoop disks tmax) := by
  induction disks generalizing tmax with
  | nil => simp [tmaxLoop]
  | cons d disks ih =>
    obtain ⟨hge, hall, hattained⟩ := ih (if d.utilTime > tmax then d.utilTime else tmax)
    have hboth : tmax ≤ (if d.utilTime > tmax then d.utilTime else tmax) ∧
        d.utilTime ≤ (if d.utilTime > tmax then d.utilTime else tmax) := by
      split
      · exact ⟨by linarith, le_rfl⟩
      · exact ⟨le_rfl, by linarith⟩
    refine ⟨hboth.1.trans hge, List.forall_mem_cons.mpr ⟨hboth.2.trans hge, hall⟩, ?_⟩
    rcases hattained with heq | ⟨d', hd', heq⟩
    · show tmaxLoop disks _ = tmax ∨ _
      by_cases hlater : d.utilTime > tmax
      · exact .inr ⟨d, List.mem_cons_self, by rw [tmaxLoop, heq, if_pos hlater]⟩
      · rw [heq, if_neg hlater]
        exact .inl rfl
    · exact .inr ⟨d', List.mem_cons_of_mem _ hd', heq⟩

section Run

variable {r} {qs : List Request} {st : RaidState}
  (h : r.enqueueAll qs r.initState = .ok ((), st))
include h

/-- What has been issued are the accesses of the requests. -/
theorem issued_of_run : st.issued = qs.flatMap r.accesses := by
  rw [enqueueAll_eq] at h
  exact (perform_ok h).2.1

/-- The disks are as many as the array has. -/
theorem disks_of_run : st.disks.length = r.numDisks := by
  rw [enqueueAll_eq] at h
  rw [perform_length h]
  exact List.length_replicate

/-- What a disk has served are its own among the accesses that were issued. -/
theorem disk_of_run {disk : Nat} (hdisk : disk < r.numDisks) :
    ∃ d, (offsOn disk st.issued).foldlM Disk.enqueue {} = .ok d ∧ st.disks[disk]? = some d := by
  have hinit : r.initState.disks[disk]? = some {} := by simp [initState, hdisk]
  rw [issued_of_run h]
  rw [enqueueAll_eq] at h
  exact perform_disk h hinit

/-- Every disk has counted all of its accesses. -/
theorem accounted_of_run {disk : Nat} (hdisk : disk < r.numDisks) :
    ∃ d, st.disks[disk]? = some d ∧ d.Accounted (offsOn disk st.issued).length := by
  obtain ⟨d, hrun, hd⟩ := disk_of_run h hdisk
  have hacc := Disk.accounted_init.run hrun
  rw [Nat.zero_add] at hacc
  exact ⟨d, hd, hacc⟩

/-- Some disk is busy all the time: the total time is its busy time. -/
theorem exists_busiest : ∃ d ∈ st.disks, d.utilTime = go st := by
  obtain ⟨_, hall, hattained⟩ := tmaxLoop_spec st.disks 0
  rcases hattained with heq | hsome
  · -- nothing has been done: the first disk has 0
    have hpos : 0 < r.numDisks := by
      have hadm := r.admitted
      cases hlevel : r.raidLevel <;> simp only [hlevel, RaidLevel.Admits] at hadm <;> omega
    obtain ⟨d, hd, hacc⟩ := accounted_of_run h hpos
    have hmem : d ∈ st.disks := List.mem_of_getElem? hd
    have hnonneg : (0 : Rat) ≤ 101 / 10 * (d.countRand : Rat) + 1 / 10 * d.countSeq := by
      positivity
    refine ⟨d, hmem, le_antisymm (hall d hmem) ?_⟩
    show tmaxLoop st.disks 0 ≤ _
    rw [heq]
    exact hnonneg.trans hacc.util_ge
  · exact hsome

end Run

/-- No disk is busy for longer than the total time. -/
theorem utilTime_le_go {st : RaidState} {d : Disk} (hd : d ∈ st.disks) : d.utilTime ≤ go st :=
  (tmaxLoop_spec st.disks 0).2.1 d hd

/-- **The statistics add up.** After any workload every disk has counted each access it got once,
as sequential, nearly sequential or random; its busy time is what these cost; and the total time
is the busy time of the busiest disk. -/
theorem stats_add_up {qs : List Request} {st : RaidState}
    (h : r.enqueueAll qs r.initState = .ok ((), st)) :
    st.disks.length = r.numDisks ∧
    (∀ disk < r.numDisks, ∃ d, st.disks[disk]? = some d ∧
      d.Accounted (offsOn disk st.issued).length) ∧
    (∀ d ∈ st.disks, d.utilTime ≤ go st) ∧ ∃ d ∈ st.disks, d.utilTime = go st :=
  ⟨disks_of_run h, fun _ hdisk => accounted_of_run h hdisk, fun _ hd => utilTime_le_go hd,
    exists_busiest h⟩

/-- Two writes and a read on `raid5Three`, and the counters of its second disk. -/
theorem stats_add_up_raid5Three : ∃ st, raid5Three.enqueueAll
    [⟨1, 4, true⟩, ⟨7, 1, true⟩, ⟨0, 3, false⟩] raid5Three.initState = .ok ((), st) ∧
      st.disks.length = 3 ∧ ∃ d, st.disks[1]? = some d ∧ d.Accounted (offsOn 1 st.issued).length := by
  have hfits : ∀ a ∈ ([⟨1, 4, true⟩, ⟨7, 1, true⟩, ⟨0, 3, false⟩] : List Request).flatMap
      raid5Three.accesses, a.disk < 3 ∧ a.off < 10000 := by decide
  obtain ⟨st, hrun⟩ := perform_of_fits fun a ha =>
    (raid5Three.hasDisks_initState a).mpr (hfits a ha)
  rw [← enqueueAll_eq] at hrun
  obtain ⟨hlength, hdisks, _⟩ := stats_add_up raid5Three hrun
  exact ⟨st, hrun, hlength, hdisks 1 (by decide)⟩

/-! ## Going through the blocks in order -/

/-- The workloads under which every block is one access to its disk, or one to each mirror. -/
def Streams (draws : List (Nat × Bool)) : Prop :=
  match r.raidLevel with
  | .zero => True
  | .one => ∀ draw ∈ draws, draw.2 = true
  | .four => ∀ draw ∈ draws, draw.2 = false
  | .five => False

/-- The column of the blocks on a disk. -/
def column (disk : Nat) : Nat :=
  match r.raidLevel with
  | .one => disk / 2
  | _ => disk

/-- The blocks below `n` that a disk has. -/
def blocksOn (n disk : Nat) : Nat :=
  if r.column disk < r.grid.cols then r.grid.filled n (r.column disk) else 0

/-- The offsets that a disk sees when `blocks` are gone through. -/
def streamOffs (disk : Nat) (blocks : List Nat) : List Nat :=
  (blocks.filter fun b => r.grid.col b = r.column disk).map fun b => (r.place b).2

/-- The offsets of two lists of blocks are those of the one and of the other. -/
theorem streamOffs_append (disk : Nat) (as bs : List Nat) :
    r.streamOffs disk (as ++ bs) = r.streamOffs disk as ++ r.streamOffs disk bs := by
  simp [streamOffs]

/-- A disk gets its blocks without a gap: the offsets from 0 on, one after the other. -/
theorem streamOffs_range (disk n : Nat) :
    r.streamOffs disk (range 0 n) = range 0 (r.blocksOn n disk) := by
  induction n with
  | zero => simp [streamOffs, blocksOn, Grid.filled_zero]
  | succ n ih =>
    have hlast : ∀ k, range 0 (k + 1) = range 0 k ++ [k] := fun k => by
      rw [← range_append (Nat.zero_le k) (Nat.le_succ k), range_eq_cons (Nat.lt_succ_self k),
        range_self]
    rw [hlast, streamOffs_append, ih]
    unfold streamOffs blocksOn
    by_cases hcol : r.column disk < r.grid.cols
    · rw [if_pos hcol, if_pos hcol, r.grid.filled_succ n hcol]
      by_cases hhere : r.column disk = r.grid.col n
      · have hoff : (r.place n).2 = r.grid.filled n (r.column disk) := by
          rw [hhere, Grid.filled_col]
          rfl
        rw [if_pos hhere, hlast, List.filter_singleton]
        simp [hhere.symm, hoff]
      · rw [if_neg hhere, List.filter_singleton]
        simp [Ne.symm hhere]
    · have hother : r.grid.col n ≠ r.column disk := fun h => hcol (h ▸ r.grid.col_lt n)
      rw [if_neg hcol, if_neg hcol, List.filter_singleton]
      simp [hother]

/-- What a streaming request is for a disk: the offsets of its blocks there. -/
theorem offsOn_blockAccesses {draws : List (Nat × Bool)} (hs : r.Streams draws)
    {draw : Nat × Bool} (hdraw : draw ∈ draws) (disk : Nat) (blocks : List Nat) :
    offsOn disk (blocks.flatMap (r.blockAccesses draw.2)) = r.streamOffs disk blocks := by
  induction blocks with
  | nil => rfl
  | cons b blocks ih =>
    rw [List.flatMap_cons, offsOn_append, ih, ← List.singleton_append, streamOffs_append]
    -- It remains to compare one block, level by level.
    congr 1
    unfold Streams at hs
    cases hlevel : r.raidLevel with
    | zero =>
      have hdisk : (r.place b).1 = r.grid.col b := by simp [place, Grid.place, dataDisk, hlevel]
      by_cases hhere : r.grid.col b = disk <;>
        cases draw.2 <;>
        simp [blockAccesses, readPlace, hlevel, offsOn, streamOffs, column, readAt, writeAt, hdisk,
          hhere]
    | one =>
      rw [hlevel] at hs
      have hdisk : (r.place b).1 = 2 * r.grid.col b := by
        simp [place, Grid.place, dataDisk, hlevel]
      rw [hs draw hdraw]
      simp only [blockAccesses, hlevel, offsOn, streamOffs, column, mirror, writeAt, hdisk,
        List.filter_cons, List.filter_nil]
      by_cases hhere : r.grid.col b = disk / 2
      -- Of a mirrored pair both disks are written.
      · rcases Nat.mod_two_eq_zero_or_one disk with heven | hodd
        · rw [if_pos (by simp; omega), if_neg (by simp; omega), if_pos (by simpa using hhere)]
          rfl
        · rw [if_neg (by simp; omega), if_pos (by simp; omega), if_pos (by simpa using hhere)]
          rfl
      · rw [if_neg (by simp; omega), if_neg (by simp; omega), if_neg (by simpa using hhere)]
        rfl
    | four =>
      rw [hlevel] at hs
      have hdisk : (r.place b).1 = r.grid.col b := by simp [place, Grid.place, dataDisk, hlevel]
      rw [hs draw hdraw]
      by_cases hhere : r.grid.col b = disk <;>
        simp [blockAccesses, readPlace, hlevel, offsOn, streamOffs, column, readAt, hdisk, hhere]
    | five =>
      rw [hlevel] at hs
      exact hs.elim

/-- The accesses of a streaming request are those of its blocks, one by one. -/
theorem accesses_streams {draws : List (Nat × Bool)} (hs : r.Streams draws) {draw : Nat × Bool}
    (hdraw : draw ∈ draws) (addr size : Nat) : r.accesses ⟨addr, size, draw.2⟩ =
      (range addr (addr + size)).flatMap (r.blockAccesses draw.2) := by
  unfold Streams at hs
  unfold accesses
  cases hlevel : r.raidLevel with
  | zero => rfl
  | one => rfl
  | four =>
    rw [hlevel] at hs
    rw [hs draw hdraw]
  | five =>
    rw [hlevel] at hs
    exact hs.elim

/-- The offsets that the requests from `first` on ask of a disk. -/
theorem offsOn_requests {all : List (Nat × Bool)} (hs : r.Streams all) (disk size : Nat)
    {draws : List (Nat × Bool)} (hdraws : ∀ draw ∈ draws, draw ∈ all) (first : Nat) :
    offsOn disk ((requests true size first draws).flatMap r.accesses) =
      r.streamOffs disk (range first (first + draws.length * size)) := by
  induction draws generalizing first with
  | nil => simp [requests, offsOn, streamOffs]
  | cons draw draws ih =>
    rw [List.forall_mem_cons] at hdraws
    have hsplit : range first (first + (draw :: draws).length * size) =
        range first (first + size) ++ range (first + size) (first + size + draws.length * size) := by
      rw [range_append (by omega) (by omega), List.length_cons, Nat.add_mul, Nat.one_mul]
      congr 1
      omega
    show offsOn disk (r.accesses ⟨first, size, draw.2⟩ ++
      (requests true size (first + size) draws).flatMap r.accesses) = _
    rw [offsOn_append, ih hdraws.2, hsplit, streamOffs_append, r.accesses_streams hs hdraws.1,
      r.offsOn_blockAccesses hs hdraws.1]

/-- The first disk never has fewer blocks than another one. -/
theorem blocksOn_le (n disk : Nat) : r.blocksOn n disk ≤ r.blocksOn n 0 := by
  have hzero : r.column 0 = 0 := by
    unfold column
    split <;> rfl
  unfold blocksOn
  rw [hzero, if_pos r.grid.cols_pos]
  split
  · exact r.grid.filled_mono n (Nat.zero_le _)
  · exact Nat.zero_le _

section Stream

variable {draws : List (Nat × Bool)} (hs : r.Streams draws) (size : Nat)
include hs

/-- The offsets that a sequential workload asks of a disk are those from 0 on. -/
theorem offsOn_sequential (disk : Nat) :
    offsOn disk ((requests true size 0 draws).flatMap r.accesses) =
      range 0 (r.blocksOn (draws.length * size) disk) := by
  rw [r.offsOn_requests hs disk size (fun _ h => h) 0, Nat.zero_add, streamOffs_range]

/-- A workload only asks for disks that exist. -/
theorem requests_disk_lt {sub : List (Nat × Bool)} (hsub : ∀ draw ∈ sub, draw ∈ draws)
    (first : Nat) {a : Access} (ha : a ∈ (requests true size first sub).flatMap r.accesses) :
    a.disk < r.numDisks := by
  induction sub generalizing first with
  | nil => simp [requests] at ha
  | cons draw sub ih =>
    rw [List.forall_mem_cons] at hsub
    have hcons : (requests true size first (draw :: sub)).flatMap r.accesses =
        r.accesses ⟨first, size, draw.2⟩ ++
          (requests true size (first + size) sub).flatMap r.accesses := rfl
    rw [hcons, r.accesses_streams hs hsub.1, List.mem_append] at ha
    rcases ha with ha | ha
    · obtain ⟨b, _, hb⟩ := List.mem_flatMap.mp ha
      exact r.blockAccesses_disk_lt hb
    · exact ih hsub.2 _ ha

/-- The workload ends if the first disk, which fills up first, has room, and only then. -/
theorem sequential_ok_iff :
    (∃ st, r.enqueueAll (requests true size 0 draws) r.initState = .ok ((), st)) ↔
      r.blocksOn (draws.length * size) 0 ≤ 10000 := by
  rw [enqueueAll_eq]
  constructor
  · rintro ⟨st, hrun⟩
    by_contra hfull
    have hmem : 10000 ∈ offsOn 0 ((requests true size 0 draws).flatMap r.accesses) := by
      rw [r.offsOn_sequential hs size 0, mem_range]
      omega
    obtain ⟨a, ha, hoff⟩ := List.mem_map.mp hmem
    have hfits := (perform_ok hrun).1 a (List.mem_filter.mp ha).1
    rw [r.hasDisks_initState a, hoff] at hfits
    exact absurd hfits.2 (by decide)
  · intro hroom
    refine perform_of_fits fun a ha => (r.hasDisks_initState a).mpr
      ⟨r.requests_disk_lt hs size (fun _ h => h) 0 ha, ?_⟩
    have hmem : a.off ∈ offsOn a.disk ((requests true size 0 draws).flatMap r.accesses) :=
      List.mem_map_of_mem (List.mem_filter.mpr ⟨ha, decide_eq_true rfl⟩)
    rw [r.offsOn_sequential hs size, mem_range] at hmem
    have hle := r.blocksOn_le (draws.length * size) a.disk
    show a.off < 10000
    omega

/-- **Streaming.** A sequential workload of blocks that are one access each keeps every disk
streaming: each disk is asked for the blocks it has, in order and without a gap, so it seeks once
and then moves on by one. It ends exactly if the blocks fit on the first disk, and takes as long
as that disk does. -/
theorem sequential_streams :
    ((∃ st, r.enqueueAll (requests true size 0 draws) r.initState = .ok ((), st)) ↔
      r.blocksOn (draws.length * size) 0 ≤ 10000) ∧
    ∀ st, r.enqueueAll (requests true size 0 draws) r.initState = .ok ((), st) →
      (∀ disk < r.numDisks,
        st.disks[disk]? = some (Disk.streamed (r.blocksOn (draws.length * size) disk))) ∧
      go st = (Disk.streamed (r.blocksOn (draws.length * size) 0)).utilTime := by
  refine ⟨r.sequential_ok_iff hs size, fun st hrun => ?_⟩
  have hroom := (r.sequential_ok_iff hs size).mp ⟨st, hrun⟩
  have hdisk : ∀ disk < r.numDisks,
      st.disks[disk]? = some (Disk.streamed (r.blocksOn (draws.length * size) disk)) := by
    intro disk hlt
    obtain ⟨d, hd, hget⟩ := disk_of_run hrun hlt
    rw [issued_of_run hrun, r.offsOn_sequential hs size,
      Disk.foldlM_streamed ((r.blocksOn_le _ disk).trans hroom)] at hd
    rw [hget, ← Except.ok.inj hd]
  refine ⟨hdisk, ?_⟩
  obtain ⟨busiest, hbusiest, hgo⟩ := exists_busiest hrun
  obtain ⟨disk, hin, hget⟩ := List.mem_iff_getElem.mp hbusiest
  have hlt : disk < r.numDisks := disks_of_run hrun ▸ hin
  have hbusy : busiest = Disk.streamed (r.blocksOn (draws.length * size) disk) := by
    have hsome := hdisk disk hlt
    rw [List.getElem?_eq_getElem hin, hget] at hsome
    exact Option.some.inj hsome
  apply le_antisymm
  · rw [← hgo, hbusy]
    exact Disk.streamed_util_mono (r.blocksOn_le _ disk)
  · exact utilTime_le_go (List.mem_of_getElem? (hdisk 0 (by omega)))

end Stream

/-- A four-disk RAID-0 with one block to a chunk. -/
def raid0Four : Raid := ⟨1, 4, .zero, .LS, Nat.one_pos, Nat.succ_pos 3⟩

/-- Ten one-block requests on four disks: the first two disks get three blocks each. -/
theorem sequential_streams_raid0Four : raid0Four.blocksOn 10 0 = 3 ∧
    ∃ st, raid0Four.enqueueAll (requests true 1 0 (List.replicate 10 (0, false)))
      raid0Four.initState = .ok ((), st) ∧ go st = (Disk.streamed 3).utilTime := by
  have hs : raid0Four.Streams (List.replicate 10 (0, false)) := trivial
  obtain ⟨hiff, htime⟩ := sequential_streams raid0Four hs 1
  obtain ⟨st, hrun⟩ := hiff.mpr (by decide)
  exact ⟨by decide, st, hrun, (htime st hrun).2⟩

end Raid

end OsLab
