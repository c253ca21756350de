import Mathlib.Data.Rat.Defs
import OsLab.Raid.Layout

/-!
# Physical I/O of the RAID simulator

`disk.enqueue` with its statistics, the single reads and writes, and the RAID-4/5 write path
`doPartialWrite` and `enqueue45`. The write path is run in a state that also keeps the list of
physical accesses in the order they are issued. Every access it makes is known before the first one
is made, so the second half of the module gives each routine as `perform` of a list.

* **`Disk.enqueue`** -- an access of a disk: its assertion and its statistics. Times are exact
  milliseconds.
* **`RaidM`** -- the routines of the array, which run on its disks and may abort.
* **`perform`** -- the accesses of a list in order. `HasDisks.perform_iff` and
  `HasDisks.perform_stops` say when it comes to its end and where it is stopped otherwise.
* **`doPartialWrite_eq`**, **`writeStripes_eq`** -- the write path as such lists.
-/

namespace OsLab

/-! ## Disks -/

/-- A `disk` object; times are exact milliseconds. -/
structure Disk where
  seekTime : Rat := 10
  xferTime : Rat := 1 / 10
  currAddr : Int := -10000
  numTracks : Nat := 100
  blocksPerTrack : Nat := 100
  blocksPerDisk : Nat := 100 * 100
  countIO : Nat := 0
  countSeq : Nat := 0
  countNseq : Nat := 0
  countRand : Nat := 0
  utilTime : Rat := 0

/-- `disk.enqueue` -/
def Disk.enqueue (d : Disk) (addr : Nat) : Except Abort Disk := do
  assert (addr < d.blocksPerDisk) "addr < self.blocksPerDisk"
  let currTrack := d.currAddr / d.numTracks
  let newTrack := (addr : Int) / d.numTracks
  let diff := ((addr : Int) - d.currAddr).natAbs
  let d := { d with countIO := d.countIO + 1 }
  let d :=
    if currTrack = newTrack ∨ diff < d.blocksPerTrack then
      let d := if diff = 1 then { d with countSeq := d.countSeq + 1 }
        else { d with countNseq := d.countNseq + 1 }
      { d with utilTime := d.utilTime + diff * d.xferTime }
    else
      { d with countRand := d.countRand + 1, utilTime := d.utilTime + (d.seekTime + d.xferTime) }
  return { d with currAddr := addr }

/-- An access that is made is on the disk, and leaves the size of the disk. -/
theorem Disk.enqueue_ok {d d' : Disk} {addr : Nat} (h : d.enqueue addr = .ok d') :
    addr < d.blocksPerDisk ∧ d'.blocksPerDisk = d.blocksPerDisk := by
  unfold Disk.enqueue at h
  by_cases hlt : addr < d.blocksPerDisk
  · refine ⟨hlt, ?_⟩
    simp only [hlt, decide_true, assert_true, bind, Except.bind, pure, Except.pure,
      Except.ok.injEq] at h
    rw [← h]
    split <;> try split
    all_goals rfl
  · simp [hlt, bind, Except.bind] at h

/-- An access on the disk is made: the assertion is the only way to fail. -/
theorem Disk.enqueue_of_lt {d : Disk} {addr : Nat} (h : addr < d.blocksPerDisk) :
    ∃ d', d.enqueue addr = .ok d' := by
  unfold Disk.enqueue
  simp [h, bind, Except.bind, pure, Except.pure]

/-! ## Single accesses -/

/-- One physical read or write. -/
structure Access where
  isWrite : Bool
  disk : Nat
  off : Nat
  deriving DecidableEq, Repr

/-- Where an access goes. -/
def Access.place (a : Access) : Nat × Nat := (a.disk, a.off)

/-- A read of a place. -/
def readAt (p : Nat × Nat) : Access := ⟨false, p.1, p.2⟩

/-- A write to a place. -/
def writeAt (p : Nat × Nat) : Access := ⟨true, p.1, p.2⟩

/-- The disks, and the physical accesses issued so far. -/
structure RaidState where
  disks : List Disk
  issued : List Access

/-- The simulator's routines run on the disks and may abort. -/
abbrev RaidM := StateT RaidState (Except Abort)

/-- The body `doSingleRead` and `doSingleWrite` share. -/
def doSingle (isWrite : Bool) (disk off : Nat) : RaidM Unit := fun st =>
  match st.disks[disk]? with
  | none => .error .indexError
  | some d => do
    let d' ← d.enqueue off
    return ((), { disks := st.disks.set disk d', issued := st.issued ++ [⟨isWrite, disk, off⟩] })

/-- `raid.doSingleRead` -/
def doSingleRead (disk off : Nat) : RaidM Unit := doSingle false disk off

/-- `raid.doSingleWrite` -/
def doSingleWrite (disk off : Nat) : RaidM Unit := doSingle true disk off

namespace Raid

variable (r : Raid)

/-- The disks of a fresh `raid` object. -/
def initState : RaidState := ⟨List.replicate r.numDisks {}, []⟩

/-! ## The RAID-4/5 write path -/

section Source

variable (bmap : Nat → Except Abort (Nat × Nat)) (pmap : Nat → Except Abort Nat)

/-- The loops over data blocks that also collect `offList`. -/
def accessBlocks (access : Nat → Nat → RaidM Unit) : List Nat → List Nat → RaidM (List Nat)
  | [], offList => return offList
  | voff :: rest, offList => do
    let (disk, off) ← bmap voff
    access disk off
    accessBlocks access rest (if off ∈ offList then offList else offList ++ [off])

/-- The loops over data blocks of the additive branch. -/
def readBlocks : List Nat → RaidM Unit
  | [] => return
  | voff :: rest => do
    let (disk, off) ← bmap voff
    doSingleRead disk off
    readBlocks rest

/-- The loops over `offList`, on the parity disk. -/
def accessParity (access : Nat → Nat → RaidM Unit) (pdisk : Nat) : List Nat → RaidM Unit
  | [] => return
  | off :: rest => do
    access pdisk off
    accessParity access pdisk rest

/-- `raid.doPartialWrite` -/
def doPartialWrite (stripe begin end_ : Nat) : RaidM Unit := do
  let numWrites := end_ - begin
  let pdisk ← pmap stripe
  if numWrites + 1 ≤ r.blocksInStripe - numWrites then
    -- subtractive parity
    let offList ← accessBlocks bmap doSingleRead (range begin end_) []
    accessParity doSingleRead pdisk offList
  else
    -- additive parity
    let stripeBegin := stripe * r.blocksInStripe
    let stripeEnd := stripeBegin + r.blocksInStripe
    readBlocks bmap (range stripeBegin begin)
    readBlocks bmap (range end_ stripeEnd)
  let offList ← accessBlocks bmap doSingleWrite (range begin end_) []
  accessParity doSingleWrite pdisk offList

/-- The loop over stripes of a write in `raid.enqueue45`. -/
def writeStripes : List Nat → Nat → Nat → RaidM Unit
  | [], _, _ => return
  | stripe :: rest, left, begin => do
    let endOfStripe := (stripe * r.blocksInStripe) + r.blocksInStripe
    let end_ := if left ≥ r.blocksInStripe then begin + r.blocksInStripe else begin + left
    let end_ := if end_ ≥ endOfStripe then endOfStripe else end_
    r.doPartialWrite bmap pmap stripe begin end_
    writeStripes rest (left - (end_ - begin)) end_

end Source

/-- The pair `(bmap, pmap)` that `raid.enqueue45` picks by level; at the other levels, which
never call it, the names are unbound. -/
def maps45 : Except Abort ((Nat → Except Abort (Nat × Nat)) × (Nat → Except Abort Nat)) :=
  match r.raidLevel with
  | .four => return (fun b => return r.bmap4 b, fun s => return r.pmap4 s)
  | .five => return (r.bmap5, r.pmap5)
  | _ => throw .typeError

/-- `raid.enqueue45` -/
def enqueue45 (addr size : Nat) (isWrite : Bool) : RaidM Unit := do
  let (bmap, pmap) ← r.maps45
  if isWrite = false then
    readBlocks bmap (range addr (addr + size))
  else
    let initStripe := addr / r.blocksInStripe
    let finalStripe := (addr + size - 1) / r.blocksInStripe
    r.writeStripes bmap pmap (range initStripe (finalStripe + 1)) size addr

end Raid

/-! ## Performing a list of accesses -/

/-- Issue the accesses of a list in order. -/
def perform : List Access → RaidM Unit
  | [] => return
  | a :: rest => do
    doSingle a.isWrite a.disk a.off
    perform rest

@[simp] theorem perform_nil : perform [] = pure () := rfl

theorem perform_cons (a : Access) (rest : List Access) :
    perform (a :: rest) = doSingle a.isWrite a.disk a.off >>= fun _ => perform rest := rfl

/-- Two lists after each other are performed one after the other. -/
theorem perform_append (as bs : List Access) :
    perform (as ++ bs) = perform as >>= fun _ => perform bs := by
  induction as with
  | nil => simp
  | cons a as ih => simp only [List.cons_append, perform_cons, ih, bind_assoc]

/-- An access can be made when its disk exists and its offset is on the disk. -/
def Access.Fits (st : RaidState) (a : Access) : Prop :=
  ∃ d, st.disks[a.disk]? = some d ∧ a.off < d.blocksPerDisk

/-- A single access that is made has fitted; it is then the last one issued, and every access that
fitted still does. -/
theorem doSingle_ok {st st' : RaidState} {a : Access}
    (h : doSingle a.isWrite a.disk a.off st = .ok ((), st')) :
    a.Fits st ∧ st'.issued = st.issued ++ [a] ∧ ∀ b : Access, b.Fits st' ↔ b.Fits st := by
  unfold doSingle at h
  cases hd : st.disks[a.disk]? with
  | none => simp [hd] at h
  | some d =>
    cases he : d.enqueue a.off with
    | error e => simp [hd, he, bind, Except.bind] at h
    | ok d' =>
      obtain ⟨hlt, hsize⟩ := Disk.enqueue_ok he
      simp only [hd, he, bind, Except.bind, pure, Except.pure, Except.ok.injEq, Prod.mk.injEq,
        true_and] at h
      subst h
      refine ⟨⟨d, hd, hlt⟩, rfl, fun b => ?_⟩
      unfold Access.Fits
      rw [List.getElem?_set]
      by_cases hab : a.disk = b.disk
      · have hin : a.disk < st.disks.length := (List.getElem?_eq_some_iff.mp hd).1
        rw [if_pos hab, if_pos hin, ← hab, hd]
        simp [hsize]
      · rw [if_neg hab]

/-- An access that fits is made. -/
theorem doSingle_of_fits {st : RaidState} {a : Access} (h : a.Fits st) :
    ∃ st', doSingle a.isWrite a.disk a.off st = .ok ((), st') := by
  obtain ⟨d, hd, hlt⟩ := h
  obtain ⟨d', he⟩ := Disk.enqueue_of_lt hlt
  simp only [doSingle, hd, he, bind, Except.bind, pure, Except.pure]
  exact ⟨_, rfl⟩

/-- A list of accesses performed to its end fitted, and precisely these accesses have been
issued, in order, on disks of the same sizes. -/
theorem perform_ok {as : List Access} {st st' : RaidState} (h : perform as st = .ok ((), st')) :
    (∀ a ∈ as, a.Fits st) ∧ st'.issued = st.issued ++ as ∧
      ∀ b : Access, b.Fits st' ↔ b.Fits st := by
  induction as generalizing st with
  | nil =>
    obtain rfl : st = st' := congrArg Prod.snd (Except.ok.inj h)
    simp
  | cons a as ih =>
    have hcons : perform (a :: as) st
        = (doSingle a.isWrite a.disk a.off st >>= fun p => perform as p.2) := rfl
    rw [hcons] at h
    cases ha : doSingle a.isWrite a.disk a.off st with
    | error e => simp [ha, bind, Except.bind] at h
    | ok p =>
      obtain ⟨hfits, hissued, hsame⟩ := doSingle_ok ha
      have htail : perform as p.2 = .ok ((), st') := by simpa [ha, bind, Except.bind] using h
      obtain ⟨hrest, hissued', hsame'⟩ := ih htail
      refine ⟨?_, ?_, fun b => (hsame' b).trans (hsame b)⟩
      · exact List.forall_mem_cons.mpr ⟨hfits, fun b hb => (hsame b).mp (hrest b hb)⟩
      · rw [hissued', hissued, List.append_assoc, List.singleton_append]

/-- Accesses that all fit are performed to the end. By induction on the list: an access that is made
keeps the others fitting. -/
theorem perform_of_fits {as : List Access} {st : RaidState} (h : ∀ a ∈ as, a.Fits st) :
    ∃ st', perform as st = .ok ((), st') := by
  induction as generalizing st with
  | nil => exact ⟨st, rfl⟩
  | cons a as ih =>
    rw [List.forall_mem_cons] at h
    obtain ⟨st₁, hst₁⟩ := doSingle_of_fits h.1
    obtain ⟨_, _, hsame⟩ := doSingle_ok hst₁
    have htail : ∀ b ∈ as, b.Fits st₁ := fun b hb => (hsame b).mpr (h.2 b hb)
    obtain ⟨st₂, hst₂⟩ := ih htail
    refine ⟨st₂, ?_⟩
    have hcons : perform (a :: as) st
        = (doSingle a.isWrite a.disk a.off st >>= fun p => perform as p.2) := rfl
    rw [hcons, hst₁]
    exact hst₂

namespace Raid

variable (r : Raid)

/-- A state with the disks of `r`: those below `numDisks`, with `blocksPerDisk` blocks each. -/
def HasDisks (st : RaidState) : Prop :=
  ∀ a : Access, a.Fits st ↔ a.disk < r.numDisks ∧ a.off < ({} : Disk).blocksPerDisk

/-- Fresh disks are the disks of `r`. -/
theorem hasDisks_initState : r.HasDisks r.initState := by
  intro a
  unfold Access.Fits initState
  simp only [List.getElem?_replicate]
  by_cases h : a.disk < r.numDisks <;> simp [h]

section HasDisks

variable {r} {st : RaidState}

/-- The disks keep their sizes, so a state with the disks of `r` stays one. -/
theorem HasDisks.perform {as : List Access} {st' : RaidState} (hst : r.HasDisks st)
    (hrun : OsLab.perform as st = .ok ((), st')) : r.HasDisks st' := fun a =>
  ((perform_ok hrun).2.2 a).trans (hst a)

/-- An access past the end of its disk fails the assertion of `disk.enqueue`, and nothing is
issued. -/
theorem HasDisks.doSingle_past_end (hst : r.HasDisks st) {a : Access} (hdisk : a.disk < r.numDisks)
    (hpast : ({} : Disk).blocksPerDisk ≤ a.off) :
    doSingle a.isWrite a.disk a.off st =
      .error (.assertionError "addr < self.blocksPerDisk") := by
  -- the disk is there, because its first block could be accessed
  obtain ⟨d, hd, -⟩ := (hst ⟨a.isWrite, a.disk, 0⟩).mpr
    ⟨hdisk, show 0 < ({} : Disk).blocksPerDisk by decide⟩
  have hnot : ¬ a.off < d.blocksPerDisk := by
    intro hlt
    have hoff := ((hst a).mp ⟨d, hd, hlt⟩).2
    omega
  unfold doSingle
  have hd' : st.disks[a.disk]? = some d := hd
  rw [hd']
  simp [Disk.enqueue, hnot, bind, Except.bind]

/-- A run over the accesses `as` that is stopped at the first one past the end of its disk: the
accesses in front of it have been made, it has failed the assertion of `disk.enqueue`, and that
failure is what the run ends in. -/
def StopsPastEnd (as : List Access) (st : RaidState) (result : Except Abort (Unit × RaidState)) :
    Prop :=
  ∃ before a after st', as = before ++ a :: after ∧
    (∀ b ∈ before, b.off < ({} : Disk).blocksPerDisk) ∧ ({} : Disk).blocksPerDisk ≤ a.off ∧
    OsLab.perform before st = .ok ((), st') ∧ st'.issued = st.issued ++ before ∧
    doSingle a.isWrite a.disk a.off st' = result ∧
    result = .error (.assertionError "addr < self.blocksPerDisk")

/-- Accesses to disks that exist are made to the end exactly if their offsets are on the disks. -/
theorem HasDisks.perform_iff (hst : r.HasDisks st) {as : List Access}
    (hdisk : ∀ a ∈ as, a.disk < r.numDisks) :
    (∃ st', OsLab.perform as st = .ok ((), st') ∧ r.HasDisks st' ∧
        st'.issued = st.issued ++ as) ↔
      ∀ a ∈ as, a.off < ({} : Disk).blocksPerDisk := by
  constructor
  · rintro ⟨st', hrun, -⟩ a ha
    exact ((hst a).mp ((perform_ok hrun).1 a ha)).2
  · intro hon
    obtain ⟨st', hrun⟩ := perform_of_fits fun a ha => (hst a).mpr ⟨hdisk a ha, hon a ha⟩
    exact ⟨st', hrun, hst.perform hrun, (perform_ok hrun).2.1⟩

/-- Otherwise they are stopped at the first one that is not. The induction is on the accesses: the
first one fails, or is made and leaves the disks as large as they were. -/
theorem HasDisks.perform_stops (hst : r.HasDisks st) {as : List Access}
    (hdisk : ∀ a ∈ as, a.disk < r.numDisks)
    (hpast : ¬ ∀ a ∈ as, a.off < ({} : Disk).blocksPerDisk) :
    StopsPastEnd as st (OsLab.perform as st) := by
  induction as generalizing st with
  | nil => simp at hpast
  | cons a as ih =>
    rw [List.forall_mem_cons] at hdisk
    have hcons : OsLab.perform (a :: as) st =
        (doSingle a.isWrite a.disk a.off st >>= fun p => OsLab.perform as p.2) := rfl
    -- The first access past the end stops the run; those before it are carried out.
    by_cases hoff : a.off < ({} : Disk).blocksPerDisk
    · obtain ⟨st₁, hfirst⟩ := doSingle_of_fits ((hst a).mpr ⟨hdisk.1, hoff⟩)
      obtain ⟨-, hissued, hsame⟩ := doSingle_ok hfirst
      -- This one fits, so one of the others does not.
      have hlater : ¬ ∀ b ∈ as, b.off < ({} : Disk).blocksPerDisk := fun hall =>
        hpast (List.forall_mem_cons.mpr ⟨hoff, hall⟩)
      obtain ⟨before, b, after, st', rfl, hbefore, hend, hrun, hissued', hfails, herror⟩ :=
        ih (fun b => (hsame b).trans (hst b)) hdisk.2 hlater
      have htail : OsLab.perform (a :: (before ++ b :: after)) st =
          OsLab.perform (before ++ b :: after) st₁ := by
        rw [hcons, hfirst]
        rfl
      refine ⟨a :: before, b, after, st', rfl, List.forall_mem_cons.mpr ⟨hoff, hbefore⟩, hend,
        ?_, ?_, ?_, ?_⟩
      · show (doSingle a.isWrite a.disk a.off st >>= fun p => OsLab.perform before p.2) = _
        rw [hfirst]
        exact hrun
      · rw [hissued', hissued, List.append_assoc, List.singleton_append]
      · rw [htail]
        exact hfails
      · rw [htail]
        exact herror
    · have hfails := hst.doSingle_past_end hdisk.1 (Nat.le_of_not_lt hoff)
      have hstops : OsLab.perform (a :: as) st =
          .error (.assertionError "addr < self.blocksPerDisk") := by
        rw [hcons, hfails]
        rfl
      refine ⟨[], a, as, st, rfl, by simp, Nat.le_of_not_lt hoff, rfl, by simp, ?_, hstops⟩
      rw [hstops, hfails]

end HasDisks

/-! ## The accesses of the write path -/

/-- `offList` after a loop over places, for any places already collected. -/
def collectOffs (offList : List Nat) (places : List (Nat × Nat)) : List Nat :=
  places.foldl (fun offs p => if p.2 ∈ offs then offs else offs ++ [p.2]) offList

section Pure

variable {bmap : Nat → Except Abort (Nat × Nat)} {pmap : Nat → Except Abort Nat}
variable {place : Nat → Nat × Nat} {parity : Nat → Nat}

/-- The loop over data blocks performs one access for each, and collects their offsets. -/
theorem accessBlocks_eq (hbmap : ∀ b, bmap b = .ok (place b)) (isWrite : Bool)
    (blocks offList : List Nat) :
    accessBlocks bmap (doSingle isWrite) blocks offList =
      perform (blocks.map fun b => ⟨isWrite, (place b).1, (place b).2⟩) >>= fun _ =>
        pure (collectOffs offList (blocks.map place)) := by
  induction blocks generalizing offList with
  | nil => rfl
  | cons b blocks ih =>
    have hstep : accessBlocks bmap (doSingle isWrite) (b :: blocks) offList =
        (liftM (bmap b) : RaidM _) >>= fun p => doSingle isWrite p.1 p.2 >>= fun _ =>
          accessBlocks bmap (doSingle isWrite) blocks
            (if p.2 ∈ offList then offList else offList ++ [p.2]) := rfl
    have hlift : (liftM (bmap b) : RaidM _) = pure (place b) := by rw [hbmap]; rfl
    rw [hstep, hlift, pure_bind, List.map_cons, perform_cons, bind_assoc]
    simp only [ih]
    rfl

/-- The loop of the additive branch performs one read for each block. -/
theorem readBlocks_eq (hbmap : ∀ b, bmap b = .ok (place b)) (blocks : List Nat) :
    readBlocks bmap blocks = perform (blocks.map fun b => readAt (place b)) := by
  induction blocks with
  | nil => rfl
  | cons b blocks ih =>
    have hstep : readBlocks bmap (b :: blocks) =
        (liftM (bmap b) : RaidM _) >>= fun p => doSingleRead p.1 p.2 >>= fun _ =>
          readBlocks bmap blocks := rfl
    have hlift : (liftM (bmap b) : RaidM _) = pure (place b) := by rw [hbmap]; rfl
    rw [hstep, hlift, pure_bind, ih]
    rfl

/-- The loop over the offsets performs one access for each, on the parity disk. -/
theorem accessParity_eq (isWrite : Bool) (pdisk : Nat) (offs : List Nat) :
    accessParity (doSingle isWrite) pdisk offs =
      perform (offs.map fun off => ⟨isWrite, pdisk, off⟩) := by
  induction offs with
  | nil => rfl
  | cons off offs ih =>
    have hstep : accessParity (doSingle isWrite) pdisk (off :: offs) =
        doSingle isWrite pdisk off >>= fun _ => accessParity (doSingle isWrite) pdisk offs := rfl
    rw [hstep, ih]
    rfl

end Pure

/-- One call of `doPartialWrite`: the blocks from `begin` up to `end_` of a stripe. -/
structure PartialWrite where
  stripe : Nat
  begin : Nat
  end_ : Nat
  deriving DecidableEq, Repr

section Lists

variable (place : Nat → Nat × Nat) (parity : Nat → Nat)

/-- The distinct row offsets of the written blocks, in the order they are met. -/
def PartialWrite.offs (p : PartialWrite) : List Nat :=
  collectOffs [] ((range p.begin p.end_).map place)

/-- The reads of a partial write. -/
def partialReads (p : PartialWrite) : List Access :=
  if p.end_ - p.begin + 1 ≤ r.blocksInStripe - (p.end_ - p.begin) then
    (range p.begin p.end_).map (fun b => readAt (place b)) ++
      (p.offs place).map fun off => readAt (parity p.stripe, off)
  else
    (range (p.stripe * r.blocksInStripe) p.begin ++
      range p.end_ (p.stripe * r.blocksInStripe + r.blocksInStripe)).map fun b => readAt (place b)

/-- The writes of a partial write. -/
def partialWrites (p : PartialWrite) : List Access :=
  (range p.begin p.end_).map (fun b => writeAt (place b)) ++
    (p.offs place).map fun off => writeAt (parity p.stripe, off)

/-- All accesses of a partial write, the reads first. -/
def partialAccesses (p : PartialWrite) : List Access :=
  r.partialReads place parity p ++ partialWrites place parity p

end Lists

/-- The partial writes that the loop over stripes makes. -/
def stripeWrites : List Nat → Nat → Nat → List PartialWrite
  | [], _, _ => []
  | stripe :: rest, left, begin =>
    let endOfStripe := (stripe * r.blocksInStripe) + r.blocksInStripe
    let end_ := if left ≥ r.blocksInStripe then begin + r.blocksInStripe else begin + left
    let end_ := if end_ ≥ endOfStripe then endOfStripe else end_
    ⟨stripe, begin, end_⟩ :: stripeWrites rest (left - (end_ - begin)) end_

section Pure

variable {bmap : Nat → Except Abort (Nat × Nat)} {pmap : Nat → Except Abort Nat}
variable {place : Nat → Nat × Nat} {parity : Nat → Nat}

/-- `doPartialWrite` performs its reads and then its writes, whatever block and parity maps it is
given, as long as these do not abort. -/
theorem doPartialWrite_eq (hbmap : ∀ b, bmap b = .ok (place b))
    (hpmap : ∀ s, pmap s = .ok (parity s)) (p : PartialWrite) :
    r.doPartialWrite bmap pmap p.stripe p.begin p.end_ =
      perform (r.partialAccesses place parity p) := by
  have hlift : (liftM (pmap p.stripe) : RaidM _) = pure (parity p.stripe) := by rw [hpmap]; rfl
  have hread : doSingleRead = doSingle false := rfl
  have hwrite : doSingleWrite = doSingle true := rfl
  unfold doPartialWrite partialAccesses partialReads partialWrites PartialWrite.offs
  simp only [hlift, pure_bind, hread, hwrite]
  split
  · simp only [accessBlocks_eq hbmap, accessParity_eq, perform_append, bind_assoc, pure_bind]
    rfl
  · simp only [accessBlocks_eq hbmap, readBlocks_eq hbmap, accessParity_eq, List.map_append,
      perform_append, bind_assoc, pure_bind]
    rfl

/-- The loop over stripes performs the accesses of one partial write after the other. -/
theorem writeStripes_eq (hbmap : ∀ b, bmap b = .ok (place b))
    (hpmap : ∀ s, pmap s = .ok (parity s)) (stripes : List Nat) (left begin : Nat) :
    r.writeStripes bmap pmap stripes left begin =
      perform ((r.stripeWrites stripes left begin).flatMap (r.partialAccesses place parity)) := by
  induction stripes generalizing left begin with
  | nil => rfl
  | cons stripe rest ih =>
    simp only [writeStripes, stripeWrites, List.flatMap_cons, perform_append, ih]
    rw [← r.doPartialWrite_eq hbmap hpmap]

end Pure

end Raid

end OsLab
