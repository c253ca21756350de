import OsLab.Disks.Ticks

/-!
# The disk and its clock

`Clocked` is `class Disk` with everything that `DoRequestStats` reads and writes: the timer, the
three begins of the phases and the three totals. The platter and the arm are left out. Where they
stand, and what `DoSATF` makes of it, is computed in floating point, and all that the rest of the
program sees of these numbers is the outcome of three tests and the order of the estimates. So
each round of the loop takes a `Disk.Tick`, which brings just that.

* **The ticks are arbitrary.** Whatever the arithmetic rounds to, for any speed of the platter and
  of the arm, the run of the program is a run of `Clocked.program`. A double is a rational number,
  and two doubles compare as these do, so the estimates of a tick lose nothing. Estimates that
  overflow are equal among themselves and above the others, and numbers can be found for that.
* **The machine is one instance.** `Machine` computes the same quantities exactly, and
  `Machine.reachable_clocked` says that its runs, without platter and arm, are runs of the clocked
  disk. What is shown of the clocked disk holds there too.

The timer and the begins are whole numbers in the source. The totals are floats that start at 0.0
and have whole numbers added to them; they are whole numbers here.
-/

namespace OsLab.Disks

/-- `Disk` with its clock. The three begins are set before they are read, and `rows` lists what
`DoRequestStats` has seen, in the order of its calls. -/
structure Clocked where
  disk : Disk
  timer : Nat
  seekBegin : Nat
  rotBegin : Nat
  xferBegin : Nat
  seekTotal : Int
  rotTotal : Int
  xferTotal : Int
  totalEst : Rat
  rows : List Row

namespace Clocked

def switchState (c : Clocked) (newState : State) : Except Abort Clocked := do
  let disk ← c.disk.switchState newState
  return { c with disk := disk }

/-- `PlanSeek`, which begins the seek, and the wait for the block if the arm stays. -/
def planSeek (c : Clocked) (track : Nat) : Except Abort Clocked := do
  let disk ← c.disk.planSeek track
  if track = c.disk.armTrack then
    return { c with disk := disk, seekBegin := c.timer, rotBegin := c.timer }
  else
    return { c with disk := disk, seekBegin := c.timer }

/-- The body of `DoSATF`: a block that has no track fails, every other one has an estimate. -/
def estimate (c : Clocked) (est : Block → Rat) (block : Block) : Except Abort Rat := do
  let _ ← c.disk.layout.blockToTrackMap block
  return est block

/-- `GetNextIO` -/
def getNextIo (c : Clocked) (est : Block → Rat) : Except Abort Clocked :=
  if c.disk.requestCount = c.disk.requestQueue.length then
    .ok { c with disk := { c.disk with isDone := true } }
  else do
    let ((totalEst, block, i), disk) ← c.disk.chooseEst (c.estimate est)
    let disk := { disk with currentBlock := block, currentIndex := i }
    let c := { c with disk := disk, totalEst := totalEst }
    let track ← c.disk.layout.blockToTrackMap c.disk.currentBlock
    let c ← c.planSeek track
    return { c with disk := c.disk.addLate }

/-- What `DoRequestStats` reads. -/
def row (c : Clocked) : Row where
  block := c.disk.currentBlock
  seekBegin := c.seekBegin
  rotBegin := c.rotBegin
  xferBegin := c.xferBegin
  timer := c.timer
  totalEst := c.totalEst

/-- `DoRequestStats` -/
def doRequestStats (c : Clocked) : Clocked :=
  { c with
    seekTotal := c.seekTotal + c.row.seekTime
    rotTotal := c.rotTotal + c.row.rotTime
    xferTotal := c.xferTotal + c.row.xferTime
    rows := c.rows ++ [c.row] }

/-- `if self.state == STATE_SEEK`, where the tick says whether `DoneWithSeek` finds the arm at its
target. -/
def seeking (c : Clocked) (tick : Disk.Tick) : Except Abort Clocked :=
  if c.disk.state = .seek ∧ tick.seekDone then
    Clocked.switchState { c with
      disk := { c.disk with armTrack := c.disk.armTarget }, rotBegin := c.timer } .rotate
  else
    return c

/-- `if self.state == STATE_ROTATE` -/
def rotating (c : Clocked) (tick : Disk.Tick) : Except Abort Clocked :=
  if c.disk.state = .rotate ∧ tick.rotationDone then
    Clocked.switchState { c with xferBegin := c.timer } .xfer
  else
    return c

/-- The part of `Animate` for a transfer that has ended. -/
def transferred (c : Clocked) (est : Block → Rat) : Except Abort Clocked := do
  let disk ← c.disk.switchState .done
  let disk := { disk with
    requestCount := disk.requestCount + 1
    served := disk.served ++ disk.currentIndex.toList }
  let c := Clocked.doRequestStats { c with disk := disk }
  let c := { c with disk := c.disk.updateWindow }
  let currentBlock := c.disk.currentBlock
  let c ← c.getNextIo est
  let stays ← c.disk.follows currentBlock c.disk.currentBlock
  if stays then
    Clocked.switchState { c with
      rotBegin := c.timer, seekBegin := c.timer, xferBegin := c.timer } .xfer
  else
    return c

/-- `if self.state == STATE_XFER` -/
def transferring (c : Clocked) (tick : Disk.Tick) : Except Abort Clocked :=
  if c.disk.state = .xfer ∧ tick.transferDone then c.transferred tick.est else return c

/-- `self.timer += 1` -/
def ticked (c : Clocked) : Clocked := { c with timer := c.timer + 1 }

/-- `Animate`: one tick may end a seek, a wait and a transfer, and begin the next request. -/
def animate (c : Clocked) (tick : Disk.Tick) : Except Abort Clocked := do
  let c ← c.ticked.seeking tick
  let c ← c.rotating tick
  c.transferring tick

/-! ## The program -/

/-- The clock that `__init__` sets. -/
def initial (d : Disk) : Clocked where
  disk := d
  timer := 0
  seekBegin := 0
  rotBegin := 0
  xferBegin := 0
  seekTotal := 0
  rotTotal := 0
  xferTotal := 0
  totalEst := 0
  rows := []

/-- `Go` up to its loop; a window of 0 is refused. -/
def start (c : Config) (est : Block → Rat) : Except Abort Clocked :=
  if c.window = 0 then
    .error .exit
  else do
    let d ← Disk.new c
    (initial d).getNextIo est

/-- The loop of `Go`. The speeds, the skew and the arithmetic stand behind the ticks, and no tick
is left out, so every run of the program is a run of this. -/
def program (c : Config) : Lts Clocked Disk.Tick where
  init s := ∃ est, start c est = .ok s
  step s tick s' := s.disk.isDone = false ∧ s.animate tick = .ok s'

end Clocked

/-! ## What a tick does

As for the machine: the ways through `GetNextIO` and through each part of `Animate`. -/

namespace Clocked

variable {c c' : Clocked} {est : Block → Rat} {tick : Disk.Tick}

/-- `SwitchState` changes nothing but the states of the disk and of the current request; the clock
goes on as it was. -/
theorem switchState_cases {state : State} (h : c.switchState state = .ok c') :
    ∃ requestState, c' = { c with
      disk := { c.disk with state := state, requestState := requestState } } := by
  unfold switchState at h
  obtain ⟨disk, hdisk, h⟩ := bind_eq_ok.mp h
  cases Except.ok.inj h
  exact ⟨_, congrArg (fun d => { c with disk := d }) (Disk.switchState_frame hdisk)⟩

/-- A block on the track under the head is waited for at once: both begins are now. -/
def stay (c : Clocked) (disk : Disk) (totalEst : Rat) : Clocked :=
  { c with disk := disk, totalEst := totalEst, seekBegin := c.timer, rotBegin := c.timer }

/-- The arm starts for another track, and the begin of the wait is left as it was. -/
def leave (c : Clocked) (disk : Disk) (totalEst : Rat) : Clocked :=
  { c with disk := disk, totalEst := totalEst, seekBegin := c.timer }

/-- `GetNextIO` finds that all is done, or begins the seek of a request, and the wait with it if
the block is on the track under the head. -/
theorem getNextIo_cases (h : c.getNextIo est = .ok c') :
    (c.disk.requestCount = c.disk.requestQueue.length ∧
      c' = { c with disk := { c.disk with isDone := true } }) ∨
    ∃ d e, Disk.Kept c.disk d ∧
      (d.state = .rotate ∧ c' = c.stay d e ∨ d.state = .seek ∧ c' = c.leave d e) := by
  unfold getNextIo at h
  split at h
  · rename_i hall
    exact Or.inl ⟨hall, (Except.ok.inj h).symm⟩
  · obtain ⟨⟨⟨e, block, i⟩, d₁⟩, hchoose, h⟩ := bind_eq_ok.mp h
    obtain ⟨-, currWindow, rfl⟩ := Disk.chooseEst_cases hchoose
    obtain ⟨track, -, h⟩ := bind_eq_ok.mp h
    obtain ⟨c₁, hplan, h⟩ := bind_eq_ok.mp h
    unfold planSeek at hplan
    obtain ⟨d₂, hseek, hplan⟩ := bind_eq_ok.mp hplan
    obtain ⟨requestQueue, requestState', lateCount, hlate⟩ := d₂.addLate_eq
    refine Or.inr ⟨d₂.addLate, e, ?_⟩
    rcases Disk.planSeek_cases hseek with ⟨hsame, requestState, hd₂⟩ | ⟨hother, requestState, hd₂⟩
    · rw [if_pos hsame] at hplan
      cases Except.ok.inj hplan
      cases Except.ok.inj h
      rw [hlate, hd₂]
      exact ⟨⟨rfl, rfl, rfl, rfl⟩, Or.inl ⟨rfl, rfl⟩⟩
    · rw [if_neg hother] at hplan
      cases Except.ok.inj hplan
      cases Except.ok.inj h
      rw [hlate, hd₂]
      exact ⟨⟨rfl, rfl, rfl, rfl⟩, Or.inr ⟨rfl, rfl⟩⟩

/-- The arm has come to its track. -/
def settled (c : Clocked) (requestState : List State) : Clocked :=
  { c with
    disk := { c.disk with
      armTrack := c.disk.armTarget, state := .rotate, requestState := requestState }
    rotBegin := c.timer }

/-- The block has come under the head. -/
def begun (c : Clocked) (requestState : List State) : Clocked :=
  { c with
    disk := { c.disk with state := .xfer, requestState := requestState }
    xferBegin := c.timer }

/-- The next block follows at once, and the transfer goes on: all three begins are now. -/
def goesOn (c : Clocked) (requestState : List State) : Clocked :=
  { c with
    disk := { c.disk with state := .xfer, requestState := requestState }
    seekBegin := c.timer
    rotBegin := c.timer
    xferBegin := c.timer }

/-- The first part of a tick does nothing, or brings the arm to its track and begins the wait. -/
theorem seeking_cases (h : c.seeking tick = .ok c') :
    c' = c ∨ c.disk.state = .seek ∧ ∃ requestState, c' = c.settled requestState := by
  unfold seeking at h
  split at h
  · rename_i hdone
    exact Or.inr ⟨hdone.1, switchState_cases h⟩
  · exact Or.inl (Except.ok.inj h).symm

/-- The second part of a tick does nothing, or brings the block under the head and begins the
transfer. -/
theorem rotating_cases (h : c.rotating tick = .ok c') :
    c' = c ∨ c.disk.state = .rotate ∧ ∃ requestState, c' = c.begun requestState := by
  unfold rotating at h
  split at h
  · rename_i hdone
    exact Or.inr ⟨hdone.1, switchState_cases h⟩
  · exact Or.inl (Except.ok.inj h).symm

/-- The third part of a tick does nothing, or ends the transfer. -/
theorem transferring_cases (h : c.transferring tick = .ok c') :
    c' = c ∨ c.disk.state = .xfer ∧ c.transferred tick.est = .ok c' := by
  unfold transferring at h
  split at h
  · rename_i hdone
    exact Or.inr ⟨hdone.1, h⟩
  · exact Or.inl (Except.ok.inj h).symm

/-- The clock in front of the decision that follows a transfer: the row has been entered, and the
disk has counted the request. -/
def ended (c : Clocked) (disk : Disk) : Clocked := { c.doRequestStats with disk := disk }

/-- After a transfer comes a decision, and where the next block follows the transfer goes on. -/
theorem transferred_cases (h : c.transferred est = .ok c') :
    ∃ d c₁, d.isDone = c.disk.isDone ∧ d.requestCount = c.disk.requestCount + 1 ∧
      (c.ended d).getNextIo est = .ok c₁ ∧
      (c' = c₁ ∨ ∃ requestState, c' = c₁.goesOn requestState) := by
  unfold transferred at h
  obtain ⟨d₁, hdone, h⟩ := bind_eq_ok.mp h
  have hframe := Disk.switchState_frame hdone
  obtain ⟨c₁, hnext, h⟩ := bind_eq_ok.mp h
  obtain ⟨stays, -, h⟩ := bind_eq_ok.mp h
  -- `DoRequestStats` reads only the block of the disk, and the count leaves that alone
  generalize hcounted : ({ d₁ with
    requestCount := d₁.requestCount + 1
    served := d₁.served ++ d₁.currentIndex.toList } : Disk) = counted at hnext
  obtain ⟨currWindow, hwindow⟩ := counted.updateWindow_eq
  have hblock : counted.currentBlock = c.disk.currentBlock := by rw [← hcounted, hframe]
  have hended : ({ doRequestStats { c with disk := counted } with
      disk := counted.updateWindow } : Clocked) = c.ended counted.updateWindow := by
    unfold ended doRequestStats row
    rw [← hblock]
  refine ⟨counted.updateWindow, c₁, ?_, ?_, hended ▸ hnext, ?_⟩
  · rw [hwindow, ← hcounted, hframe]
  · rw [hwindow, ← hcounted, hframe]
  · split at h
    · exact Or.inr (switchState_cases h)
    · exact Or.inl (Except.ok.inj h).symm

/-- A tick is its three parts, one after the other, behind the step of the timer. -/
theorem animate_parts (h : c.animate tick = .ok c') : ∃ c₁ c₂, c.ticked.seeking tick = .ok c₁ ∧
    c₁.rotating tick = .ok c₂ ∧ c₂.transferring tick = .ok c' := by
  unfold animate at h
  obtain ⟨c₁, hseek, h⟩ := bind_eq_ok.mp h
  obtain ⟨c₂, hrotate, h⟩ := bind_eq_ok.mp h
  exact ⟨c₁, c₂, hseek, hrotate, h⟩

end Clocked

/-! ## The machine is a clocked disk

What a tick of the machine finds out about the arm and the platter is the tick that the clocked
disk takes. Nothing is asked of the speeds, for a machine that goes on has found what it needed. -/

namespace Disk

variable {d d' : Disk} {est est' : Block → Except Abort Rat}

/-- The choice is made from the estimates that succeed. -/
theorem satfLoopEst_mono (hest : ∀ block e, est block = .ok e → est' block = .ok e)
    {rList : List (Block × Nat)} {minEst : Rat} {minBlock : Block} {minIndex : Option Nat}
    {r : Rat × Block × Option Nat} (h : d.satfLoopEst est rList minEst minBlock minIndex = .ok r) :
    d.satfLoopEst est' rList minEst minBlock minIndex = .ok r := by
  induction rList generalizing minEst minBlock minIndex with
  | nil => exact h
  | cons entry rList ih =>
    obtain ⟨block, i⟩ := entry
    unfold satfLoopEst at h ⊢
    obtain ⟨state, hstate, h⟩ := bind_eq_ok.mp h
    refine bind_eq_ok.mpr ⟨state, hstate, ?_⟩
    split at h
    · rename_i hdone
      rw [if_pos hdone]
      exact ih h
    · rename_i hnot
      rw [if_neg hnot]
      obtain ⟨totalEst, htotal, h⟩ := bind_eq_ok.mp h
      refine bind_eq_ok.mpr ⟨totalEst, hest block totalEst htotal, ?_⟩
      split at h
      · rename_i hbetter
        rw [if_pos hbetter]
        exact ih h
      · rename_i hworse
        rw [if_neg hworse]
        exact ih h

theorem doSATFEst_mono (hest : ∀ block e, est block = .ok e → est' block = .ok e)
    {rList : List (Block × Nat)} {r : Rat × Block × Option Nat}
    (h : d.doSATFEst est rList = .ok r) : d.doSATFEst est' rList = .ok r := by
  unfold doSATFEst at h ⊢
  obtain ⟨found, hloop, h⟩ := bind_eq_ok.mp h
  exact bind_eq_ok.mpr ⟨found, satfLoopEst_mono hest hloop, h⟩

theorem chooseEst_mono (hest : ∀ block e, est block = .ok e → est' block = .ok e)
    {r : (Rat × Block × Option Nat) × Disk} (h : d.chooseEst est = .ok r) :
    d.chooseEst est' = .ok r := by
  unfold chooseEst at h ⊢
  split at h
  · obtain ⟨front, hfront, h⟩ := bind_eq_ok.mp h
    obtain ⟨found, hsatf, h⟩ := bind_eq_ok.mp h
    exact bind_eq_ok.mpr ⟨front, hfront, bind_eq_ok.mpr ⟨found, doSATFEst_mono hest hsatf, h⟩⟩
  · obtain ⟨chosen, hsatf, h⟩ := bind_eq_ok.mp h
    exact bind_eq_ok.mpr ⟨chosen, doSATFEst_mono hest hsatf, h⟩
  · obtain ⟨chosen, hsatf, h⟩ := bind_eq_ok.mp h
    exact bind_eq_ok.mpr ⟨chosen, doSATFEst_mono hest hsatf, h⟩
  · obtain ⟨trackList, htracks, h⟩ := bind_eq_ok.mp h
    obtain ⟨chosen, hsatf, h⟩ := bind_eq_ok.mp h
    exact bind_eq_ok.mpr ⟨trackList, htracks,
      bind_eq_ok.mpr ⟨chosen, doSATFEst_mono hest hsatf, h⟩⟩

end Disk

namespace Machine

variable {m m' : Machine}

/-- The machine without platter and arm. -/
def clocked (m : Machine) : Clocked where
  disk := m.disk
  timer := m.timer
  seekBegin := m.seekBegin
  rotBegin := m.rotBegin
  xferBegin := m.xferBegin
  seekTotal := m.seekTotal
  rotTotal := m.rotTotal
  xferTotal := m.xferTotal
  totalEst := m.totalEst
  rows := m.rows

/-- What `DoSATF` finds, with 0 for a block that it cannot estimate. -/
def estimates (m : Machine) (block : Block) : Rat := (m.estimate block).toOption.getD 0

/-- An estimate that succeeds is one of the clocked disk: the block has a track, and its number is
the one that the clocked disk is given. -/
theorem estimate_clocked {block : Block} {e : Rat} (h : m.estimate block = .ok e) :
    m.clocked.estimate m.estimates block = .ok e := by
  have htrack := h
  unfold estimate at htrack
  obtain ⟨track, htrack, -⟩ := bind_eq_ok.mp htrack
  unfold Clocked.estimate estimates
  rw [h]
  exact bind_eq_ok.mpr ⟨track, htrack, rfl⟩

theorem switchState_clocked {state : State} (h : m.switchState state = .ok m') :
    m.clocked.switchState state = .ok m'.clocked := by
  unfold switchState at h
  obtain ⟨disk, hdisk, h⟩ := bind_eq_ok.mp h
  cases Except.ok.inj h
  exact bind_eq_ok.mpr ⟨disk, hdisk, rfl⟩

theorem planSeek_clocked {track : Nat} (h : m.planSeek track = .ok m') :
    m.clocked.planSeek track = .ok m'.clocked := by
  unfold planSeek at h
  obtain ⟨disk, hdisk, h⟩ := bind_eq_ok.mp h
  refine bind_eq_ok.mpr ⟨disk, hdisk, ?_⟩
  show (if track = m.disk.armTrack then _ else _) = _
  split at h
  · rename_i hsame
    cases Except.ok.inj h
    rw [if_pos hsame]
    rfl
  · rename_i hother
    cases Except.ok.inj h
    rw [if_neg hother]
    rfl

/-- A decision of the machine is a decision of the clocked disk by the machine's estimates. The
choice is made from those that succeed, so the others may be anything. -/
theorem getNextIo_clocked (h : m.getNextIo = .ok m') :
    m.clocked.getNextIo m.estimates = .ok m'.clocked := by
  unfold getNextIo at h
  unfold Clocked.getNextIo
  split at h
  · rename_i hall
    cases Except.ok.inj h
    rw [if_pos (show m.clocked.disk.requestCount = m.clocked.disk.requestQueue.length from hall)]
    rfl
  · rename_i hleft
    rw [if_neg
      (show ¬m.clocked.disk.requestCount = m.clocked.disk.requestQueue.length from hleft)]
    obtain ⟨chosen, hchoose, h⟩ := bind_eq_ok.mp h
    obtain ⟨track, htrack, h⟩ := bind_eq_ok.mp h
    obtain ⟨m₁, hplan, h⟩ := bind_eq_ok.mp h
    cases Except.ok.inj h
    refine bind_eq_ok.mpr
      ⟨chosen, Disk.chooseEst_mono (fun _ _ => estimate_clocked) hchoose, ?_⟩
    exact bind_eq_ok.mpr
      ⟨track, htrack, bind_eq_ok.mpr ⟨m₁.clocked, planSeek_clocked hplan, rfl⟩⟩

/-- The end of a transfer of the machine is one of the clocked disk, by the estimates of the machine
that decides. -/
theorem transferred_clocked (h : m.transferred = .ok m') :
    ∃ est, m.clocked.transferred est = .ok m'.clocked := by
  unfold transferred at h
  obtain ⟨disk, hdone, h⟩ := bind_eq_ok.mp h
  obtain ⟨m₁, hnext, h⟩ := bind_eq_ok.mp h
  obtain ⟨stays, hstays, h⟩ := bind_eq_ok.mp h
  refine ⟨_, bind_eq_ok.mpr ⟨disk, hdone, bind_eq_ok.mpr
    ⟨m₁.clocked, getNextIo_clocked hnext, bind_eq_ok.mpr ⟨stays, hstays, ?_⟩⟩⟩⟩
  split at h
  · rename_i hyes
    rw [if_pos hyes]
    exact switchState_clocked h
  · rename_i hno
    rw [if_neg hno]
    cases Except.ok.inj h
    rfl

/-- A tick that brings what `DoneWithSeek` finds goes the way of the machine through the first
part. -/
theorem seeking_clocked {tick : Disk.Tick} (h : m.turned.seeking = .ok m')
    (htick : tick.seekDone = m.turned.moved.seekDone) :
    m.clocked.ticked.seeking tick = .ok m'.clocked := by
  unfold seeking at h
  unfold Clocked.seeking
  rw [htick]
  split at h
  · rename_i hstate
    dsimp only at h
    split at h
    · rename_i hdone
      rw [if_pos ⟨hstate, hdone⟩]
      exact switchState_clocked h
    · rename_i hnot
      rw [if_neg fun hboth => hnot hboth.2]
      cases Except.ok.inj h
      rfl
  · rename_i hstate
    rw [if_neg fun hboth => hstate hboth.1]
    cases Except.ok.inj h
    rfl

/-- Whatever `DoneWithRotation` finds, a tick that brings just that goes the same way. Where the
disk does not wait for a block the test is not made, and any tick will do. -/
theorem rotating_clocked (h : m.rotating = .ok m') :
    ∃ rotationDone, ∀ tick : Disk.Tick, tick.rotationDone = rotationDone →
      m.clocked.rotating tick = .ok m'.clocked := by
  unfold rotating at h
  unfold Clocked.rotating
  split at h
  · rename_i hstate
    obtain ⟨target, -, h⟩ := bind_eq_ok.mp h
    refine ⟨m.radiallyCloseTo m.angle target, fun tick htick => ?_⟩
    rw [htick]
    split at h
    · rename_i hclose
      rw [if_pos ⟨hstate, hclose⟩]
      exact switchState_clocked h
    · rename_i hnot
      rw [if_neg fun hboth => hnot hboth.2]
      cases Except.ok.inj h
      rfl
  · rename_i hstate
    refine ⟨false, fun tick _ => ?_⟩
    rw [if_neg fun hboth => hstate hboth.1]
    cases Except.ok.inj h
    rfl

/-- The same for the end of a transfer, which also needs the estimates of the next decision. -/
theorem transferring_clocked (h : m.transferring = .ok m') :
    ∃ transferDone est, ∀ tick : Disk.Tick, tick.transferDone = transferDone → tick.est = est →
      m.clocked.transferring tick = .ok m'.clocked := by
  unfold Clocked.transferring
  rcases transferring_cases h with ⟨hstate, rfl⟩ |
    ⟨hstate, target, -, ⟨-, rfl⟩ | ⟨-, htransferred⟩⟩
  · refine ⟨false, fun _ => 0, fun tick _ _ => ?_⟩
    rw [if_neg fun hboth => hstate hboth.1]
    rfl
  · refine ⟨false, fun _ => 0, fun tick htick _ => ?_⟩
    rw [htick, if_neg fun hboth => Bool.false_ne_true hboth.2]
    rfl
  · obtain ⟨est, hest⟩ := transferred_clocked htransferred
    refine ⟨true, est, fun tick htick hestimates => ?_⟩
    rw [htick, hestimates, if_pos ⟨hstate, rfl⟩]
    exact hest

/-- A tick of the machine is a tick of the clocked disk, put together from what each of the three
tests has found. -/
theorem animate_clocked (h : m.animate = .ok m') :
    ∃ tick, m.clocked.animate tick = .ok m'.clocked := by
  obtain ⟨m₁, m₂, hseeking, hrotating, htransferring⟩ := animate_parts h
  obtain ⟨rotationDone, hrotate⟩ := rotating_clocked hrotating
  obtain ⟨transferDone, est, htransfer⟩ := transferring_clocked htransferring
  refine ⟨⟨m.turned.moved.seekDone, rotationDone, transferDone, est⟩, ?_⟩
  exact bind_eq_ok.mpr ⟨m₁.clocked, seeking_clocked hseeking rfl,
    bind_eq_ok.mpr ⟨m₂.clocked, hrotate _ rfl, htransfer _ rfl rfl⟩⟩

/-- **The machine runs as the clocked disk.** Every state that exact arithmetic comes to is, without
platter and arm, one that the clocked disk can come to. -/
theorem reachable_clocked {c : Config} {v : Drive} (h : (program c v).Reachable m) :
    (Clocked.program c).Reachable m.clocked := by
  refine h.refines (f := clocked) ?_ ?_
  · intro m₀ hstart
    have hwindow : c.window ≠ 0 := by
      intro hzero
      unfold program start at hstart
      dsimp only at hstart
      rw [if_pos hzero] at hstart
      cases hstart
    obtain ⟨t, d, l, -, -, -, hnew, -, -, -, -, hnext⟩ := start_cases hstart
    refine ⟨(initial v t d).estimates, ?_⟩
    unfold Clocked.start
    rw [if_neg hwindow]
    exact bind_eq_ok.mpr ⟨d, hnew, getNextIo_clocked hnext⟩
  · intro m₁ _ m₂ _ ⟨hgoing, hanimate⟩
    obtain ⟨tick, htick⟩ := animate_clocked hanimate
    exact ⟨tick, hgoing, htick⟩

end Machine

end OsLab.Disks
