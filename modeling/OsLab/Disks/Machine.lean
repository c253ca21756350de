import OsLab.Disks.Geometry
import OsLab.Disks.Serving

/-!
# The disk with its mechanics

`class Disk` with the platter, the arm and the clock: `DoSATF` computes its estimates, and what ends
in a tick follows from where the arm and the platter are. Numbers are exact. What is left of a
machine when these parts are taken away is the disk of the other modules, and a tick of the machine
is a tick of that disk (`OsLab.Disks.Simulation`).

* **`Drive`**, **`Row`** -- the options about the mechanics, and what one call of `DoRequestStats`
  sees.
* **`downTo360`**, **`upTo0`** -- the two loops that bring an angle back to the circle, with the
  number of rounds that they need.
* **`estimate`**, **`satfLoopEst`** -- the estimate for a block, and the choice with the estimate
  that is stored.
* **`seekDone`**, **`mark`**, **`radiallyCloseTo`** -- what the three tests of `Animate` look at.
* **`new`**, **`start`**, **`program`** -- a speed of the arm is refused unless it divides the width
  of a track.
-/

namespace OsLab.Disks

/-! ## The parts -/

/-- The options that are about the mechanics. -/
structure Drive where
  rotateSpeed : Rat
  seekSpeed : Rat
  skew : Int

/-- What `DoRequestStats` sees when a transfer has ended. -/
structure Row where
  block : Block
  seekBegin : Nat
  rotBegin : Nat
  xferBegin : Nat
  timer : Nat
  totalEst : Rat
  deriving DecidableEq

namespace Row

def seekTime (row : Row) : Int := row.rotBegin - row.seekBegin

def rotTime (row : Row) : Int := row.xferBegin - row.rotBegin

def xferTime (row : Row) : Int := row.timer - row.xferBegin

def totalTime (row : Row) : Int := row.timer - row.seekBegin

end Row

/-- `Disk` with all of its fields. The three phase times are set before they are read. -/
structure Machine where
  drive : Drive
  tables : Tables
  disk : Disk
  timer : Nat
  angle : Rat
  armX1 : Rat
  armTargetX1 : Rat
  armSpeed : Rat
  seekBegin : Nat
  rotBegin : Nat
  xferBegin : Nat
  seekTotal : Int
  rotTotal : Int
  xferTotal : Int
  totalEst : Rat
  rows : List Row

def trackWidth : Rat := 40

/-- `self.tracks[track]` -/
def tracks (track : Nat) : Rat := 140 - trackWidth * track

/-- `self.width / 2.0` -/
def spindleX : Rat := 250

def armWidth : Rat := 20

/-! ## Estimates -/

/-- `while x > 360.0: x -= 360.0`, at most `n` times. -/
def reduceAbove : Nat → Rat → Rat
  | 0, x => x
  | n + 1, x => if x > 360 then reduceAbove n (x - 360) else x

/-- `while x < 0.0: x += 360.0`, at most `n` times. -/
def raiseBelow : Nat → Rat → Rat
  | 0, x => x
  | n + 1, x => if x < 0 then raiseBelow n (x + 360) else x

/-- The loop to its end. -/
def downTo360 (x : Rat) : Rat := reduceAbove ⌈x / 360⌉.toNat x

def upTo0 (x : Rat) : Rat := raiseBelow ⌈-x / 360⌉.toNat x

namespace Disk

/-- The loop of `DoSATF` with `minEst`. -/
def satfLoopEst (d : Disk) (est : Block → Except Abort Rat) :
    List (Block × Nat) → Rat → Block → Option Nat → Except Abort (Rat × Block × Option Nat)
  | [], minEst, minBlock, minIndex => .ok (minEst, minBlock, minIndex)
  | (block, i) :: rList, minEst, minBlock, minIndex => do
    let state ← index d.requestState (some i)
    if state = .done then
      d.satfLoopEst est rList minEst minBlock minIndex
    else do
      let totalEst ← est block
      if minEst = -1 ∨ totalEst < minEst then
        d.satfLoopEst est rList totalEst block (some i)
      else
        d.satfLoopEst est rList minEst minBlock minIndex

/-- `DoSATF`, with the `totalEst` that it stores. -/
def doSATFEst (d : Disk) (est : Block → Except Abort Rat) (rList : List (Block × Nat)) :
    Except Abort (Rat × Block × Option Nat) := do
  let (minEst, minBlock, minIndex) ← d.satfLoopEst est rList (-1) (.int (-1)) none
  assert (minBlock ≠ .int (-1)) "minBlock != -1"
  assert (minIndex ≠ none) "minIndex != -1"
  return (minEst, minBlock, minIndex)

/-- The policy's part of `GetNextIO`, with `totalEst`. -/
def chooseEst (d : Disk) (est : Block → Except Abort Rat) :
    Except Abort ((Rat × Block × Option Nat) × Disk) :=
  match d.policy with
  | .FIFO => do
    let (block, i) ← index d.requestQueue (some d.requestCount)
    let (totalEst, _) ← d.doSATFEst est ((d.requestQueue.drop d.requestCount).take 1)
    return ((totalEst, block, some i), d)
  | .SATF | .BSATF => do
    let (endIndex, d) := d.getWindow
    let endIndex :=
      if endIndex > d.requestQueue.length then (d.requestQueue.length : Int) else endIndex
    let chosen ← d.doSATFEst est (d.requestQueue.take endIndex.toNat)
    return (chosen, d)
  | .SSTF => do
    let (endIndex, d) := d.getWindow
    let trackList ← d.doSSTF (d.requestQueue.take endIndex.toNat)
    let chosen ← d.doSATFEst est trackList
    return (chosen, d)

end Disk

namespace Machine

/-- `self.blockToAngleMap[block]` -/
def blockToAngleMap (m : Machine) : Block → Except Abort Int
  | .int b =>
    match m.tables.blockToAngleMap b with
    | some angle => .ok angle
    | none => .error .keyError
  | .str _ => .error .keyError

/-- The body of `DoSATF`: the estimate for a block. -/
def estimate (m : Machine) (block : Block) : Except Abort Rat := do
  let track ← m.disk.layout.blockToTrackMap block
  let angle ← m.blockToAngleMap block
  let dist := ((m.disk.armTrack : Int) - track).natAbs
  let seekEst := trackWidth / m.drive.seekSpeed * dist
  let angleOffset ← index m.tables.blockAngleOffset (some track)
  let angleAtArrival := downTo360 (m.angle + seekEst * m.drive.rotateSpeed)
  let rotDist := upTo0 (downTo360 ((angle : Rat) - angleOffset - angleAtArrival))
  if m.drive.rotateSpeed = 0 then
    throw .zeroDivisionError
  let rotEst := rotDist / m.drive.rotateSpeed
  let xferEst := (angleOffset : Rat) * 2 / m.drive.rotateSpeed
  return seekEst + rotEst + xferEst

/-! ## The steps of a request -/

def switchState (m : Machine) (newState : State) : Except Abort Machine := do
  let disk ← m.disk.switchState newState
  return { m with disk := disk }

/-- `PlanSeek` -/
def planSeek (m : Machine) (track : Nat) : Except Abort Machine := do
  let disk ← m.disk.planSeek track
  if track = m.disk.armTrack then
    return { m with disk := disk, seekBegin := m.timer, rotBegin := m.timer }
  else
    return { m with
      disk := disk
      seekBegin := m.timer
      armTargetX1 := spindleX - tracks track - trackWidth / 2
      armSpeed := if track ≥ m.disk.armTrack then m.drive.seekSpeed else -m.drive.seekSpeed }

/-- `GetNextIO` -/
def getNextIo (m : Machine) : Except Abort Machine :=
  if m.disk.requestCount = m.disk.requestQueue.length then
    .ok { m with disk := { m.disk with isDone := true } }
  else do
    let ((totalEst, block, i), disk) ← m.disk.chooseEst m.estimate
    let disk := { disk with currentBlock := block, currentIndex := i }
    let m := { m with disk := disk, totalEst := totalEst }
    let track ← m.disk.layout.blockToTrackMap m.disk.currentBlock
    let m ← m.planSeek track
    return { m with disk := m.disk.addLate }

/-- `RadiallyCloseTo` -/
def radiallyCloseTo (m : Machine) (a₁ a₂ : Rat) : Bool :=
  let v := if a₁ > a₂ then a₁ - a₂ else a₂ - a₁
  decide (v < m.drive.rotateSpeed)

/-- Where `DoneWithRotation` (for `-1`) and `DoneWithTransfer` (for `1`) look for the block. -/
def mark (m : Machine) (side : Int) : Except Abort Int := do
  let angleOffset ← index m.tables.blockAngleOffset (some m.disk.armTrack)
  let angle ← m.blockToAngleMap m.disk.currentBlock
  return (angle + side * angleOffset) % 360

/-- The test of `DoneWithSeek`, with the arm moved. -/
def seekDone (m : Machine) : Bool :=
  decide (m.armSpeed > 0 ∧ m.armX1 ≥ m.armTargetX1 ∨ m.armSpeed < 0 ∧ m.armX1 ≤ m.armTargetX1)

/-- `DoRequestStats` -/
def doRequestStats (m : Machine) : Machine :=
  let row : Row := {
    block := m.disk.currentBlock
    seekBegin := m.seekBegin
    rotBegin := m.rotBegin
    xferBegin := m.xferBegin
    timer := m.timer
    totalEst := m.totalEst }
  { m with
    seekTotal := m.seekTotal + row.seekTime
    rotTotal := m.rotTotal + row.rotTime
    xferTotal := m.xferTotal + row.xferTime
    rows := m.rows ++ [row] }

/-- `self.timer += 1` and the turn of the platter -/
def turned (m : Machine) : Machine :=
  let angle := m.angle + m.drive.rotateSpeed
  { m with timer := m.timer + 1, angle := if angle ≥ 360 then 0 else angle }

/-- `if self.state == STATE_SEEK` -/
def seeking (m : Machine) : Except Abort Machine :=
  if m.disk.state = .seek then
    let m := { m with armX1 := m.armX1 + m.armSpeed }
    if m.seekDone then
      Machine.switchState { m with
        disk := { m.disk with armTrack := m.disk.armTarget }, rotBegin := m.timer } .rotate
    else
      return m
  else
    return m

/-- `if self.state == STATE_ROTATE` -/
def rotating (m : Machine) : Except Abort Machine :=
  if m.disk.state = .rotate then do
    let target ← m.mark (-1)
    if m.radiallyCloseTo m.angle target then
      Machine.switchState { m with xferBegin := m.timer } .xfer
    else
      return m
  else
    return m

/-- The part of `Animate` for a transfer that has ended. -/
def transferred (m : Machine) : Except Abort Machine := do
  let disk ← m.disk.switchState .done
  let disk := { disk with
    requestCount := disk.requestCount + 1
    served := disk.served ++ disk.currentIndex.toList }
  let m := Machine.doRequestStats { m with disk := disk }
  let m := { m with disk := m.disk.updateWindow }
  let currentBlock := m.disk.currentBlock
  let m ← m.getNextIo
  let stays ← m.disk.follows currentBlock m.disk.currentBlock
  if stays then
    Machine.switchState { m with
      rotBegin := m.timer, seekBegin := m.timer, xferBegin := m.timer } .xfer
  else
    return m

/-- `if self.state == STATE_XFER` -/
def transferring (m : Machine) : Except Abort Machine :=
  if m.disk.state = .xfer then do
    let target ← m.mark 1
    if m.radiallyCloseTo m.angle target then m.transferred else return m
  else
    return m

/-- `Animate` -/
def animate (m : Machine) : Except Abort Machine := do
  let m ← m.turned.seeking
  let m ← m.rotating
  m.transferring

/-! ## The program -/

/-- `x % y` for two floats. -/
def modRat (x y : Rat) : Rat := x - ⌊x / y⌋ * y

/-- The tests of `__init__` on the speed of the arm. -/
def checkSeekSpeed (seekSpeed : Rat) : Except Abort Unit :=
  if seekSpeed > 1 ∧ modRat trackWidth seekSpeed ≠ 0 then
    .error .exit
  else if seekSpeed < 1 then
    if seekSpeed = 0 then .error .zeroDivisionError
    else if trackWidth / seekSpeed ≠ intOfRat (trackWidth / seekSpeed) then .error .exit
    else .ok ()
  else
    .ok ()

/-- `__init__` -/
def new (c : Config) (v : Drive) : Except Abort Machine := do
  let tables ← Tables.initBlockLayout c.zoning v.skew
  checkSeekSpeed v.seekSpeed
  let disk ← Disk.new c
  return {
    drive := v
    tables := tables
    disk := disk
    timer := 0
    angle := 0
    armX1 := spindleX - tracks 0 - armWidth
    armTargetX1 := 0
    armSpeed := v.seekSpeed
    seekBegin := 0
    rotBegin := 0
    xferBegin := 0
    seekTotal := 0
    rotTotal := 0
    xferTotal := 0
    totalEst := 0
    rows := [] }

/-- `Go` up to its loop; a window of 0 is refused. -/
def start (c : Config) (v : Drive) : Except Abort Machine :=
  if c.window = 0 then
    .error .exit
  else do
    let m ← new c v
    m.getNextIo

/-- At most `n` rounds of `while self.isDone == False`. -/
def loop : Nat → Machine → Except Abort Machine
  | 0, m => .ok m
  | n + 1, m =>
    if m.disk.isDone then .ok m
    else do
      let m ← m.animate
      loop n m

/-- The loop of `Go`. -/
def program (c : Config) (v : Drive) : Lts Machine Unit where
  init m := start c v = .ok m
  step m _ m' := m.disk.isDone = false ∧ m.animate = .ok m'

end Machine

end OsLab.Disks
