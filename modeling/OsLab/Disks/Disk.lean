import OsLab.Lib.Lts
import OsLab.Python

/-!
# The disk simulator

`class Disk` of `disk.py` without its graphics. How fast the disk turns and the arm moves decides
when a seek, a rotation and a transfer end and what `DoSATF` estimates; here all of that is an
argument, so what is proved of a run holds at every speed and for every arithmetic.

* **`makeRequests`**, **`initBlockLayout`** -- the request lists of the options, and the three
  tracks. A listed request stays the piece of text that it is; what is drawn is a number.
* **`new`**, **`addRequest`** -- `__init__` turns the requests that come at the start into numbers,
  and `addRequest` takes a late one as it comes.
* **`satfLoop`**, **`sstfLoop`**, **`choose`** -- the three policies, over the slice of the queue
  that `getWindow` cuts out.
* **`getNextIo`**, **`animate`** -- a decision and a tick. A tick is a `Tick`: the outcomes of the
  three tests and the estimates.
* **`simulation`** -- the loop of `Go` as a transition system; a state without a step has aborted.
-/

namespace OsLab.Disks

def MAXTRACKS : Nat := 1000

/-- `STATE_NULL` to `STATE_DONE` -/
inductive State where
  | null
  | seek
  | rotate
  | xfer
  | done
  deriving DecidableEq

inductive Policy where
  | FIFO
  | SATF
  | SSTF
  | BSATF
  deriving DecidableEq

/-! ## Requests -/

/-- An entry of a request list: a number, or a piece of an option's text. -/
inductive Block where
  | int (n : Int)
  | str (s : Str)
  deriving DecidableEq

def isSpace (c : Char) : Bool := c ∈ [' ', '\t', '\n', '\r', '\x0b', '\x0c']

def digits (s : Str) : Option Nat :=
  if s ≠ [] ∧ s.all Char.isDigit then
    some (s.foldl (fun n c => 10 * n + (c.toNat - '0'.toNat)) 0)
  else
    none

/-- `int(s)` for a `str`. -/
def intOfStr (s : Str) : Except Abort Int :=
  let s := ((s.dropWhile isSpace).reverse.dropWhile isSpace).reverse
  let n := match s with
    | '-' :: s => (digits s).map fun n => -(n : Int)
    | '+' :: s => (digits s).map fun n => (n : Int)
    | s => (digits s).map fun n => (n : Int)
  match n with
  | some n => .ok n
  | none => .error .valueError

/-- `int(x)` -/
def Block.toInt : Block → Except Abort Int
  | .int n => .ok n
  | .str s => intOfStr s

/-- A list given with `-a` or `-l`, or what `-A` or `-L` lets the program draw. -/
inductive Addr where
  | generated (blocks : List Int)
  | listed (addr : Str)

def makeRequests : Addr → List Block
  | .generated blocks => blocks.map .int
  | .listed addr => (split addr ',').map .str

/-! ## The block layout -/

/-- The number of blocks on the outer, the middle and the inner track. -/
structure Layout where
  outer : Nat
  middle : Nat
  inner : Nat

/-- The length of `range(0, 360, angleOffset)`. -/
def trackLength (zone : Nat) : Except Abort Nat :=
  let angleOffset := 2 * (zone / 2)
  if angleOffset = 0 then .error .valueError else .ok ((360 + angleOffset - 1) / angleOffset)

/-- `InitBlockLayout` for three zones. -/
def initBlockLayout (zoning : Nat × Nat × Nat) : Except Abort Layout := do
  let outer ← trackLength zoning.1
  let middle ← trackLength zoning.2.1
  let inner ← trackLength zoning.2.2
  return ⟨outer, middle, inner⟩

namespace Layout

def blockToTrackMap (l : Layout) : Block → Except Abort Nat
  | .int block =>
    if block < 0 then .error .keyError
    else if block < l.outer then .ok 0
    else if block < l.outer + l.middle then .ok 1
    else if block < l.outer + l.middle + l.inner then .ok 2
    else .error .keyError
  | .str _ => .error .keyError

def tracksBeginEnd (l : Layout) : Nat → Except Abort (Int × Int)
  | 0 => .ok (0, (l.outer : Int) - 1)
  | 1 => .ok (l.outer, (l.outer : Int) + l.middle - 1)
  | 2 => .ok ((l.outer : Int) + l.middle, (l.outer : Int) + l.middle + l.inner - 1)
  | _ => .error .keyError

end Layout

/-! ## The disk -/

/-- The options. -/
structure Config where
  zoning : Nat × Nat × Nat
  policy : Policy
  window : Int
  addr : Addr
  lateAddr : Addr

/-- `Disk`. An index of -1 is `none`; `served` lists the requests whose transfers have ended. -/
structure Disk where
  layout : Layout
  policy : Policy
  fairWindow : Int
  lateRequests : List Block
  lateCount : Nat
  requestCount : Nat
  requestQueue : List (Block × Nat)
  requestState : List State
  currWindow : Int
  currentIndex : Option Nat
  currentBlock : Block
  state : State
  armTrack : Nat
  armTarget : Nat
  isDone : Bool
  served : List Nat

namespace Disk

/-- What a tick of the clock brings. -/
structure Tick where
  seekDone : Bool
  rotationDone : Bool
  transferDone : Bool
  est : Block → Rat

def addQueueEntry (d : Disk) (block : Block) (index : Nat) : Disk :=
  { d with
    requestQueue := d.requestQueue ++ [(block, index)]
    requestState := d.requestState ++ [.null] }

def addRequest (d : Disk) (block : Block) : Disk := d.addQueueEntry block d.requestQueue.length

def addInitial (d : Disk) : List Block → Nat → Except Abort Disk
  | [], _ => .ok d
  | block :: blocks, index => do
    let block ← block.toInt
    (d.addQueueEntry (.int block) index).addInitial blocks (index + 1)

/-- `__init__` -/
def new (c : Config) : Except Abort Disk := do
  let layout ← initBlockLayout c.zoning
  let d : Disk := {
    layout := layout
    policy := c.policy
    fairWindow := if c.policy = .BSATF ∧ c.window ≠ -1 then c.window else -1
    lateRequests := makeRequests c.lateAddr
    lateCount := 0
    requestCount := 0
    requestQueue := []
    requestState := []
    currWindow := c.window
    currentIndex := none
    currentBlock := .int (-1)
    state := .null
    armTrack := 0
    armTarget := 0
    isDone := false
    served := [] }
  d.addInitial (makeRequests c.addr) 0

def switchState (d : Disk) (newState : State) : Except Abort Disk := do
  let _ ← index d.requestState d.currentIndex
  return { d with
    state := newState
    requestState := d.requestState.set (position d.requestState d.currentIndex) newState }

/-- `PlanSeek` -/
def planSeek (d : Disk) (track : Nat) : Except Abort Disk := do
  let d ← d.switchState .seek
  if track = d.armTrack then
    d.switchState .rotate
  else
    return { d with armTarget := track }

/-- The loop of `DoSATF` over `minEst`, `minBlock` and `minIndex`. -/
def satfLoop (d : Disk) (est : Block → Rat) :
    List (Block × Nat) → Rat → Block → Option Nat → Except Abort (Block × Option Nat)
  | [], _, minBlock, minIndex => .ok (minBlock, minIndex)
  | (block, i) :: rList, minEst, minBlock, minIndex => do
    let state ← index d.requestState (some i)
    if state = .done then
      d.satfLoop est rList minEst minBlock minIndex
    else do
      let _ ← d.layout.blockToTrackMap block
      let totalEst := est block
      if minEst = -1 ∨ totalEst < minEst then
        d.satfLoop est rList totalEst block (some i)
      else
        d.satfLoop est rList minEst minBlock minIndex

def doSATF (d : Disk) (est : Block → Rat) (rList : List (Block × Nat)) :
    Except Abort (Block × Option Nat) := do
  let (minBlock, minIndex) ← d.satfLoop est rList (-1) (.int (-1)) none
  assert (minBlock ≠ .int (-1)) "minBlock != -1"
  assert (minIndex ≠ none) "minIndex != -1"
  return (minBlock, minIndex)

/-- The loop of `DoSSTF` over `minDist` and `trackList`. -/
def sstfLoop (d : Disk) :
    List (Block × Nat) → Nat → List (Block × Nat) → Except Abort (List (Block × Nat))
  | [], _, trackList => .ok trackList
  | (block, i) :: rList, minDist, trackList => do
    let state ← index d.requestState (some i)
    if state = .done then
      d.sstfLoop rList minDist trackList
    else do
      let track ← d.layout.blockToTrackMap block
      let dist := ((d.armTrack : Int) - track).natAbs
      if dist < minDist then
        d.sstfLoop rList dist [(block, i)]
      else if dist = minDist then
        d.sstfLoop rList minDist (trackList ++ [(block, i)])
      else
        d.sstfLoop rList minDist trackList

def doSSTF (d : Disk) (rList : List (Block × Nat)) : Except Abort (List (Block × Nat)) := do
  let trackList ← d.sstfLoop rList MAXTRACKS []
  assert (trackList ≠ []) "trackList != []"
  return trackList

def updateWindow (d : Disk) : Disk :=
  if d.fairWindow = -1 ∧ d.currWindow > 0 ∧ d.currWindow < d.requestQueue.length then
    { d with currWindow := d.currWindow + 1 }
  else
    d

def getWindow (d : Disk) : Int × Disk :=
  if d.currWindow ≤ -1 then
    (d.requestQueue.length, d)
  else if d.fairWindow ≠ -1 then
    let d :=
      if d.requestCount > 0 ∧ (d.requestCount : Int) % d.fairWindow = 0 then
        { d with currWindow := d.currWindow + d.fairWindow }
      else
        d
    (d.currWindow, d)
  else
    (d.currWindow, d)

/-- The policy's part of `GetNextIO`. -/
def choose (d : Disk) (est : Block → Rat) : Except Abort ((Block × Option Nat) × Disk) :=
  match d.policy with
  | .FIFO => do
    let (block, i) ← index d.requestQueue (some d.requestCount)
    let _ ← d.doSATF est ((d.requestQueue.drop d.requestCount).take 1)
    return ((block, some i), d)
  | .SATF | .BSATF => do
    let (endIndex, d) := d.getWindow
    let endIndex :=
      if endIndex > d.requestQueue.length then (d.requestQueue.length : Int) else endIndex
    let chosen ← d.doSATF est (d.requestQueue.take endIndex.toNat)
    return (chosen, d)
  | .SSTF => do
    let (endIndex, d) := d.getWindow
    let trackList ← d.doSSTF (d.requestQueue.take endIndex.toNat)
    let chosen ← d.doSATF est trackList
    return (chosen, d)

/-- The end of `GetNextIO`. -/
def addLate (d : Disk) : Disk :=
  match d.lateRequests[d.lateCount]? with
  | some block => { d.addRequest block with lateCount := d.lateCount + 1 }
  | none => d

def getNextIo (d : Disk) (est : Block → Rat) : Except Abort Disk :=
  if d.requestCount = d.requestQueue.length then
    .ok { d with isDone := true }
  else do
    let ((block, i), d) ← d.choose est
    let d := { d with currentBlock := block, currentIndex := i }
    let track ← d.layout.blockToTrackMap d.currentBlock
    let d ← d.planSeek track
    return d.addLate

/-- Whether the next block comes under the head right after this one. -/
def follows (d : Disk) (currentBlock nextBlock : Block) : Except Abort Bool := do
  let track ← d.layout.blockToTrackMap currentBlock
  let nextTrack ← d.layout.blockToTrackMap nextBlock
  if track = nextTrack then do
    let (first, last) ← d.layout.tracksBeginEnd d.armTrack
    match currentBlock, nextBlock with
    | .int current, .int next =>
      return decide (current = last ∧ next = first ∨ current + 1 = next)
    | _, _ => .error .typeError
  else
    return false

/-- The part of `Animate` for a transfer that has ended. -/
def transferred (d : Disk) (est : Block → Rat) : Except Abort Disk := do
  let d ← d.switchState .done
  let d := { d with
    requestCount := d.requestCount + 1
    served := d.served ++ d.currentIndex.toList }
  let d := d.updateWindow
  let currentBlock := d.currentBlock
  let d ← d.getNextIo est
  let stays ← d.follows currentBlock d.currentBlock
  if stays then d.switchState .xfer else return d

/-- `Animate` -/
def animate (d : Disk) (tick : Tick) : Except Abort Disk := do
  let d ←
    if d.state = .seek ∧ tick.seekDone then
      Disk.switchState { d with armTrack := d.armTarget } .rotate
    else
      pure d
  let d ← if d.state = .rotate ∧ tick.rotationDone then d.switchState .xfer else pure d
  if d.state = .xfer ∧ tick.transferDone then d.transferred tick.est else pure d

/-- `Go` up to its loop; a window of 0 is refused. -/
def start (c : Config) (est : Block → Rat) : Except Abort Disk :=
  if c.window = 0 then
    .error .exit
  else do
    let d ← new c
    d.getNextIo est

/-- The loop of `Go`. -/
def simulation (c : Config) : Lts Disk Tick where
  init d := ∃ est, start c est = .ok d
  step d tick d' := d.isDone = false ∧ d.animate tick = .ok d'

end Disk

end OsLab.Disks
